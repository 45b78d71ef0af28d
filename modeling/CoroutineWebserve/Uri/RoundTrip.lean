import CoroutineWebserve.Uri.Parts

/-!
# URIs survive `toString`

The text of a URI with an authority is parsed again, one part after the other. All parts come
back but for a userinfo whose first colon is followed by a digit.
-/
namespace CoroutineWebserve.Uri
open Ragel
open Http (Bytes bytes)

/-! ### The end -/

def queryText (u : Uri) : Bytes := if u.query = [] then [] else 63 :: u.query

def fragmentText (u : Uri) : Bytes := if u.fragment = [] then [] else 35 :: u.fragment

/-- A part that is printed unless it is empty. -/
theorem optional_of_ne (delimiter : UInt8) (w : Bytes) :
    (if w = [] then [] else delimiter :: w) =
      optional delimiter (if w = [] then none else some w) := by
  split <;> rfl

theorem getD_of_ne (w : Bytes) : (if w = [] then none else some w).getD [] = w := by
  split_ifs with h
  · exact h.symm
  · rfl

theorem mem_of_ne {w v : Bytes} {lang : Language UInt8} (h : w ∈ lang)
    (hv : v ∈ if w = [] then none else some w) : v ∈ lang := by
  split_ifs at hv
  · cases hv
  · cases hv
    exact h

section ends
variable {text : Bytes} {p : ℕ} {u : Uri}

/-- The path, the query and the fragment. -/
theorem ends_queryText {rest : Pattern} {path : Bytes} {mark : ℕ} {x : Uri}
    (hrest : rest.nullable = true) (hu : u.query = [] ∧ u.fragment = [])
    (hquery : x.query ∈ Grammar.query.lang) (hfragment : x.fragment ∈ Grammar.fragment.lang)
    (htext : text.drop mark = path++(queryText x++fragmentText x)) :
    Ends text (mark+path.length) ⟨.path rest,some mark⟩ u (queryText x++fragmentText x)
      { u with path, query := x.query, fragment := x.fragment } := by
  have hmark : step (.path rest) 63 = (.queryStart,[.savePath]) := by simp [step, hrest]
  have hhash : step (.path rest) 35 = (.fragmentStart,[.savePath]) := by simp [step, hrest]
  have htail := drop_add htext
  rw [queryText, fragmentText, optional_of_ne, optional_of_ne] at htext htail ⊢
  have hends := ends_query (s := ⟨.path rest,some mark⟩) (sets_path (u := u) htext) hrest rfl hmark
    hhash (fun w hw => mem_of_ne hquery hw) (fun w hw => mem_of_ne hfragment hw) htail
  simp only [hu.1, hu.2, getD_of_ne] at hends
  exact hends

/-! ### The whole text -/

/-- The path that is printed begins with a slash. -/
theorem getPath_eq {x : Uri} (h : x.path ∈ Grammar.pathAbempty.lang) :
    ∃ q, x.getPath = 47 :: q ∧ 47 :: q ∈ Grammar.pathAbempty.lang := by
  by_cases hempty : x.path = []
  · exact ⟨[],by rw [getPath, if_pos hempty]; rfl,by decide⟩
  · obtain ⟨q,hq⟩ := slash_of_pathAbempty h hempty
    exact ⟨q,by rw [getPath, if_neg hempty, hq],hq ▸ h⟩

/-- Parts that match the grammar. The host is not empty. -/
structure WellFormed (u : Uri) : Prop where
  scheme : u.scheme ∈ Grammar.scheme.lang
  userinfo : u.userinfo ∈ Grammar.userinfo.lang
  host : u.host ∈ Grammar.host.lang
  host_ne : u.host ≠ []
  port : 0 ≤ u.port.toInt ∧ u.port.toInt ≤ 65535
  path : u.path ∈ Grammar.pathAbempty.lang
  query : u.query ∈ Grammar.query.lang
  fragment : u.fragment ∈ Grammar.fragment.lang

/-- What is parsed again. -/
def reparsed (u : Uri) : Uri :=
  { u with userinfo := kept u.userinfo, port := printedPort u, path := u.getPath }

/-- From the host on. -/
theorem ends_server {info : Pattern} {x : Uri} (h : x.WellFormed) (hport : u.port = 0)
    (hu : u.query = [] ∧ u.fragment = [])
    (htext : text.drop p = x.host++portText x++(x.getPath++(queryText x++fragmentText x))) :
    Ends text p ⟨.authority true info .hostStart,none⟩ u
      (x.host++portText x++(x.getPath++(queryText x++fragmentText x)))
      { u with host := x.host, port := printedPort x, path := x.getPath, query := x.query,
               fragment := x.fragment } := by
  obtain ⟨q,hq,hlang⟩ := getPath_eq h.path
  rw [hq] at htext ⊢
  have hserver : Parses text p ⟨.authority true info .hostStart,none⟩ u
      (x.host++portText x++[47]) ⟨.path (Grammar.pathAbempty.after 47),
        some (p+x.host.length+(portText x).length)⟩
      { u with host := x.host, port := printedPort x } :=
    parses_server h.host h.host_ne h.port hport htext
  have hmark : text.drop (p+x.host.length+(portText x).length) =
      47 :: q++(queryText x++fragmentText x) := by
    rw [Nat.add_assoc, ← List.length_append]
    exact drop_add htext
  obtain ⟨rest,hrest,hpath⟩ := parses_path text (p+(x.host++portText x++[47]).length)
    { u with host := x.host, port := printedPort x } hlang
    (some (p+x.host.length+(portText x).length))
  have hend := ends_queryText (u := { u with host := x.host, port := printedPort x }) hrest hu
    h.query h.fragment hmark
  have hlength : p+x.host.length+(portText x).length+(47 :: q).length =
      p+(x.host++portText x++[47]).length+q.length := by
    simp only [List.length_append, List.length_cons, List.length_nil]
    omega
  have hsplit : x.host++portText x++(47 :: q++(queryText x++fragmentText x)) =
      x.host++portText x++[47]++(q++(queryText x++fragmentText x)) := by simp
  rw [hlength] at hend
  rw [hsplit]
  exact hserver.ends (hpath.ends hend)

end ends

theorem toString_eq (u : Uri) : u.toString = u.scheme++bytes "://"++
    ((if u.userinfo = [] then [] else u.userinfo++[64])++
      (u.host++portText u++(u.getPath++(queryText u++fragmentText u)))) := by
  have hat : bytes "@" = [64] := rfl
  have hmark : bytes "?" = [63] := rfl
  have hhash : bytes "#" = [35] := rfl
  have huserinfo : u.userinfo++(if u.userinfo = [] then [] else bytes "@") =
      if u.userinfo = [] then [] else u.userinfo++[64] := by
    split <;> simp [*]
  have hquery : (if u.query = [] then [] else bytes "?")++u.query = queryText u := by
    unfold queryText
    split <;> simp [*]
  have hfragment : (if u.fragment = [] then [] else bytes "#")++u.fragment = fragmentText u := by
    unfold fragmentText
    split <;> simp [*]
  rw [← huserinfo, ← hquery, ← hfragment]
  simp only [toString, portText, List.append_assoc]

theorem create_toString {u : Uri} (h : u.WellFormed) :
    Create u.toString = .ok (some (reparsed u)) := by
  refine create_of_ends ?_
  rw [toString_eq]
  generalize hrest : u.host++portText u++(u.getPath++(queryText u++fragmentText u)) = rest
  refine (parses_scheme h.scheme new).ends ?_
  have hscheme : (u.scheme++bytes "://"++
      ((if u.userinfo = [] then [] else u.userinfo++[64])++rest)).drop
        (0+(u.scheme++bytes "://").length) =
      (if u.userinfo = [] then [] else u.userinfo++[64])++rest := by
    rw [Nat.zero_add, List.drop_left]
  by_cases hempty : u.userinfo = []
  · have hkept : kept u.userinfo = [] := by
      rw [hempty]
      rfl
    rw [if_pos hempty, List.nil_append] at hscheme ⊢
    subst hrest
    rw [reparsed, hkept]
    exact ends_server h rfl ⟨rfl,rfl⟩ hscheme
  · rw [if_neg hempty] at hscheme ⊢
    have hdrop := hscheme.trans (List.append_assoc u.userinfo [64] rest)
    obtain ⟨host,huserinfo⟩ := parses_userinfo h.userinfo hempty hdrop
    refine huserinfo.ends ?_
    subst hrest
    exact ends_server h rfl ⟨rfl,rfl⟩ (drop_add hscheme)

/-! ### Which URIs come back -/

theorem kept_eq_iff (w : Bytes) : kept w = w ↔ ¬PortLike w := by
  unfold kept
  split
  · next h =>
    refine iff_of_false (fun heq => ?_) (not_not.mpr h)
    obtain ⟨d,hd,-⟩ := h
    have htail := List.length_tail (l := w.dropWhile (· ≠ 58))
    have hdrop := (List.dropWhile_suffix (l := w) (· ≠ 58)).length_le
    have hlength := congrArg List.length heq
    have hpos : 0 < (w.dropWhile (· ≠ 58)).tail.length := by
      apply List.length_pos_of_ne_nil
      intro hnil
      rw [hnil] at hd
      cases hd
    omega
  · next h => exact iff_of_true rfl h

/-- A default port is not printed, and is got again from the scheme. -/
theorem getPort_reparsed (u : Uri) : (reparsed u).getPort = u.getPort := by
  by_cases h : u.isDefaultPort = true
  · have hzero : (reparsed u).port = 0 := if_pos h
    unfold isDefaultPort at h
    unfold getPort
    rw [hzero]
    split_ifs at h with hport hhttp hhttps <;> simp_all [reparsed]
  · have hport : (reparsed u).port = u.port := if_neg h
    unfold getPort
    rw [hport]
    rfl

theorem getPath_reparsed (u : Uri) : (reparsed u).getPath = u.getPath := by
  have hne : u.getPath ≠ [] := by
    unfold getPath
    split
    · exact List.cons_ne_nil _ _
    · next h => exact h
  exact if_neg hne

/-- The text is parsed again into a URI with the same parts. -/
def RoundTrips (u : Uri) : Prop :=
  ∃ v, Create u.toString = .ok (some v) ∧ v.scheme = u.scheme ∧ v.userinfo = u.userinfo ∧
    v.host = u.host ∧ v.getPort = u.getPort ∧ v.getPath = u.getPath ∧ v.query = u.query ∧
    v.fragment = u.fragment

/-- All parts come back, if no digit follows the first colon of the userinfo. -/
theorem roundTrips_iff {u : Uri} (h : u.WellFormed) : u.RoundTrips ↔ ¬PortLike u.userinfo := by
  have hcreate := create_toString h
  rw [← kept_eq_iff]
  constructor
  · rintro ⟨v,hv,-,huserinfo,-⟩
    rw [hcreate] at hv
    cases hv
    exact huserinfo
  · intro hkept
    exact ⟨reparsed u,hcreate,rfl,hkept,rfl,getPort_reparsed u,getPath_reparsed u,rfl,rfl⟩

/-- `http://user@h/` comes back. -/
theorem roundTrips_user :
    RoundTrips ⟨bytes "http",bytes "user",bytes "h",[],[],[],0⟩ := by
  refine (roundTrips_iff ⟨?_,?_,?_,?_,?_,?_,?_,?_⟩).mpr ?_ <;> decide

/-- The password of `http://user:1@h/` becomes the whole userinfo. -/
theorem not_roundTrips :
    ¬∀ u : Uri, u.WellFormed → u.RoundTrips := by
  intro h
  have hwell : WellFormed ⟨bytes "http",bytes "user:1",bytes "h",[],[],[],0⟩ := by
    refine ⟨?_,?_,?_,?_,?_,?_,?_,?_⟩ <;> decide
  have hcreate : Create (toString ⟨bytes "http",bytes "user:1",bytes "h",[],[],[],0⟩) =
      .ok (some ⟨bytes "http",bytes "1",bytes "h",bytes "/",[],[],0⟩) := by decide
  obtain ⟨v,hv,-,huserinfo,-⟩ := h _ hwell
  rw [hcreate] at hv
  cases hv
  exact absurd huserinfo (by decide)

end CoroutineWebserve.Uri
