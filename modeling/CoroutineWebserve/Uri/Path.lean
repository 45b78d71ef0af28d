import CoroutineWebserve.Uri.Parts

/-!
# The path of a URI without authority

`save_path` belongs to `path_abempty` behind an authority only. The other paths are read by states
that make no action, and are lost.
-/
namespace CoroutineWebserve.Uri
open Ragel
open Http (Bytes bytes)

/-- What is before a path that no authority precedes, and the path. -/
inductive NoAuthority : Bytes → Bytes → Prop
  | scheme {scheme path : Bytes} (hscheme : scheme ∈ Grammar.scheme.lang)
      (hpath : path ∈ Grammar.pathAbsolute.lang ∨ path ∈ Grammar.pathRootless.lang) :
      NoAuthority (scheme++[58]) path
  | relative {path : Bytes}
      (hpath : path ∈ Grammar.pathAbsolute.lang ∨ path ∈ Grammar.pathNoscheme.lang) :
      NoAuthority [] path

/-- `Create` stores the path, the query and the fragment of the text. -/
def Stores (text path : Bytes) (query fragment : Option Bytes) : Prop :=
  ∀ v, Create text = .ok (some v) →
    v.path = path ∧ v.query = query.getD [] ∧ v.fragment = fragment.getD []

/-! ### Paths that no action saves -/

/-- The path may end here, and nothing is done there. -/
structure Idle (cs : State) : Prop where
  final : cs.Final
  eof : eof cs = []
  query : step cs 63 = (.queryStart,[])
  fragment : step cs 35 = (.fragmentStart,[])

theorem idle_slash (hier : Bool) : Idle (.slash hier) := ⟨trivial,rfl,rfl,rfl⟩

theorem idle_plain {rest : Pattern} (h : rest.nullable = true) (scheme : Bool) :
    Idle (.plain rest scheme) :=
  ⟨h,rfl,by simp [step, h],by simp [step, h]⟩

/-- A path that might be a scheme is read up to its end, if no colon follows bytes of a scheme. -/
theorem silent_plain {w : Bytes} {rest : Pattern} (scheme : Bool) (hw : w ∈ rest.lang)
    (hends : ∀ b ∈ w, b ∉ [35,63]) (hcolon : scheme = true → ∀ x y, w = x++58 :: y →
      ¬∀ b ∈ x, isSchemeByte b = true) :
    ∃ cs, silent .error step (.plain rest scheme) w = some cs ∧ Idle cs := by
  induction w generalizing rest scheme with
  | nil => exact ⟨_,rfl,idle_plain ((Pattern.nullable_iff rest).mpr hw) scheme⟩
  | cons b w ih =>
    have hb := hends b List.mem_cons_self
    simp only [List.mem_cons, List.not_mem_nil, or_false, not_or] at hb
    obtain ⟨h35,h63⟩ := hb
    have h58 : ¬(scheme = true ∧ b = 58) := by
      rintro ⟨hscheme,rfl⟩
      exact hcolon hscheme [] w rfl (List.forall_mem_nil _)
    have hstep : step (.plain rest scheme) b =
        (.plain (rest.after b) (scheme && isSchemeByte b),[]) := by
      simp only [step, h35, h63, decide_false, Bool.and_false, Bool.false_eq_true, if_false,
        Bool.and_eq_true, decide_eq_true_eq, h58, within_of_ne (Pattern.after_ne_none hw)]
    obtain ⟨cs,hcs,hidle⟩ := ih (scheme && isSchemeByte b) (Pattern.mem_after.mpr hw)
      (fun c hc => hends c (List.mem_cons_of_mem b hc)) fun hscheme x y hxy hx => by
        rw [Bool.and_eq_true] at hscheme
        refine hcolon hscheme.1 (b :: x) y (by rw [hxy]; rfl) fun c hc => ?_
        rcases List.mem_cons.mp hc with rfl | hc
        · exact hscheme.2
        · exact hx c hc
    exact ⟨cs,by rw [silent_cons hstep (by simp), hcs],hidle⟩

/-- A colon in a path without scheme stands behind a slash. -/
theorem slash_before_colon {x y : Bytes} (h : x++58 :: y ∈ Grammar.pathNoscheme.lang) : 47 ∈ x := by
  obtain ⟨u,hu,v,hv,heq⟩ := Pattern.mem_lang_cat.mp h
  have hno : 58 ∉ u := Pattern.notMem_of_avoids (by decide) hu
  have hslash : ∀ c w, v = c :: w → c = 47 := by
    rintro c w rfl
    have honly : ∀ b, b ≠ 47 → (Pattern.char '/' ++ Grammar.segment).star.after b = .none :=
      forall_byte (by decide +kernel)
    exact not_not.mp (mt (honly c) (Pattern.after_ne_none hv))
  rcases List.append_eq_append_iff.mp heq with ⟨z,hz,hv'⟩ | ⟨z,hz,hy⟩
  · cases z with
    | nil => exact absurd (hslash 58 y hv') (by decide)
    | cons c z =>
      rw [hz, hslash c _ hv']
      simp
  · cases z with
    | nil => exact absurd (hslash 58 y (by simpa using hy.symm)) (by decide)
    | cons c z =>
      rw [List.cons_append] at hy
      obtain ⟨rfl,-⟩ := List.cons.inj hy
      exact absurd (by simp [hz]) hno

/-! ### From the first byte on -/

section first
variable (text : Bytes) (p : ℕ) (mark : Option ℕ) (u : Uri)

/-- The first byte of a path, and the others. -/
theorem parses_plain {cs : State} {g : Pattern} {c : UInt8} {w : Bytes} (scheme : UInt8 → Bool)
    (hfirst : ∀ b, b ∉ [35,47,63] → step cs b =
      within (g.after b) (.plain · (scheme b)) (if scheme b = true then [.marku] else []))
    (hends : ∀ b ∈ [35,47,63], g.after b = .none) (havoid : ∀ b ∈ [35,63], g.avoids b = true)
    (hw : c :: w ∈ g.lang) (hcolon : scheme c = true → ∀ x y, w = x++58 :: y →
      ¬∀ b ∈ x, isSchemeByte b = true) :
    ∃ s, Idle s.cs ∧ Parses text p ⟨cs,mark⟩ u (c :: w) s u := by
  have hne := Pattern.after_ne_none hw
  have hstep := hfirst c fun hc => hne (hends c hc)
  rw [within_of_ne hne] at hstep
  obtain ⟨last,hlast,hidle⟩ := silent_plain (scheme c) (Pattern.mem_after.mpr hw)
    (fun b hb hmem => Pattern.notMem_of_avoids (havoid b hmem) hw (List.mem_cons_of_mem c hb))
    hcolon
  have hbyte : Parses text p ⟨cs,mark⟩ u [c]
      ⟨.plain (g.after c) (scheme c),if scheme c = true then some p else mark⟩ u := by
    have hactions : Parser.runActions p ⟨.plain (g.after c) (scheme c),mark⟩
        (if scheme c = true then [.marku] else []) =
        (⟨.plain (g.after c) (scheme c),if scheme c = true then some p else mark⟩,[]) := by
      cases scheme c <;> rfl
    exact .of_byte hstep (by simp) hactions rfl
  exact ⟨_,hidle,hbyte.cons (.of_silent text (p+1) ⟨_,_⟩ u hlast)⟩

theorem parses_absolute {path : Bytes} {cs : State} {hier : Bool}
    (hslash : step cs 47 = (.slash hier,[])) (h : path ∈ Grammar.pathAbsolute.lang) :
    ∃ s, Idle s.cs ∧ Parses text p ⟨cs,mark⟩ u path s u := by
  obtain ⟨a,ha,q,hq,rfl⟩ := Pattern.mem_lang_cat.mp h
  obtain rfl := Pattern.mem_lang_char.mp ha
  have hbyte : Parses text p ⟨cs,mark⟩ u [47] ⟨.slash hier,mark⟩ u :=
    .of_byte hslash (by simp) rfl rfl
  cases q with
  | nil => exact ⟨_,idle_slash hier,hbyte⟩
  | cons c q =>
    have hfirst : ∀ b, b ∉ [35,47,63] → step (.slash hier) b =
        within (absoluteRest.after b) (.plain · false) (if false = true then [.marku] else []) := by
      intro b hb
      simp only [List.mem_cons, List.not_mem_nil, or_false, not_or] at hb
      simp only [step, hb, if_false, Bool.false_eq_true]
    obtain ⟨s,hidle,hrest⟩ := parses_plain text (p+1) mark u (fun _ => false) hfirst
      (by decide +kernel) (by decide +kernel) hq (by simp)
    exact ⟨s,hidle,hbyte.cons hrest⟩

theorem parses_rootless {path : Bytes} (h : path ∈ Grammar.pathRootless.lang) :
    ∃ s, Idle s.cs ∧ Parses text p ⟨.hierStart,mark⟩ u path s u := by
  obtain ⟨c,q,rfl⟩ : ∃ c q, path = c :: q := by
    refine List.exists_cons_of_ne_nil ?_
    rintro rfl
    exact absurd (Pattern.mem_lang_iff.mp h) (by decide)
  have hfirst : ∀ b, b ∉ [35,47,63] → step .hierStart b =
      within (Grammar.pathRootless.after b) (.plain · false)
        (if false = true then [.marku] else []) := by
    intro b hb
    simp only [List.mem_cons, List.not_mem_nil, or_false, not_or] at hb
    simp only [step, hb, if_false, Bool.false_eq_true]
  exact parses_plain text p mark u (fun _ => false) hfirst (by decide +kernel) (by decide +kernel) h
    (by simp)

theorem parses_noscheme {path : Bytes} (h : path ∈ Grammar.pathNoscheme.lang) :
    ∃ s, Idle s.cs ∧ Parses text p ⟨.start,mark⟩ u path s u := by
  obtain ⟨c,q,rfl⟩ : ∃ c q, path = c :: q := by
    refine List.exists_cons_of_ne_nil ?_
    rintro rfl
    exact absurd (Pattern.mem_lang_iff.mp h) (by decide)
  have hfirst : ∀ b, b ∉ [35,47,63] → step .start b =
      within (Grammar.pathNoscheme.after b) (.plain · (isAlpha b))
        (if isAlpha b = true then [.marku] else []) := by
    intro b hb
    simp only [List.mem_cons, List.not_mem_nil, or_false, not_or] at hb
    simp only [step, hb, if_false]
  refine parses_plain text p mark u isAlpha hfirst (by decide +kernel) (by decide +kernel) h
    fun halpha x y hxy hx => ?_
  have hslash := slash_before_colon (x := c :: x) (y := y) (by rw [hxy] at h; exact h)
  rcases List.mem_cons.mp hslash with rfl | hslash
  · exact absurd halpha (by decide)
  · exact absurd (hx 47 hslash) (by decide)

end first

/-! ### The whole text -/

variable {before path : Bytes} {query fragment : Option Bytes}

/-- The path is read, from the state behind the scheme or at the start. -/
theorem ends_path {text : Bytes} {p : ℕ} {s t : Parser} {u : Uri} (hidle : Idle t.cs)
    (hparses : Parses text p s u path t u) (hquery : ∀ w ∈ query, w ∈ Grammar.query.lang)
    (hfragment : ∀ w ∈ fragment, w ∈ Grammar.fragment.lang)
    (htext : text.drop p = path++(optional 63 query++optional 35 fragment)) :
    Ends text p s u (path++(optional 63 query++optional 35 fragment))
      { u with query := query.getD u.query, fragment := fragment.getD u.fragment } :=
  hparses.ends (ends_query (.nil text (p+path.length) t.mark u) hidle.final hidle.eof hidle.query
    hidle.fragment hquery hfragment (drop_add htext))

/-- The URI that is made has the scheme, the query and the fragment, and no path. -/
theorem create_noAuthority (h : NoAuthority before path)
    (hquery : ∀ w ∈ query, w ∈ Grammar.query.lang)
    (hfragment : ∀ w ∈ fragment, w ∈ Grammar.fragment.lang) :
    Create (before++(path++(optional 63 query++optional 35 fragment))) =
      .ok (some { new with
        scheme := before.dropLast, query := query.getD [], fragment := fragment.getD [] }) := by
  refine create_of_ends ?_
  generalize hbehind : optional 63 query++optional 35 fragment = behind
  cases h with
  | @scheme scheme path hscheme hpath =>
    have htext : scheme++[58]++(path++behind) = scheme++58 :: (path++behind) := by simp
    have hslice : (scheme++58 :: (path++behind)).drop (0+(scheme++[58]).length) = path++behind := by
      rw [← htext, Nat.zero_add, List.drop_left]
    have hcolon := parses_schemeColon hscheme (path++behind) new
    obtain ⟨s,hidle,hparses⟩ : ∃ s, Idle s.cs ∧ Parses (scheme++58 :: (path++behind))
        (0+(scheme++[58]).length) ⟨.hierStart,none⟩ { new with scheme } path s
        { new with scheme } :=
      hpath.elim (parses_absolute _ _ _ _ rfl) (parses_rootless _ _ _ _)
    subst hbehind
    have hends := hcolon.ends (ends_path hidle hparses hquery hfragment hslice)
    rw [htext] at hends ⊢
    rw [List.dropLast_concat]
    exact hends
  | @relative path hpath =>
    obtain ⟨s,hidle,hparses⟩ : ∃ s, Idle s.cs ∧ Parses (path++behind) 0 ⟨.start,none⟩ new path s
        new := hpath.elim (parses_absolute _ _ _ _ rfl) (parses_noscheme _ _ _ _)
    subst hbehind
    exact ends_path hidle hparses hquery hfragment rfl

/-- No such path is stored. -/
theorem not_stores (h : NoAuthority before path)
    (hquery : ∀ w ∈ query, w ∈ Grammar.query.lang)
    (hfragment : ∀ w ∈ fragment, w ∈ Grammar.fragment.lang) :
    ¬Stores (before++(path++(optional 63 query++optional 35 fragment))) path query fragment := by
  intro hstores
  have hpath : [] = path := (hstores _ (create_noAuthority h hquery hfragment)).1
  subst hpath
  have hempty : ∀ g ∈ [Grammar.pathAbsolute,Grammar.pathRootless,Grammar.pathNoscheme],
      [] ∉ g.lang := by
    intro g hg hnil
    have hnullable : ∀ g ∈ [Grammar.pathAbsolute,Grammar.pathRootless,Grammar.pathNoscheme],
        g.nullable = false := by decide
    exact Bool.false_ne_true ((hnullable g hg).symm.trans ((Pattern.nullable_iff g).mpr hnil))
  cases h with
  | scheme _ hpath => exact hpath.elim (hempty _ (by simp)) (hempty _ (by simp))
  | relative hpath => exact hpath.elim (hempty _ (by simp)) (hempty _ (by simp))

/-- The path of `mailto:user?subject`. -/
theorem not_stores_mailto : ¬Stores (bytes "mailto:user?subject") (bytes "user")
    (some (bytes "subject")) none :=
  @not_stores (bytes "mailto:") (bytes "user") (some (bytes "subject")) none
    (@NoAuthority.scheme (bytes "mailto") (bytes "user") (by decide)
      (.inr (by decide))) (by simp; decide) nofun

/-- `/index?q` is stored without its path. -/
theorem not_forall_stores : ¬∀ (before path : Bytes) (query fragment : Option Bytes),
    NoAuthority before path → (∀ w ∈ query, w ∈ Grammar.query.lang) →
    (∀ w ∈ fragment, w ∈ Grammar.fragment.lang) →
    Stores (before++(path++(optional 63 query++optional 35 fragment))) path query fragment := by
  intro h
  have hstores := h [] (bytes "/index") (some (bytes "q")) none
    (.relative (.inl (by decide))) (by simp; decide) nofun
  have hcreate : Create ([]++(bytes "/index"++(optional 63 (some (bytes "q"))++
      optional 35 none))) = .ok (some { new with query := bytes "q" }) := by decide
  have hpath : [] = bytes "/index" := (hstores _ hcreate).1
  exact absurd hpath (by decide)

end CoroutineWebserve.Uri
