import CoroutineWebserve.Uri.Model
import CoroutineWebserve.Ragel.Language
import Mathlib.Data.List.TakeWhile

/-!
# The authority of a URI

What the parser does from the scheme to the slash behind the port. A userinfo is read as a host
and a port too: a digit behind its first colon begins a port, and the mark that the userinfo
needs is set anew there.
-/
namespace CoroutineWebserve.Uri
open Ragel
open Http (Bytes bytes)

/-! ### Runs -/

namespace Parser

/-- One byte. -/
theorem reads_byte (s : Parser) (p : ℕ) (actions : List Action) {b : UInt8} {cs : State}
    (hstep : step s.cs b = (cs,actions)) (hcs : cs ≠ .error) :
    Reads byteStep p s [b] (runActions p { s with cs } actions).2
      (runActions p { s with cs } actions).1 :=
  .of_go (by simp only [byteStep, hstep, if_neg hcs])

/-- Bytes without actions. -/
theorem reads_silent (s : Parser) (p : ℕ) {bs : Bytes} {cs : State}
    (h : silent .error step s.cs bs = some cs) : Reads byteStep p s bs [] { s with cs } := by
  refine Reads.of_silent (fun cs => { s with cs }) ?_ h p
  intro s t p b hstep ht
  simp only [byteStep, hstep, if_neg ht]
  rfl

end Parser

/-- From offset `p` of the text on `bs` is read; the parser goes from `s` to `t`, and the URI is
then `v`. -/
def Parses (text : Bytes) (p : ℕ) (s : Parser) (u : Uri) (bs : Bytes) (t : Parser) (v : Uri) :
    Prop :=
  ∃ calls, Reads Parser.byteStep p s bs calls t ∧ calls.foldlM (set text) u = .ok v

section parses
variable {text bs cs : Bytes} {p : ℕ} {s t r : Parser} {u v w : Uri}

theorem Parses.trans (h : Parses text p s u bs t v)
    (h' : Parses text (p+bs.length) t v cs r w) : Parses text p s u (bs++cs) r w := by
  obtain ⟨calls,hreads,hset⟩ := h
  obtain ⟨more,hreads',hset'⟩ := h'
  refine ⟨calls++more,hreads.trans hreads',?_⟩
  rw [List.foldlM_append, hset]
  exact hset'

theorem Parses.cons {b : UInt8} (h : Parses text p s u [b] t v)
    (h' : Parses text (p+1) t v bs r w) : Parses text p s u (b :: bs) r w := h.trans h'

theorem Parses.of_silent (text : Bytes) (p : ℕ) (s : Parser) (u : Uri) {cs : State}
    (h : silent .error step s.cs bs = some cs) : Parses text p s u bs { s with cs } u :=
  ⟨[],Parser.reads_silent s p h,rfl⟩

/-- One byte with its actions. -/
theorem Parses.of_byte {b : UInt8} {cs : State} {actions : List Action} {calls : List Setter}
    (hstep : step s.cs b = (cs,actions)) (hcs : cs ≠ .error)
    (hactions : Parser.runActions p { s with cs } actions = (t,calls))
    (hset : calls.foldlM (set text) u = .ok v) : Parses text p s u [b] t v := by
  have hreads := Parser.reads_byte s p actions hstep hcs
  rw [hactions] at hreads
  exact ⟨calls,hreads,hset⟩

/-- A part is set to the text from its mark on. -/
theorem set_slice {mark : ℕ} {post : Bytes} (h : text.drop mark = bs++post) (part : Part) :
    [⟨part,some mark,mark+bs.length⟩].foldlM (set text) u = .ok (u.put bs (bs++post) part) := by
  simp only [List.foldlM_cons, List.foldlM_nil, set, h, Nat.add_sub_cancel_left, List.take_left]
  rfl

theorem drop_add {post : Bytes} (h : text.drop p = bs++post) : text.drop (p+bs.length) = post := by
  rw [← List.drop_drop, h, List.drop_left]

end parses

/-! ### The scheme -/

/-- What is left of a path while it may be a scheme. -/
def schemeRest : Pattern := Grammar.pathNoscheme.after 97

theorem step_alpha (b : UInt8) : isAlpha b = true →
    step .start b = (.plain schemeRest true,[.marku]) := by
  revert b
  exact forall_byte (by decide +kernel)

theorem step_schemeByte (b : UInt8) : isSchemeByte b = true →
    step (.plain schemeRest true) b = (.plain schemeRest true,[]) := by
  revert b
  exact forall_byte (by decide +kernel)

theorem scheme_bytes {scheme : Bytes} (h : scheme ∈ Grammar.scheme.lang) :
    ∃ c cs, scheme = c :: cs ∧ isAlpha c = true ∧ ∀ b ∈ cs, isSchemeByte b = true := by
  obtain ⟨u,hu,v,hv,rfl⟩ := Pattern.mem_lang_cat.mp h
  obtain ⟨c,hc,rfl⟩ := Pattern.mem_lang_byte.mp hu
  refine ⟨c,v,rfl,hc,fun b hb => ?_⟩
  by_contra hno
  have havoids : ∀ b, isSchemeByte b ≠ true →
      (Grammar.alpha ||| Grammar.digit ||| Pattern.oneOf "+-.").star.avoids b = true :=
    forall_byte (by decide +kernel)
  exact Pattern.notMem_of_avoids (havoids b hno) hv hb

/-- The scheme and its colon. -/
theorem parses_schemeColon {scheme : Bytes} (h : scheme ∈ Grammar.scheme.lang) (rest : Bytes)
    (u : Uri) : Parses (scheme++58 :: rest) 0 ⟨.start,none⟩ u (scheme++[58]) ⟨.hierStart,none⟩
      { u with scheme } := by
  have htext : (scheme++58 :: rest).drop 0 = scheme++58 :: rest := rfl
  obtain ⟨c,cs,rfl,hc,hcs⟩ := scheme_bytes h
  have hfirst : Parses (c :: cs++58 :: rest) 0 ⟨.start,none⟩ u [c]
      ⟨.plain schemeRest true,some 0⟩ u :=
    .of_byte (step_alpha c hc) (by simp) rfl rfl
  have hname : Parses (c :: cs++58 :: rest) 1 ⟨.plain schemeRest true,some 0⟩ u cs
      ⟨.plain schemeRest true,some 0⟩ u :=
    .of_silent _ _ _ _ (silent_loop (by simp) fun b hb => step_schemeByte b (hcs b hb))
  have hcolon : Parses (c :: cs++58 :: rest) (0+(c :: cs).length)
      ⟨.plain schemeRest true,some 0⟩ u [58] ⟨.hierStart,none⟩ { u with scheme := c :: cs } := by
    have hstep : step (.plain schemeRest true) 58 = (.hierStart,[.saveScheme]) := by
      decide
    exact .of_byte hstep (by simp) rfl (set_slice htext .scheme)
  exact (hfirst.cons hname).trans hcolon

theorem parses_scheme {scheme rest : Bytes} (h : scheme ∈ Grammar.scheme.lang) (u : Uri) :
    Parses (scheme++bytes "://"++rest) 0 ⟨.start,none⟩ u (scheme++bytes "://")
      ⟨.authority true Grammar.userinfo .hostStart,none⟩ { u with scheme } := by
  have htext : scheme++bytes "://"++rest = scheme++58 :: ([47,47]++rest) := by
    simp [show bytes "://" = [58,47,47] from rfl]
  have hread : scheme++bytes "://" = scheme++[58]++[47,47] := by
    simp [show bytes "://" = [58,47,47] from rfl]
  have hslashes : silent .error step .hierStart [47,47] =
      some (.authority true Grammar.userinfo .hostStart) := by decide
  rw [htext, hread]
  exact (parses_schemeColon h ([47,47]++rest) u).trans (.of_silent _ _ _ _ hslashes)

/-! ### Inside an authority -/

namespace Server

/-- No action is made when the next byte belongs to the host or the port. -/
def Quiet : Server → Prop
  | hostStart | portStart => False
  | none | host _ | port => True

theorem quiet_ofPattern (rest : Pattern) : (ofPattern rest).Quiet := by
  unfold ofPattern
  split <;> trivial

theorem quiet_after (s : Server) (b : UInt8) : (s.after b).Quiet := by
  cases s with
  | none => trivial
  | hostStart | host => exact quiet_ofPattern _
  | portStart | port =>
    simp only [after]
    split <;> trivial

theorem enter_quiet {s : Server} (h : s.Quiet) (b : UInt8) : s.enter b = [] := by
  cases s with
  | hostStart | portStart => exact h.elim
  | none | host | port => rfl

theorem after_ofPattern (rest : Pattern) (b : UInt8) :
    (ofPattern rest).after b = ofPattern (rest.after b) := by
  unfold ofPattern
  by_cases h : rest = .none
  · subst h
    rfl
  · rw [if_neg h]
    rfl

theorem foldl_ofPattern (w : Bytes) (rest : Pattern) :
    w.foldl (fun s b => s.after b) (ofPattern rest) =
      ofPattern (w.foldl (fun p b => p.after b) rest) := by
  induction w generalizing rest with
  | nil => rfl
  | cons b w ih => rw [List.foldl_cons, List.foldl_cons, after_ofPattern, ih]

theorem hostEnds_ofPattern {rest : Pattern} : (ofPattern rest).HostEnds ↔ rest.nullable = true := by
  unfold ofPattern
  split
  · next h =>
    subst h
    simp [HostEnds, Pattern.nullable]
  · rfl

theorem ofPattern_of_nullable {rest : Pattern} (h : rest.nullable = true) :
    ofPattern rest = host rest := by
  refine if_neg ?_
  rintro rfl
  cases h

end Server

/-- The first byte of a userinfo, a host, or both. -/
theorem step_first (hier : Bool) (info : Pattern) {b : UInt8} (hb : b ∉ [35,47,58,63,64])
    (halive : info.after b ≠ .none ∨ Grammar.host.after b ≠ .none) :
    step (.authority hier info .hostStart) b =
      (.authority hier (info.after b) (.ofPattern (Grammar.host.after b)),[.markh]) := by
  simp only [List.mem_cons, List.not_mem_nil, or_false, not_or] at hb
  obtain ⟨h35,h47,h58,h63,h64⟩ := hb
  have hserver : Server.ofPattern (Grammar.host.after b) = .none → Grammar.host.after b = .none := by
    intro h
    by_contra hno
    rw [Server.ofPattern, if_neg hno] at h
    cases h
  have hboth : ¬(info.after b = .none ∧ Server.after b .hostStart = .none) := fun h =>
    halive.elim (fun hinfo => hinfo h.1) fun hhost => hhost (hserver h.2)
  simp only [step, authorityStep, h64, h58, h47, h63, h35, decide_false, Bool.and_false,
    Bool.false_eq_true, and_false, if_false, if_neg hboth]
  rfl

/-- Bytes of a userinfo, a host or a port behind the first. -/
theorem authority_silent (hier : Bool) (info : Pattern) {server : Server} {w : Bytes}
    (hquiet : server.Quiet) (hw : ∀ b ∈ w, b ∉ [35,47,63,64])
    (hcolon : ∀ x y, w = x++58 :: y → ¬(x.foldl (fun s b => s.after b) server).HostEnds)
    (halive : ∀ x y, w = x++y → x.foldl (fun p b => p.after b) info ≠ .none ∨
      x.foldl (fun s b => s.after b) server ≠ .none) :
    silent .error step (.authority hier info server) w = some (.authority hier
      (w.foldl (fun p b => p.after b) info) (w.foldl (fun s b => s.after b) server)) := by
  induction w generalizing info server with
  | nil => rfl
  | cons b w ih =>
    have hb := hw b List.mem_cons_self
    simp only [List.mem_cons, List.not_mem_nil, or_false, not_or] at hb
    obtain ⟨h35,h47,h63,h64⟩ := hb
    have hends : ¬(server.HostEnds ∧ b = 58) := by
      rintro ⟨hends,rfl⟩
      exact hcolon [] w rfl hends
    have hnone : ¬(info.after b = .none ∧ server.after b = .none) := fun h =>
      (halive [b] w rfl).elim (fun hinfo => hinfo h.1) fun hserver => hserver h.2
    have hstep : step (.authority hier info server) b =
        (.authority hier (info.after b) (server.after b),[]) := by
      simp only [step, authorityStep, h64, h47, h63, h35, decide_false, Bool.and_false,
        Bool.false_eq_true, and_false, if_false, if_neg hends, if_neg hnone,
        Server.enter_quiet hquiet]
    rw [silent_cons hstep (by simp)]
    exact ih (info.after b) (server.quiet_after b) (fun c hc => hw c (List.mem_cons_of_mem _ hc))
      (fun x y hxy => hcolon (b :: x) y (by rw [hxy]; rfl))
      fun x y hxy => halive (b :: x) y (by rw [hxy]; rfl)

/-! ### The host -/

theorem ipLiteral_eq {w : Bytes} (h : w ∈ Grammar.ipLiteral.lang) :
    ∃ v, w = 91 :: v++[93] ∧ 93 ∉ v := by
  obtain ⟨u,hu,c,hc,rfl⟩ := Pattern.mem_lang_cat.mp h
  obtain ⟨a,ha,v,hv,rfl⟩ := Pattern.mem_lang_cat.mp hu
  obtain rfl := Pattern.mem_lang_char.mp ha
  obtain rfl := Pattern.mem_lang_char.mp hc
  exact ⟨v,rfl,Pattern.notMem_of_avoids (by decide) hv⟩

/-- Only an address in brackets has the byte. -/
theorem ipLiteral_of_mem {w : Bytes} (h : w ∈ Grammar.host.lang) {b : UInt8}
    (hb : (Grammar.ipv4Address ||| Grammar.regName).avoids b = true) (hw : b ∈ w) :
    w ∈ Grammar.ipLiteral.lang := by
  rcases Pattern.mem_lang_alt.mp h with h | h
  · rcases Pattern.mem_lang_alt.mp h with h | h
    · exact h
    · exact absurd hw (Pattern.notMem_of_avoids hb (Pattern.mem_lang_alt.mpr (.inl h)))
  · exact absurd hw (Pattern.notMem_of_avoids hb (Pattern.mem_lang_alt.mpr (.inr h)))

/-- A host does not end before a colon that belongs to it. -/
theorem host_colon {x y : Bytes} (h : x++58 :: y ∈ Grammar.host.lang) :
    x ∉ Grammar.host.lang := by
  intro hx
  obtain ⟨v,hv,hno⟩ := ipLiteral_eq (ipLiteral_of_mem h (b := 58) (by decide) (by simp))
  cases x with
  | nil => cases hv
  | cons c x =>
    obtain ⟨rfl,-⟩ := List.cons.inj hv
    obtain ⟨u,hu,-⟩ := ipLiteral_eq (ipLiteral_of_mem hx (b := 91) (by decide) (by simp))
    obtain ⟨-,rfl⟩ := List.cons.inj hu
    refine hno ?_
    have hmem : (93 : UInt8) ∈ (u++[93]++58 :: y).dropLast := by
      rw [List.dropLast_append_of_ne_nil (by simp)]
      simp
    have hlast : (u++[93]++58 :: y).dropLast = v := by
      have hv : u++[93]++58 :: y = v++[93] := (List.cons.inj hv).2
      rw [hv, List.dropLast_concat]
    rwa [hlast] at hmem

theorem host_facts {host : Bytes} (h : host ∈ Grammar.host.lang) :
    ∀ b ∈ host, b ∉ [35,47,63,64] := by
  intro b hb hmem
  have havoid : ∀ c ∈ [35,47,63,64], Grammar.host.avoids c = true := by decide +kernel
  exact Pattern.notMem_of_avoids (havoid b hmem) h hb

theorem parses_host (text : Bytes) (p : ℕ) (u : Uri) (hier : Bool) (info : Pattern)
    (mark : Option ℕ) {host : Bytes} (h : host ∈ Grammar.host.lang) (hne : host ≠ []) :
    ∃ info' rest, rest.nullable = true ∧ Parses text p ⟨.authority hier info .hostStart,mark⟩ u
      host ⟨.authority hier info' (.host rest),some p⟩ u := by
  obtain ⟨c,cs,rfl⟩ := List.exists_cons_of_ne_nil hne
  have hends := host_facts h
  have hc : c ∉ [35,47,58,63,64] := by
    have hc := hends c List.mem_cons_self
    have hcolon : c ≠ 58 := by
      rintro rfl
      exact Pattern.after_ne_none h (by decide)
    simp only [List.mem_cons, List.not_mem_nil, or_false, not_or] at hc ⊢
    exact ⟨hc.1,hc.2.1,hcolon,hc.2.2⟩
  have hstep := step_first hier info hc (.inr (Pattern.after_ne_none h))
  have hfirst : Parses text p ⟨.authority hier info .hostStart,mark⟩ u [c]
      ⟨.authority hier (info.after c) (.ofPattern (Grammar.host.after c)),some p⟩ u :=
    .of_byte hstep (by simp) rfl rfl
  have hfold : ∀ x : Bytes,
      x.foldl (fun s b => s.after b) (Server.ofPattern (Grammar.host.after c)) =
        Server.ofPattern (x.foldl (fun p b => p.after b) (Grammar.host.after c)) :=
    fun x => Server.foldl_ofPattern x _
  have hlast : (cs.foldl (fun p b => p.after b) (Grammar.host.after c)).nullable = true :=
    Pattern.mem_lang_iff.mp (Pattern.mem_after.mpr h)
  have hrest := authority_silent hier (info.after c) (w := cs)
    (Server.quiet_ofPattern (Grammar.host.after c))
    (fun b hb => hends b (List.mem_cons_of_mem _ hb)) (fun x y hxy hx => ?_) fun x y hxy => .inr ?_
  · rw [hfold, Server.ofPattern_of_nullable hlast] at hrest
    exact ⟨_,_,hlast,hfirst.cons (.of_silent _ _ _ _ hrest)⟩
  · rw [hfold, Server.hostEnds_ofPattern] at hx
    have hprefix : c :: x ∈ Grammar.host.lang :=
      Pattern.mem_after.mp (Pattern.mem_lang_iff.mpr hx)
    exact host_colon (x := c :: x) (y := y) (by rw [hxy] at h; exact h) hprefix
  · rw [hfold]
    have hne := Pattern.foldl_after_ne_none (w := x) (z := y)
      (Pattern.mem_after.mpr (by rw [← hxy]; exact h))
    rw [Server.ofPattern, if_neg hne]
    simp

/-! ### The userinfo -/

/-- The first colon is followed by a digit, as it is before a port. -/
def PortLike (userinfo : Bytes) : Prop :=
  ∃ d ∈ (userinfo.dropWhile (· ≠ 58)).tail.head?, isDigit d = true

instance : DecidablePred PortLike := fun _ =>
  inferInstanceAs (Decidable (∃ d ∈ _, isDigit d = true))

/-- The userinfo that the parser makes of it. -/
def kept (userinfo : Bytes) : Bytes :=
  if PortLike userinfo then (userinfo.dropWhile (· ≠ 58)).tail else userinfo

theorem userinfo_facts {w : Bytes} (h : w ∈ Grammar.userinfo.lang) :
    ∀ b ∈ w, b ∉ [35,47,63,64] := by
  intro b hb hmem
  have havoid : ∀ c ∈ [35,47,63,64], Grammar.userinfo.avoids c = true := by decide +kernel
  exact Pattern.notMem_of_avoids (havoid b hmem) h hb

/-- Behind a colon a server is not at the end of a host any more. -/
theorem not_hostEnds_of_port {s : Server} (h : s = .none ∨ s = .port) (w : Bytes) :
    ¬(w.foldl (fun s b => s.after b) s).HostEnds := by
  induction w generalizing s with
  | nil => rcases h with rfl | rfl <;> exact id
  | cons b w ih =>
    refine ih ?_
    rcases h with rfl | rfl
    · exact .inl rfl
    · simp only [Server.after]
      split
      · exact .inr rfl
      · exact .inl rfl

section userinfo
variable {text : Bytes} {p : ℕ} {u : Uri} {hier : Bool} {info : Pattern} {server : Server}

/-- The `@` ends a userinfo. -/
theorem parses_at {v post : Bytes} {mark : ℕ} (hinfo : info.nullable = true)
    (hserver : server ≠ .hostStart) (htext : text.drop mark = v++post) (hp : p = mark+v.length) :
    Parses text p ⟨.authority hier info server,some mark⟩ u [64]
      ⟨.authority hier .none .hostStart,none⟩ { u with userinfo := v } := by
  have hstep : step (.authority hier info server) 64 =
      (.authority hier .none .hostStart,[.saveUserinfo]) := by
    simp [step, authorityStep, hinfo, hserver]
  subst hp
  exact .of_byte hstep (by simp) rfl (set_slice htext .userinfo)

/-- Bytes before the first colon. -/
theorem parses_name {x z : Bytes} (hx : x ≠ []) (hw : x++z ∈ Grammar.userinfo.lang)
    (hcolon : 58 ∉ x) (mark : Option ℕ) :
    Parses text p ⟨.authority hier Grammar.userinfo .hostStart,mark⟩ u x
      ⟨.authority hier (x.foldl (fun p b => p.after b) Grammar.userinfo)
        (.ofPattern (x.foldl (fun p b => p.after b) Grammar.host)),some p⟩ u := by
  obtain ⟨c,cs,rfl⟩ := List.exists_cons_of_ne_nil hx
  have hends : ∀ b ∈ c :: cs, b ∉ [35,47,63,64] := fun b hb =>
    userinfo_facts hw b (List.mem_append_left _ hb)
  have hc : c ∉ [35,47,58,63,64] := by
    have hc := hends c List.mem_cons_self
    have hne : c ≠ 58 := fun h => hcolon (h ▸ List.mem_cons_self)
    simp only [List.mem_cons, List.not_mem_nil, or_false, not_or] at hc ⊢
    exact ⟨hc.1,hc.2.1,hne,hc.2.2⟩
  have hstep := step_first hier Grammar.userinfo hc (.inl (Pattern.after_ne_none hw))
  have hfirst : Parses text p ⟨.authority hier Grammar.userinfo .hostStart,mark⟩ u [c]
      ⟨.authority hier (Grammar.userinfo.after c) (.ofPattern (Grammar.host.after c)),some p⟩ u :=
    .of_byte hstep (by simp) rfl rfl
  refine hfirst.cons ?_
  rw [List.foldl_cons, List.foldl_cons, ← Server.foldl_ofPattern]
  refine .of_silent text (p+1) ⟨_,some p⟩ u (authority_silent hier _ (Server.quiet_ofPattern _)
    (fun b hb => hends b (List.mem_cons_of_mem _ hb)) (fun y z hyz => ?_) fun y z' hyz => .inl ?_)
  · refine absurd ?_ hcolon
    rw [hyz]
    simp
  · refine Pattern.foldl_after_ne_none (z := z'++z) (Pattern.mem_after.mpr ?_)
    rw [← List.append_assoc, ← hyz]
    exact hw

/-- Bytes before the first colon, and the colon: they might be a host. -/
theorem parses_colon {x y post : Bytes} (hw : x++58 :: y ∈ Grammar.userinfo.lang)
    (hcolon : 58 ∉ x) (htext : text.drop p = x++post) :
    Parses text p ⟨.authority hier Grammar.userinfo .hostStart,none⟩ u (x++[58])
      ⟨.authority hier ((x++[58]).foldl (fun p b => p.after b) Grammar.userinfo) .portStart,some p⟩
      { u with host := x } := by
  have hset := set_slice (u := u) htext .host
  by_cases hx : x = []
  · subst hx
    have hstep : step (.authority hier Grammar.userinfo .hostStart) 58 =
        (.authority hier (Grammar.userinfo.after 58) .portStart,[.markh,.saveHost]) := by
      cases hier <;> decide
    exact .of_byte hstep (by simp) rfl hset
  · have hname : x ∈ Grammar.regName.lang := by
      refine (Pattern.mem_star_of_split (by decide) (fun w hw => ?_) hw hcolon).1
      exact Pattern.mem_lang_char.mp hw
    have hhost : (x.foldl (fun p b => p.after b) Grammar.host).nullable = true :=
      Pattern.mem_lang_iff.mp (Pattern.mem_lang_alt.mpr (.inr hname))
    have hstep : step (.authority hier (x.foldl (fun p b => p.after b) Grammar.userinfo)
        (.ofPattern (x.foldl (fun p b => p.after b) Grammar.host))) 58 =
        (.authority hier ((x++[58]).foldl (fun p b => p.after b) Grammar.userinfo) .portStart,
          [.saveHost]) := by
      rw [Server.ofPattern_of_nullable hhost, List.foldl_append]
      simp [step, authorityStep, Server.HostEnds, hhost, Server.leave]
    exact (parses_name hx hw hcolon none).trans (.of_byte hstep (by simp) rfl hset)

variable (text p u hier) in
/-- Bytes behind the first colon: a digit there moves the mark. -/
theorem parses_behind {y : Bytes} (hy : y ∈ info.lang) (hends : ∀ b ∈ y, b ∉ [35,47,63,64])
    (mark : ℕ) : ∃ info' server', info'.nullable = true ∧ server' ≠ .hostStart ∧
      Parses text p ⟨.authority hier info .portStart,some mark⟩ u y
        ⟨.authority hier info' server',
          some (if ∃ d ∈ y.head?, isDigit d = true then p else mark)⟩ u := by
  cases y with
  | nil =>
    refine ⟨info,.portStart,(Pattern.nullable_iff info).mpr hy,by simp,?_⟩
    exact .of_silent text p ⟨.authority hier info .portStart,some mark⟩ u rfl
  | cons d ys =>
    have hd := hends d List.mem_cons_self
    simp only [List.mem_cons, List.not_mem_nil, or_false, not_or] at hd
    obtain ⟨h35,h47,h63,h64⟩ := hd
    have hstep : step (.authority hier info .portStart) d = (.authority hier (info.after d)
        (Server.after d .portStart),Server.enter d .portStart) := by
      have halive : ¬(info.after d = .none ∧ Server.after d .portStart = .none) := fun h =>
        Pattern.after_ne_none hy h.1
      simp only [step, authorityStep, Server.HostEnds, h64, h47, h63, h35, decide_false,
        Bool.and_false, Bool.false_eq_true, and_false, false_and, if_false, if_neg halive]
    have hafter : Server.after d .portStart = .none ∨ Server.after d .portStart = .port := by
      simp only [Server.after]
      split
      · exact .inr rfl
      · exact .inl rfl
    have hfirst : Parses text p ⟨.authority hier info .portStart,some mark⟩ u [d]
        ⟨.authority hier (info.after d) (Server.after d .portStart),
          some (if isDigit d = true then p else mark)⟩ u := by
      have hactions : Parser.runActions p ⟨.authority hier (info.after d)
          (Server.after d .portStart),some mark⟩ (Server.enter d .portStart) =
          (⟨.authority hier (info.after d) (Server.after d .portStart),
            some (if isDigit d = true then p else mark)⟩,[]) := by
        simp only [Server.enter]
        split <;> rfl
      exact .of_byte hstep (by simp) hactions rfl
    have hrest := authority_silent hier (info.after d) (w := ys)
      (Server.quiet_after .portStart d) (fun b hb => hends b (List.mem_cons_of_mem _ hb))
      (fun x _ _ => not_hostEnds_of_port hafter x)
      fun x y hxy => .inl (Pattern.foldl_after_ne_none (z := y)
        (by rw [← hxy]; exact Pattern.mem_after.mpr hy))
    refine ⟨ys.foldl (fun p b => p.after b) (info.after d),
      ys.foldl (fun s b => s.after b) (Server.after d .portStart),
      Pattern.mem_lang_iff.mp (Pattern.mem_after.mpr hy),fun hstart => ?_,?_⟩
    · exact not_hostEnds_of_port hafter ys (hstart ▸ trivial)
    · have hhead : (∃ c ∈ (d :: ys).head?, isDigit c = true) ↔ isDigit d = true := by simp
      rw [if_congr hhead rfl rfl]
      exact hfirst.cons (.of_silent _ _ _ _ hrest)

/-- A userinfo, and its `@`. The host is set too when there is a colon. -/
theorem parses_userinfo {w post : Bytes} (hw : w ∈ Grammar.userinfo.lang) (hne : w ≠ [])
    (htext : text.drop p = w++post) :
    ∃ host, Parses text p ⟨.authority hier Grammar.userinfo .hostStart,none⟩ u (w++[64])
      ⟨.authority hier .none .hostStart,none⟩ { u with userinfo := kept w, host } := by
  have hends := userinfo_facts hw
  obtain ⟨x,z,hx,hz,rfl⟩ : ∃ x z, x = w.takeWhile (· ≠ 58) ∧ z = w.dropWhile (· ≠ 58) ∧
      w = x++z := ⟨_,_,rfl,rfl,List.takeWhile_append_dropWhile.symm⟩
  have hcolon : 58 ∉ x := by
    intro hmem
    rw [hx] at hmem
    simpa using List.mem_takeWhile_imp hmem
  have hkept : kept (x++z) =
      if ∃ d ∈ z.tail.head?, isDigit d = true then z.tail else x++z := by
    simp only [kept, PortLike, ← hz]
  cases z with
  | nil =>
    rw [List.append_nil] at hw hne htext hkept ⊢
    have hnullable : (x.foldl (fun p b => p.after b) Grammar.userinfo).nullable = true :=
      Pattern.mem_lang_iff.mp hw
    have hname : Parses text p ⟨.authority hier Grammar.userinfo .hostStart,none⟩ u x
        ⟨.authority hier (x.foldl (fun p b => p.after b) Grammar.userinfo)
          (.ofPattern (x.foldl (fun p b => p.after b) Grammar.host)),some p⟩ u :=
      parses_name (z := []) hne (by rwa [List.append_nil]) hcolon none
    refine ⟨u.host,?_⟩
    rw [hkept, if_neg (by simp)]
    exact hname.trans (parses_at hnullable (by unfold Server.ofPattern; split <;> simp) htext rfl)
  | cons c y =>
    obtain rfl : c = 58 := by
      have hhead := List.head?_dropWhile_not (· ≠ 58) (x++c :: y)
      rw [← hz] at hhead
      simpa using hhead
    have hy : y ∈ ((x++[58]).foldl (fun (p : Pattern) b => p.after b) Grammar.userinfo).lang := by
      rw [Pattern.mem_foldl_after, List.append_assoc]
      exact hw
    have hdrop : text.drop p = x++(58 :: y++post) := by rw [htext, List.append_assoc]
    have htail : text.drop (p+(x++[58]).length) = y++post :=
      drop_add (by rw [htext]; simp)
    have hpart : Parses text p ⟨.authority hier Grammar.userinfo .hostStart,none⟩ u (x++[58])
        ⟨.authority hier ((x++[58]).foldl (fun p b => p.after b) Grammar.userinfo) .portStart,
          some p⟩ { u with host := x } := parses_colon hw hcolon hdrop
    obtain ⟨info',server',hnull,hserver,hbehind⟩ := parses_behind text (p+(x++[58]).length)
      { u with host := x } hier hy (fun b hb => hends b (by simp [hb])) p
    have hsplit : x++58 :: y++[64] = x++[58]++(y++[64]) := by simp
    refine ⟨x,?_⟩
    rw [hkept, List.tail_cons, hsplit]
    refine hpart.trans (hbehind.trans ?_)
    by_cases hdigit : ∃ d ∈ y.head?, isDigit d = true
    · rw [if_pos hdigit, if_pos hdigit]
      exact parses_at hnull hserver htail rfl
    · rw [if_neg hdigit, if_neg hdigit]
      refine parses_at hnull hserver htext ?_
      simp only [List.length_append, List.length_cons, List.length_nil]
      omega

end userinfo

/-! ### The port -/

theorem isDigit_facts (b : UInt8) : isDigit b = true → isSpace b = false ∧ b ≠ 43 ∧ b ≠ 45 := by
  revert b
  exact forall_byte (by decide +kernel)

theorem digits_of_decimal {v : Bytes} {n : ℕ} (h : Http.Decimal v n) :
    ∀ b ∈ v, isDigit b = true := by
  intro b hb
  obtain ⟨hlow,hhigh⟩ := h.2.1 b hb
  simp [isDigit, inRanges, hlow, hhigh]

/-- A numeral is read up to the next byte that is no digit. -/
theorem strtol_digits {v post : Bytes} (hne : v ≠ []) (hdigits : ∀ b ∈ v, isDigit b = true)
    (hpost : ∀ b ∈ post.head?, isDigit b = false) :
    strtol (v++post) = max (-2^63) (min (Http.decimalValue v : ℤ) (2^63-1)) := by
  have htake : (v++post).takeWhile isDigit = v := by
    rw [List.takeWhile_append_of_pos hdigits]
    cases post with
    | nil => simp
    | cons b post => rw [List.takeWhile_cons_of_neg (by simp [hpost b rfl]), List.append_nil]
  obtain ⟨c,cs,rfl⟩ := List.exists_cons_of_ne_nil hne
  obtain ⟨hspace,hplus,hminus⟩ := isDigit_facts c (hdigits c List.mem_cons_self)
  have hdrop : (c :: cs++post).dropWhile isSpace = c :: cs++post := by
    rw [List.cons_append, List.dropWhile_cons_of_neg (by simp [hspace])]
  unfold strtol
  rw [hdrop]
  simp only [List.cons_append] at htake ⊢
  split
  · next heq => exact absurd (List.cons.inj heq).1 hminus
  · next heq => exact absurd (List.cons.inj heq).1 hplus
  · rw [htake]

theorem strtol_decimal {v post : Bytes} {n : ℕ} (h : Http.Decimal v n) (hn : n ≤ 65535)
    (hpost : ∀ b ∈ post.head?, isDigit b = false) : strtol (v++post) = n := by
  rw [strtol_digits h.1 (digits_of_decimal h) hpost, h.2.2]
  omega

/-- The port as it is printed. -/
def portText (u : Uri) : Bytes := if u.isDefaultPort then [] else bytes ":"++decimal u.port

/-- The port that is read again; a default port is not printed. -/
def printedPort (u : Uri) : Int32 := if u.isDefaultPort then 0 else u.port

theorem decimal_port {v : Int32} (h : 0 ≤ v.toInt) :
    Http.Decimal (decimal v) v.toInt.natAbs := by
  have hsign : decimal v = Http.decimal v.toInt.natAbs := by
    rw [decimal, if_neg (Int.not_lt.mpr h), List.nil_append]
  rw [hsign]
  exact Http.decimal_decimal _

theorem atoi_decimal {v : Int32} (h : 0 ≤ v.toInt) (h' : v.toInt ≤ 65535) (post : Bytes) :
    atoi (decimal v++47 :: post) = v := by
  rw [atoi, strtol_decimal (decimal_port h) (by omega) (by simp; decide), Int.natAbs_of_nonneg h,
    Int32.ofInt_toInt]

theorem foldl_port {w : Bytes} (h : ∀ b ∈ w, isDigit b = true) :
    w.foldl (fun s b => s.after b) Server.port = .port := by
  induction w with
  | nil => rfl
  | cons b w ih =>
    have hb : Server.after b .port = .port := if_pos (h b List.mem_cons_self)
    rw [List.foldl_cons, hb]
    exact ih fun c hc => h c (List.mem_cons_of_mem _ hc)

theorem digit_ends (b : UInt8) : isDigit b = true → b ∉ [35,47,63,64] := by
  revert b
  exact forall_byte (by decide +kernel)

section server
variable {text : Bytes} {p : ℕ} {u : Uri} {info : Pattern}

/-- The digits of a port. -/
theorem parses_digits (text : Bytes) (p : ℕ) (u : Uri) (hier : Bool) (info : Pattern)
    (mark : Option ℕ) {digits : Bytes} (hne : digits ≠ [])
    (hdigits : ∀ b ∈ digits, isDigit b = true) :
    ∃ info', Parses text p ⟨.authority hier info .portStart,mark⟩ u digits
      ⟨.authority hier info' .port,some p⟩ u := by
  obtain ⟨d,ds,rfl⟩ := List.exists_cons_of_ne_nil hne
  have hd := hdigits d List.mem_cons_self
  have hrest : ∀ b ∈ ds, isDigit b = true := fun b hb => hdigits b (List.mem_cons_of_mem _ hb)
  have hfirst : Parses text p ⟨.authority hier info .portStart,mark⟩ u [d]
      ⟨.authority hier (info.after d) .port,some p⟩ u := by
    have hstep : step (.authority hier info .portStart) d =
        (.authority hier (info.after d) .port,[.markh]) := by
      have hends := digit_ends d hd
      simp only [List.mem_cons, List.not_mem_nil, or_false, not_or] at hends
      simp [step, authorityStep, Server.HostEnds, Server.after, Server.enter, hends, hd]
    exact .of_byte hstep (by simp) rfl rfl
  have hquiet : Server.port.Quiet := trivial
  have hsilent := authority_silent hier (info.after d) (w := ds) hquiet
    (fun b hb => digit_ends b (hrest b hb)) (fun x _ _ => not_hostEnds_of_port (.inr rfl) x)
    fun x y hxy => .inr (by
      rw [foldl_port fun b hb => hrest b (hxy ▸ List.mem_append_left _ hb)]
      simp)
  rw [foldl_port hrest] at hsilent
  exact ⟨_,hfirst.cons (.of_silent _ _ _ _ hsilent)⟩

/-- The digits of a port, up to the slash of the path. -/
theorem parses_port {v : Int32} (hv : 0 ≤ v.toInt) (hv' : v.toInt ≤ 65535) {post : Bytes}
    (mark : Option ℕ) (htext : text.drop p = decimal v++47 :: post) :
    Parses text p ⟨.authority true info .portStart,mark⟩ u (decimal v++[47])
      ⟨.path (Grammar.pathAbempty.after 47),some (p+(decimal v).length)⟩ { u with port := v } := by
  have hdecimal := decimal_port hv
  have hset := set_slice (u := u) htext .port
  rw [put, atoi_decimal hv hv'] at hset
  obtain ⟨info',hdigits⟩ :=
    parses_digits text p u true info mark hdecimal.1 (digits_of_decimal hdecimal)
  have hslash : step (.authority true info' .port) 47 =
      (.path (Grammar.pathAbempty.after 47),[.savePort,.markh]) := by
    simp [step, authorityStep, Server.HostEnds, Server.Final, Server.leavePath, Server.leave]
  refine hdigits.trans (.of_byte hslash (by simp) ?_ hset)
  simp [Parser.runActions, Parser.runAction, hdecimal.1]

/-- The host and the port, up to the slash of the path. -/
theorem parses_server {host post : Bytes} (h : host ∈ Grammar.host.lang) (hne : host ≠ [])
    {x : Uri} (hport : 0 ≤ x.port.toInt ∧ x.port.toInt ≤ 65535) (hu : u.port = 0)
    (htext : text.drop p = host++portText x++47 :: post) :
    Parses text p ⟨.authority true info .hostStart,none⟩ u (host++portText x++[47])
      ⟨.path (Grammar.pathAbempty.after 47),some (p+host.length+(portText x).length)⟩
      { u with host, port := printedPort x } := by
  obtain ⟨info',rest,hnull,hhost⟩ := parses_host text p u true info none h hne
  by_cases hdefault : x.isDefaultPort = true
  · rw [portText, if_pos hdefault, List.append_nil] at htext ⊢
    rw [printedPort, if_pos hdefault, ← hu]
    have hstep : step (.authority true info' (.host rest)) 47 =
        (.path (Grammar.pathAbempty.after 47),[.saveHost,.markh]) := by
      simp [step, authorityStep, Server.HostEnds, Server.Final, hnull, Server.leavePath,
        Server.leave]
    exact hhost.trans (.of_byte hstep (by simp) rfl (set_slice htext .host))
  · rw [portText, if_neg hdefault] at htext ⊢
    rw [printedPort, if_neg hdefault]
    have hcolon : step (.authority true info' (.host rest)) 58 =
        (.authority true (info'.after 58) .portStart,[.saveHost]) := by
      simp [step, authorityStep, Server.HostEnds, hnull, Server.leave]
    have hhost' : text.drop p = host++(58 :: decimal x.port++47 :: post) := by
      rw [htext, List.append_assoc]
      rfl
    have hrest : text.drop (p+host.length+1) = decimal x.port++47 :: post := by
      rw [← List.drop_drop, drop_add hhost']
      rfl
    have hcolonByte : bytes ":" = [58] := rfl
    have hsplit : host++(bytes ":"++decimal x.port)++[47] =
        host++58 :: (decimal x.port++[47]) := by simp [hcolonByte]
    have hlength : p+host.length+(bytes ":"++decimal x.port).length =
        p+host.length+1+(decimal x.port).length := by
      rw [hcolonByte, List.length_append, List.length_singleton]
      omega
    rw [hsplit, hlength]
    exact hhost.trans (.cons (.of_byte hcolon (by simp) rfl (set_slice hhost' .host))
      (parses_port hport.1 hport.2 (some p) hrest))

end server

end CoroutineWebserve.Uri
