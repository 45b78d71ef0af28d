import CoroutineWebserve.Http.Split
import CoroutineWebserve.Ragel.Widening

/-!
# What a parser does with its uninitialised fields

Two parsers are fed the same pieces. `query_start` is never read before it is set; with
`uri_relaxed` the machine reads a brace or a caret wherever the target may have a `!`.
-/
namespace CoroutineWebserve.Http
open Ragel Pattern

/-! ### The grammar -/

/-- `more_delims` are sub-delimiters, and `!` is one too. -/
def plain (b : UInt8) : UInt8 := if b = 94 ∨ b = 123 ∨ b = 125 then 33 else b

namespace Grammar

/-- The parts without a sub-delimiter. -/
def keptParts : List Pattern :=
  [byte [(128,255)],unreserved,pctEncoded,oneOf ":@",oneOf "/?",char '@',char ':',char '/',
    char '[',char ']',char 'v' ++ xdigit.plus ++ char '.',ipv4Address,ipv6Address,
    (char ':' ++ port).opt,literal "//",pathEmpty false]

theorem keptParts_avoid :
    keptParts.all (fun p => ([33,94,123,125] : Bytes).all fun b => p.avoids b) = true := by
  decide

theorem widens_kept {p : Pattern} (h : p ∈ keptParts) : Widens plain p p := by
  have hp := List.all_eq_true.mp keptParts_avoid p h
  simp only [List.all_cons, Bool.and_eq_true] at hp
  refine .refl fun b => ?_
  unfold plain
  split_ifs with hb
  · refine .inr ⟨?_,hp.1⟩
    rcases hb with rfl | rfl | rfl
    · exact hp.2.1
    · exact hp.2.2.1
    · exact hp.2.2.2.1
  · exact .inl rfl

theorem widens_subDelims : Widens plain (subDelims false) (subDelims true) :=
  .byte_alt (forall_byte (by decide +kernel)) (forall_byte (by decide +kernel))

theorem widens_pchar : Widens plain (pchar false) (pchar true) :=
  ((((widens_kept (by simp [keptParts])).alt (widens_kept (by simp [keptParts]))).alt
    (widens_kept (by simp [keptParts]))).alt widens_subDelims).alt
      (widens_kept (by simp [keptParts]))

theorem widens_query : Widens plain (query false) (query true) :=
  (widens_pchar.alt (widens_kept (by simp [keptParts]))).star

theorem widens_fragment : Widens plain (fragment false) (fragment true) := widens_query

/-- The bytes that may stand beside others in a name. -/
theorem widens_nameByte : Widens plain (unreserved ||| pctEncoded ||| subDelims false)
    (unreserved ||| pctEncoded ||| subDelims true) :=
  ((widens_kept (by simp [keptParts])).alt (widens_kept (by simp [keptParts]))).alt
    widens_subDelims

theorem widens_segmentNzNc : Widens plain (segmentNzNc false) (segmentNzNc true) :=
  (widens_nameByte.alt (widens_kept (by simp [keptParts]))).plus

/-- `( "/" segment )*`. -/
theorem widens_pathAbempty : Widens plain (pathAbempty false) (pathAbempty true) :=
  ((widens_kept (by simp [keptParts])).cat widens_pchar.star).star

theorem widens_pathAbsolute : Widens plain (pathAbsolute false) (pathAbsolute true) :=
  (widens_kept (by simp [keptParts])).cat (widens_pchar.plus.cat widens_pathAbempty).opt

theorem widens_ipvFuture : Widens plain (ipvFuture false) (ipvFuture true) :=
  (widens_kept (by simp [keptParts])).cat (((widens_kept (by simp [keptParts])).alt
    widens_subDelims).alt (widens_kept (by simp [keptParts]))).plus

theorem widens_host : Widens plain (host false) (host true) :=
  have ipLiteral := ((widens_kept (p := char '[') (by simp [keptParts])).cat
    ((widens_kept (by simp [keptParts])).alt widens_ipvFuture)).cat
      (widens_kept (p := char ']') (by simp [keptParts]))
  (ipLiteral.alt (widens_kept (by simp [keptParts]))).alt widens_nameByte.star

theorem widens_authority : Widens plain (authority false) (authority true) :=
  have userinfo := (widens_nameByte.alt (widens_kept (p := char ':') (by simp [keptParts]))).star
  ((userinfo.cat (widens_kept (by simp [keptParts]))).opt.cat widens_host).cat
    (widens_kept (by simp [keptParts]))

/-- The alternatives of both parts but for the path without a slash at its start. -/
theorem widens_path {p q : Pattern} (h : Widens plain p q) :
    Widens plain
      (literal "//" ++ authority false ++ pathAbempty false ||| pathAbsolute false ||| p
        ||| pathEmpty false)
      (literal "//" ++ authority true ++ pathAbempty true ||| pathAbsolute true ||| q
        ||| pathEmpty true) :=
  (((((widens_kept (by simp [keptParts])).cat widens_authority).cat widens_pathAbempty).alt
    widens_pathAbsolute).alt h).alt (widens_kept (p := pathEmpty false) (by simp [keptParts]))

theorem widens_relativePart : Widens plain (relativePart false) (relativePart true) :=
  widens_path (widens_segmentNzNc.cat widens_pathAbempty)

theorem widens_hierPart : Widens plain (hierPart false) (hierPart true) :=
  widens_path (widens_pchar.plus.cat widens_pathAbempty)

theorem trim_parts (relaxed : Bool) : (relativePart relaxed).trim = true ∧
    (hierPart relaxed).trim = true ∧ (query relaxed).trim = true ∧
      (fragment relaxed).trim = true := by
  cases relaxed <;> decide

end Grammar
/-! ### The states -/

/-- What is left of a target in the two machines. -/
structure Twins (p q : Pattern) : Prop where
  widens : Widens plain p q
  narrow : p.trim = true
  wide : q.trim = true

/-- The states of the two machines behind the same bytes. -/
inductive Twin : State → State → Prop
  | targetStart {p q} (scheme) (h : Twins p q) : Twin (.targetStart p scheme) (.targetStart q scheme)
  | target {p q} (scheme) (h : Twins p q) : Twin (.target p scheme) (.target q scheme)
  | query {p q} (h : Twins p q) : Twin (.query p) (.query q)
  | fragment {p q} (h : Twins p q) : Twin (.fragment p) (.fragment q)
  | jsonStart {p q} (h : Twins p q) : Twin (.jsonStart p) (.jsonStart q)
  | same (s) (h : match s with
      | .targetStart .. | .target .. | .query _ | .fragment _ | .jsonStart _ => False
      | _ => True) : Twin s s

/-- Inside the target, or before it. -/
def State.InTarget : State → Prop
  | .targetStart .. | .target .. | .queryStart | .query _ | .fragmentStart | .fragment _
  | .jsonStart _ => True
  | _ => False

/-- At a brace or a caret, where the target might go on with a sub-delimiter. -/
def RelaxedOnly (s : State) (b : UInt8) : Prop :=
  plain b ≠ b ∧ s.InTarget ∧ (step false s 33).1 ≠ .error

theorem twins_relativePart : Twins (Grammar.relativePart false) (Grammar.relativePart true) :=
  ⟨Grammar.widens_relativePart,(Grammar.trim_parts false).1,(Grammar.trim_parts true).1⟩

theorem twins_hierPart : Twins (Grammar.hierPart false) (Grammar.hierPart true) :=
  ⟨Grammar.widens_hierPart,(Grammar.trim_parts false).2.1,(Grammar.trim_parts true).2.1⟩

theorem twins_query : Twins (Grammar.query false) (Grammar.query true) :=
  ⟨Grammar.widens_query,(Grammar.trim_parts false).2.2.1,(Grammar.trim_parts true).2.2.1⟩

theorem twins_fragment : Twins (Grammar.fragment false) (Grammar.fragment true) :=
  ⟨Grammar.widens_fragment,(Grammar.trim_parts false).2.2.2,(Grammar.trim_parts true).2.2.2⟩

/-- One run stops where the other goes on, or both do the same. -/
structure Parted (stops : Prop) (x y : State × List Action) : Prop where
  stop : stops → x.1 = .error ∧ y.1 ≠ .error
  go : ¬stops → Twin x.1 y.1 ∧ x.2 = y.2

theorem Parted.of_twin {stops : Prop} (hstops : ¬stops) {s t : State} (h : Twin s t)
    (actions : List Action) : Parted stops (s,actions) (t,actions) where
  stop h := absurd h hstops
  go _ := ⟨h,rfl⟩

theorem within_ne_error (rest : Pattern) (state : Pattern → State) (actions : List Action)
    (hne : ∀ p, state p ≠ .error) :
    (within rest state actions).1 ≠ .error ↔ rest ≠ .none := by
  unfold within
  split
  · next h => simp [h]
  · next h => simp [h, hne]

/-- Inside a pattern the machines part at the byte that stands for one which is read. -/
theorem Twins.within {p q : Pattern} (h : Twins p q) (s : State) (b : UInt8)
    {state : Pattern → State} (actions : List Action) (hin : s.InTarget)
    (hstep : (step false s 33).1 ≠ .error ↔ p.after 33 ≠ .none) (hne : ∀ p, state p ≠ .error)
    (hstate : ∀ {p q}, Twins p q → Twin (state p) (state q)) :
    Parted (RelaxedOnly s b) (within (p.after b) state actions)
      (within (q.after b) state actions) := by
  have hiff := h.widens.after_ne_none_iff (b := b) h.narrow h.wide
  have hstops : RelaxedOnly s b ↔ plain b ≠ b ∧ p.after 33 ≠ .none := by
    rw [RelaxedOnly, hstep, and_iff_right hin]
  by_cases hb : plain b = b
  · rw [hb] at hiff
    refine ⟨fun hs => absurd hb hs.1,fun _ => ?_⟩
    unfold Http.within
    by_cases hnone : p.after b = .none
    · rw [if_pos hnone, if_pos (not_ne_iff.mp (mt hiff.mp (not_not_intro hnone)))]
      exact ⟨.same _ trivial,rfl⟩
    · rw [if_neg hnone, if_neg (hiff.mpr hnone)]
      exact ⟨hstate ⟨h.widens.after hb,trim_after h.narrow,trim_after h.wide⟩,rfl⟩
  · have hplain : plain b = 33 := by
      unfold plain at hb ⊢
      exact if_pos (by_contra fun h => hb (if_neg h))
    rw [hplain] at hiff
    have hp : Http.within (p.after b) state actions = (.error,[]) :=
      if_pos (h.widens.after_eq_none h.narrow hb)
    rw [hp]
    constructor
    · intro hs
      exact ⟨rfl,(within_ne_error _ _ _ hne).mpr (hiff.mpr (hstops.mp hs).2)⟩
    · intro hs
      have hnone : p.after 33 = .none := by_contra fun h => hs (hstops.mpr ⟨hb,h⟩)
      rw [Http.within, if_pos (not_ne_iff.mp (mt hiff.mp (not_not_intro hnone)))]
      exact ⟨.same _ trivial,rfl⟩

/-- Both machines take a byte. -/
theorem Twin.step {s t : State} (h : Twin s t) (b : UInt8) :
    Parted (RelaxedOnly s b) (step false s b) (step true t b) := by
  -- the bytes that end a part are kept
  have kept : ∀ {c : UInt8}, b = c → plain c = c → ¬RelaxedOnly s b :=
    fun hb hc hs => hs.1 (hb ▸ hc)
  have keptIf : ∀ {x : Bool} {c : UInt8}, (x && decide (b = c)) = true → plain c = c →
      ¬RelaxedOnly s b :=
    fun hb => kept (of_decide_eq_true (Bool.and_eq_true_iff.mp hb).2)
  cases h with
  | targetStart scheme h =>
    simp only [Http.step]
    split_ifs with hspace hhash hmark
    · exact .of_twin (kept hspace rfl) (.same _ trivial) _
    · exact .of_twin (kept hhash rfl) (.same _ trivial) _
    · exact .of_twin (kept hmark rfl) (.same _ trivial) _
    · refine h.within _ b _ trivial ?_ (by simp) (.target _)
      exact within_ne_error _ (.target · (scheme && isAlpha 33)) [.mark] (by simp)
  | target scheme h =>
    simp only [Http.step, h.widens.nullable_eq]
    split_ifs with hspace hhash hmark hcolon
    · exact .of_twin (keptIf hspace rfl) (.same _ trivial) _
    · exact .of_twin (keptIf hhash rfl) (.same _ trivial) _
    · exact .of_twin (keptIf hmark rfl) (.same _ trivial) _
    · exact .of_twin (keptIf hcolon rfl) (.targetStart _ twins_hierPart) _
    · refine h.within _ b _ trivial ?_ (by simp) (.target _)
      simpa [Http.step] using within_ne_error _ (.target · (scheme && isSchemeByte 33)) []
        (by simp)
  | query h =>
    simp only [Http.step, h.widens.nullable_eq]
    split_ifs with hspace hhash
    · exact .of_twin (keptIf hspace rfl) (.same _ trivial) _
    · exact .of_twin (keptIf hhash rfl) (.same _ trivial) _
    · refine h.within _ b _ trivial ?_ (by simp) .query
      simpa [Http.step] using within_ne_error _ .query [] (by simp)
  | fragment h =>
    simp only [Http.step, h.widens.nullable_eq]
    split_ifs with hspace
    · exact .of_twin (keptIf hspace rfl) (.same _ trivial) _
    · refine h.within _ b _ trivial ?_ (by simp) .fragment
      simpa [Http.step] using within_ne_error _ .fragment [] (by simp)
  | jsonStart h =>
    simp only [Http.step, h.widens.nullable_eq]
    split_ifs with hspace
    · exact .of_twin (keptIf hspace rfl) (.same _ trivial) _
    · refine h.within _ b _ trivial ?_ (by simp) .jsonStart
      simpa [Http.step] using within_ne_error _ .jsonStart [] (by simp)
  | same s h =>
    cases s with
    | queryStart =>
      simp only [Http.step]
      split_ifs with hspace hhash
      · exact .of_twin (kept hspace rfl) (.same _ trivial) _
      · exact .of_twin (kept hhash rfl) (.same _ trivial) _
      · refine twins_query.within _ b _ trivial ?_ (by simp) .query
        simpa [Http.step] using within_ne_error _ .query [.startQuery] (by simp)
    | fragmentStart =>
      simp only [Http.step]
      split_ifs with hspace
      · exact .of_twin (kept hspace rfl) (.same _ trivial) _
      · refine twins_fragment.within _ b _ trivial ?_ (by simp) .fragment
        simpa [Http.step] using within_ne_error _ .fragment [.mark] (by simp)
    | targetStart | target | query | fragment | jsonStart => exact h.elim
    | error | socketDone => exact .of_twin (fun hs => hs.2.1) (.same _ trivial) _
    | _ =>
      simp only [Http.step]
      split_ifs
      all_goals
        refine .of_twin (fun hs => hs.2.1) ?_ _
        first
          | exact .same _ trivial
          | exact .targetStart _ twins_relativePart
          | exact .jsonStart twins_relativePart

theorem Twin.known {s t : State} (h : Twin s t) : Known.of s = Known.of t := by
  cases h <;> rfl

theorem Twin.final_iff {s t : State} (h : Twin s t) : s.Final ↔ t.Final := by
  cases h <;> rfl

theorem Twin.error_iff {s t : State} (h : Twin s t) : s = .error ↔ t = .error := by
  cases h
  case same => rfl
  all_goals exact iff_of_false nofun nofun

/-! ### The parsers -/

/-- The states `R` go together while the machine comes to no byte `E`; at such a byte one of
them stops. -/
structure Simulates (relaxed relaxed' : Bool) (R : State → State → Prop)
    (E : State → UInt8 → Prop) : Prop where
  start : R .start .start
  known : ∀ {s t}, R s t → Known.of s = Known.of t
  final_iff : ∀ {s t}, R s t → (s.Final ↔ t.Final)
  error_iff : ∀ {s t}, R s t → (s = .error ↔ t = .error)
  stop : ∀ {s t b}, R s t → E s b →
    (step relaxed s b).1 = .error ∧ (step relaxed' t b).1 ≠ .error
  go : ∀ {s t b}, R s t → ¬E s b →
    R (step relaxed s b).1 (step relaxed' t b).1 ∧ (step relaxed s b).2 = (step relaxed' t b).2

theorem simulates_eq (relaxed : Bool) :
    Simulates relaxed relaxed Eq fun _ _ => False where
  start := rfl
  known h := h ▸ rfl
  final_iff h := h ▸ Iff.rfl
  error_iff h := h ▸ Iff.rfl
  stop _ h := h.elim
  go h _ := h ▸ ⟨rfl,rfl⟩

theorem simulates_twin : Simulates false true Twin RelaxedOnly where
  start := .same _ trivial
  known := Twin.known
  final_iff := Twin.final_iff
  error_iff := Twin.error_iff
  stop h := (h.step _).stop
  go h := (h.step _).go

/-- The two parsers differ in nothing that is read; `k` are the offsets that will be. -/
structure Alike (R : State → State → Prop) (k : Known) (P Q : HttpParser) : Prop where
  cs : R P.cs Q.cs
  bodyStart : P.bodyStart = Q.bodyStart
  contentLen : P.contentLen = Q.contentLen
  mark : P.mark = Q.mark
  fieldStart : P.fieldStart = Q.fieldStart
  fieldLen : P.fieldLen = Q.fieldLen
  queryStart : k.query → P.queryStart = Q.queryStart
  xmlSent : P.xmlSent = Q.xmlSent
  jsonSent : P.jsonSent = Q.jsonSent

namespace Alike
variable {R : State → State → Prop} {k : Known} {P Q : HttpParser}

theorem mono (h : Alike R k P Q) {k' : Known} (hk : k'.query → k.query) : Alike R k' P Q :=
  { h with queryStart := fun hq => h.queryStart (hk hq) }

theorem setCs (h : Alike R k P Q) {s t : State} (hst : R s t) :
    Alike R k { P with cs := s } { Q with cs := t } := { h with cs := hst }

theorem reset (h : Alike R k P Q) : Alike R k P.reset Q.reset :=
  { h with mark := rfl, fieldStart := rfl, fieldLen := rfl }

theorem runAction (h : Alike R k P Q) (p : ℕ) {a : Action} (hr : k.Ready a) :
    Alike R (k.after a) (P.runAction p a).1 (Q.runAction p a).1 ∧
      (P.runAction p a).2 = (Q.runAction p a).2 := by
  cases a with
  | mark | startValue => exact ⟨{ h with mark := rfl },rfl⟩
  | startField => exact ⟨{ h with fieldStart := rfl },rfl⟩
  | writeField =>
    exact ⟨{ h with fieldLen := by simp only [HttpParser.runAction, h.fieldStart] },rfl⟩
  | startQuery => exact ⟨{ h with queryStart := fun _ => rfl },rfl⟩
  | xml => exact ⟨{ h with xmlSent := rfl },rfl⟩
  | json => exact ⟨{ h with jsonSent := rfl },rfl⟩
  | writeValue =>
    exact ⟨h,by simp only [HttpParser.runAction, h.fieldStart, h.fieldLen, h.mark]⟩
  | queryString => exact ⟨h,by simp only [HttpParser.runAction, h.queryStart hr]⟩
  | requestMethod | requestUri | fragment | httpVersion | requestPath =>
    exact ⟨h,by simp only [HttpParser.runAction, h.mark]⟩
  | done =>
    simp only [HttpParser.runAction, h.xmlSent, h.jsonSent]
    split
    · exact ⟨{ h with
        bodyStart := h.mark
        contentLen := by simp only [h.mark]
        xmlSent := rfl
        jsonSent := rfl },rfl⟩
    · exact ⟨{ h with bodyStart := rfl, xmlSent := rfl, jsonSent := rfl },rfl⟩

theorem runActions (p : ℕ) {next : State} {actions : List Action} (h : Alike R k P Q)
    (hs : k.Serves next actions) :
    Alike R (.of next) (P.runActions p actions).1 (Q.runActions p actions).1 ∧
      (P.runActions p actions).2 = (Q.runActions p actions).2 := by
  induction actions generalizing k P Q with
  | nil => exact ⟨h.mono hs.1,rfl⟩
  | cons a actions ih =>
    obtain ⟨h₁,hc₁⟩ := h.runAction p hs.1
    obtain ⟨h₂,hc₂⟩ := ih h₁ hs.2
    refine ⟨h₂,?_⟩
    simp only [HttpParser.runActions, hc₁, hc₂]

theorem enter (h : Alike R (.of P.cs) P Q) (p : ℕ) {b : UInt8} {s t : State}
    {actions : List Action} (ht : Transition P.cs b s actions) (hst : R s t) :
    Alike R (.of (P.enter p s actions).1.cs) (P.enter p s actions).1 (Q.enter p t actions).1 ∧
      (P.enter p s actions).2 = (Q.enter p t actions).2 := by
  rw [HttpParser.enter_cs]
  exact (h.setCs hst).runActions p ht.serves

end Alike

namespace HttpParser

theorem runActions_uriRelaxed (parser : HttpParser) (p : ℕ) (actions : List Action) :
    (parser.runActions p actions).1.uriRelaxed = parser.uriRelaxed := by
  induction actions generalizing parser with
  | nil => rfl
  | cons a actions ih =>
    simp only [runActions, ih]
    cases a <;> simp only [runAction]
    split <;> rfl

theorem enter_uriRelaxed (parser : HttpParser) (p : ℕ) (cs : State) (actions : List Action) :
    (parser.enter p cs actions).1.uriRelaxed = parser.uriRelaxed := runActions_uriRelaxed ..

theorem le_exec (parser : HttpParser) (p : ℕ) (bs : Bytes) : p ≤ (parser.exec p bs).2.1 := by
  induction bs generalizing parser p with
  | nil => exact le_rfl
  | cons b bs ih =>
    simp only [exec]
    split_ifs
    · exact le_rfl
    · exact Nat.le_succ p
    · exact (Nat.le_succ p).trans (ih _ _)

end HttpParser

/-- From `s` on the machine comes to a byte `E` before it stops. -/
def Meets (relaxed : Bool) (E : State → UInt8 → Prop) : State → Bytes → Prop
  | _, [] => False
  | s, b :: bs => E s b ∨ (step relaxed s b).1 ≠ .error ∧ ¬(step relaxed s b).1.Final ∧
      Meets relaxed E (step relaxed s b).1 bs

namespace Simulates
variable {relaxed relaxed' : Bool} {R : State → State → Prop} {E : State → UInt8 → Prop}
  {P Q : HttpParser}

theorem exec_alike (hsim : Simulates relaxed relaxed' R E) (hP : P.uriRelaxed = relaxed)
    (hQ : Q.uriRelaxed = relaxed') (h : Alike R (.of P.cs) P Q) (p : ℕ) {bs : Bytes}
    (hno : ¬Meets relaxed E P.cs bs) :
    Alike R (.of (P.exec p bs).1.cs) (P.exec p bs).1 (Q.exec p bs).1 ∧
      (P.exec p bs).2 = (Q.exec p bs).2 := by
  induction bs generalizing p P Q with
  | nil => exact ⟨h,rfl⟩
  | cons b bs ih =>
    rw [Meets, not_or] at hno
    obtain ⟨hnext,hactions⟩ := hsim.go h.cs hno.1
    have ht := step_transition relaxed P.cs b
    have hstep : step P.uriRelaxed P.cs b = step relaxed P.cs b := by rw [hP]
    have hstep' : step Q.uriRelaxed Q.cs b = step relaxed' Q.cs b := by rw [hQ]
    simp only [HttpParser.exec, hstep, hstep', ← hactions]
    by_cases herr : (step relaxed P.cs b).1 = .error
    · rw [if_pos herr, if_pos ((hsim.error_iff hnext).mp herr)]
      refine ⟨(h.setCs hnext).mono ?_,rfl⟩
      rw [herr]
      intro hs
      cases hs
    rw [if_neg herr, if_neg (mt (hsim.error_iff hnext).mpr herr)]
    obtain ⟨h₁,hc₁⟩ := h.enter p ht hnext
    by_cases hdone : .done ∈ (step relaxed P.cs b).2
    · rw [if_pos hdone, if_pos hdone]
      exact ⟨h₁,by rw [hc₁]⟩
    · rw [if_neg hdone, if_neg hdone]
      have hfinal := mt ht.final.mpr hdone
      obtain ⟨h₂,hc₂⟩ := ih ((HttpParser.enter_uriRelaxed ..).trans hP)
        ((HttpParser.enter_uriRelaxed ..).trans hQ) h₁ (p+1)
        (by rw [HttpParser.enter_cs]; exact fun hm => hno.2 ⟨herr,hfinal,hm⟩)
      obtain ⟨hoffset,hcalls⟩ := Prod.ext_iff.mp hc₂
      exact ⟨h₂,Prod.ext hoffset (congrArg₂ (·++·) hc₁ hcalls)⟩

/-- At the byte the second parser goes on. -/
theorem exec_parts (hsim : Simulates relaxed relaxed' R E) (hP : P.uriRelaxed = relaxed)
    (hQ : Q.uriRelaxed = relaxed') (h : Alike R (.of P.cs) P Q) (p : ℕ) {bs : Bytes}
    (hmeets : Meets relaxed E P.cs bs) :
    (P.exec p bs).1.cs = .error ∧ (P.exec p bs).2.1 < (Q.exec p bs).2.1 ∧
      (P.exec p bs).2.2 <+: (Q.exec p bs).2.2 := by
  induction bs generalizing p P Q with
  | nil => exact hmeets.elim
  | cons b bs ih =>
    have ht := step_transition relaxed P.cs b
    by_cases hE : E P.cs b
    · obtain ⟨hstop,hgo⟩ := hsim.stop h.cs hE
      simp only [HttpParser.exec, hP, hQ]
      rw [if_pos hstop, if_neg hgo]
      refine ⟨hstop,?_,List.nil_prefix⟩
      split_ifs
      · exact Nat.lt_succ_self p
      · exact HttpParser.le_exec _ (p+1) bs
    · obtain ⟨hnext,hactions⟩ := hsim.go h.cs hE
      obtain ⟨herr,hfinal,hmeets⟩ := hmeets.resolve_left hE
      simp only [HttpParser.exec, hP, hQ, ← hactions]
      have hdone := mt ht.final.mp hfinal
      rw [if_neg herr, if_neg (mt (hsim.error_iff hnext).mpr herr), if_neg hdone, if_neg hdone]
      obtain ⟨h₁,hc₁⟩ := h.enter p ht hnext
      obtain ⟨hcs,hlt,hpre⟩ := ih ((HttpParser.enter_uriRelaxed ..).trans hP)
        ((HttpParser.enter_uriRelaxed ..).trans hQ) h₁ (p+1) (by rwa [HttpParser.enter_cs])
      exact ⟨hcs,hlt,by rw [hc₁]; exact (List.prefix_append_right_inj _).mpr hpre⟩

end Simulates
/-! ### The calls of `execute` -/

namespace HttpRequestParser

/-- The pieces, one after the other: how much of each is consumed, and the parser at the end. -/
def feed (r : HttpRequestParser) : List Bytes → Except Fault (List ℕ × HttpRequestParser)
  | [] => .ok ([],r)
  | piece :: pieces => do
    let (r,offset,_) ← r.execute piece
    let (offsets,r) ← r.feed pieces
    return (offset :: offsets,r)

/-- What can be seen of a parser that has been fed. -/
structure Outcome where
  offsets : List ℕ
  finished : Bool
  error : Bool
  data : HttpRequest
deriving DecidableEq

/-- A parser that is built over the fields `u` and fed the pieces. -/
def outcome (u : Uninit) (pieces : List Bytes) : Except Fault Outcome :=
  ((new u).feed pieces).map fun (offsets,r) =>
    ⟨offsets,decide r.IsFinished,decide r.HasError,r.data⟩

/-- A call of `execute` comes to a byte `E`. -/
def MeetsIn (E : State → UInt8 → Prop) (r : HttpRequestParser) : List Bytes → Prop
  | [] => False
  | piece :: pieces => ∃ q, r.execute piece = .ok q ∧
      (Meets r.parser.uriRelaxed E r.parser.cs piece ∨ q.1.MeetsIn E pieces)

/-- Two parsers that have read alike. -/
structure Alike (relaxed relaxed' : Bool) (R : State → State → Prop)
    (r q : HttpRequestParser) : Prop where
  narrow : r.parser.uriRelaxed = relaxed
  wide : q.parser.uriRelaxed = relaxed'
  parser : Http.Alike R (.of r.parser.cs) r.parser q.parser
  error : r.error = q.error
  data : r.data = q.data

theorem update_congr {r q : HttpRequestParser} (he : r.error = q.error) (hd : r.data = q.data)
    (us : List Update) : (us.foldl update r).error = (us.foldl update q).error ∧
      (us.foldl update r).data = (us.foldl update q).data := by
  induction us generalizing r q with
  | nil => exact ⟨he,hd⟩
  | cons u us ih =>
    cases u with
    | none => exact ih he hd
    | setError v => exact ih rfl hd
    | _ => exact ih he (by simp only [update, hd])

theorem execute_eq (r : HttpRequestParser) (data : Bytes) :
    r.execute data = ((r.parser.execute data).2.2.mapM (callback data)).map fun us =>
      ({ us.foldl update r with parser := (r.parser.execute data).1 },
        (r.parser.execute data).2.1,data.drop (r.parser.execute data).2.1) := by
  rw [execute]
  simp only [bind, Except.bind, pure, Except.pure]
  cases (r.parser.execute data).2.2.mapM (callback data) <;> rfl

theorem exec_uriRelaxed (parser : HttpParser) (p : ℕ) (bs : Bytes) :
    (parser.exec p bs).1.uriRelaxed = parser.uriRelaxed := by
  induction bs generalizing parser p with
  | nil => rfl
  | cons b bs ih =>
    simp only [HttpParser.exec]
    split_ifs
    · rfl
    · exact HttpParser.enter_uriRelaxed ..
    · exact (ih _ _).trans (HttpParser.enter_uriRelaxed ..)

theorem parser_execute_uriRelaxed (parser : HttpParser) (data : Bytes) :
    (parser.execute data).1.uriRelaxed = parser.uriRelaxed := by
  rw [HttpParser.execute]
  split_ifs
  · rfl
  · exact exec_uriRelaxed ..

end HttpRequestParser

namespace Simulates
variable {relaxed relaxed' : Bool} {R : State → State → Prop} {E : State → UInt8 → Prop}
  {r q : HttpRequestParser}
open HttpRequestParser

theorem execute_alike (hsim : Simulates relaxed relaxed' R E) (h : r.Alike relaxed relaxed' R q)
    {piece : Bytes} (hno : ¬Meets relaxed E r.parser.cs piece) :
    (∃ e, r.execute piece = .error e ∧ q.execute piece = .error e) ∨
      ∃ r' q' left, r.execute piece = .ok (r',left) ∧ q.execute piece = .ok (q',left) ∧
        r'.Alike relaxed relaxed' R q' := by
  have hparser : Http.Alike R (.of (r.parser.execute piece).1.cs) (r.parser.execute piece).1
        (q.parser.execute piece).1 ∧
      (r.parser.execute piece).2 = (q.parser.execute piece).2 := by
    rw [HttpParser.execute, HttpParser.execute]
    split_ifs
    · exact ⟨h.parser,rfl⟩
    · exact hsim.exec_alike (P := r.parser.reset) (Q := q.parser.reset) h.narrow h.wide
        h.parser.reset 0 hno
  obtain ⟨hparser,hrest⟩ := hparser
  rw [execute_eq, execute_eq, ← hrest]
  cases (r.parser.execute piece).2.2.mapM (callback piece) with
  | error e => exact .inl ⟨e,rfl,rfl⟩
  | ok us =>
    obtain ⟨herror,hdata⟩ := update_congr h.error h.data us
    exact .inr ⟨_,_,_,rfl,rfl,(parser_execute_uriRelaxed ..).trans h.narrow,
      (parser_execute_uriRelaxed ..).trans h.wide,hparser,herror,hdata⟩

theorem mapM_append_error {α β ε : Type*} {f : α → Except ε β} {l l' : List α} {e : ε}
    (h : l.mapM f = .error e) : (l++l').mapM f = .error e := by
  rw [List.mapM_append, h]
  rfl

theorem execute_parts (hsim : Simulates relaxed relaxed' R E) (h : r.Alike relaxed relaxed' R q)
    {piece : Bytes} (hmeets : Meets relaxed E r.parser.cs piece) :
    (∃ e, r.execute piece = .error e ∧ q.execute piece = .error e) ∨
      ∃ x, r.execute piece = .ok x ∧ x.1.parser.cs = .error ∧
        ∀ y, q.execute piece = .ok y → x.2.1 < y.2.1 := by
  have hne : piece ≠ [] := by
    rintro rfl
    exact hmeets
  obtain ⟨hcs,hlt,more,hmore⟩ := hsim.exec_parts (P := r.parser.reset) (Q := q.parser.reset) h.narrow
    h.wide h.parser.reset 0 hmeets
  rw [execute_eq, execute_eq, HttpParser.execute, HttpParser.execute, if_neg hne, if_neg hne,
    ← hmore]
  cases hr : (r.parser.reset.exec 0 piece).2.2.mapM (callback piece) with
  | error e => exact .inl ⟨e,rfl,by rw [mapM_append_error hr]; rfl⟩
  | ok us =>
    refine .inr ⟨_,rfl,hcs,fun y hy => ?_⟩
    cases hq : ((r.parser.reset.exec 0 piece).2.2++more).mapM (callback piece) with
    | error e =>
      rw [hq] at hy
      cases hy
    | ok us' =>
      rw [hq] at hy
      cases hy
      exact hlt

/-- A call throws in both parsers or in none. -/
theorem execute_error (hsim : Simulates relaxed relaxed' R E)
    (h : r.Alike relaxed relaxed' R q) {piece : Bytes} {e : Fault}
    (he : r.execute piece = .error e) : q.execute piece = .error e := by
  have hboth : ∃ e, r.execute piece = .error e ∧ q.execute piece = .error e := by
    by_cases hmeets : Meets relaxed E r.parser.cs piece
    · refine (hsim.execute_parts h hmeets).resolve_right fun ⟨_,hok,_⟩ => ?_
      exact nomatch he.symm.trans hok
    · refine (hsim.execute_alike h hmeets).resolve_right fun ⟨_,_,_,hok,_⟩ => ?_
      exact nomatch he.symm.trans hok
  obtain ⟨e',he',hq⟩ := hboth
  cases he.symm.trans he'
  exact hq

/-- Where no call comes to a byte `E`, the calls do the same. -/
theorem feed_alike (hsim : Simulates relaxed relaxed' R E) (h : r.Alike relaxed relaxed' R q)
    {pieces : List Bytes} (hno : ¬r.MeetsIn E pieces) :
    (∃ e, r.feed pieces = .error e ∧ q.feed pieces = .error e) ∨
      ∃ offsets r' q', r.feed pieces = .ok (offsets,r') ∧ q.feed pieces = .ok (offsets,q') ∧
        r'.Alike relaxed relaxed' R q' := by
  induction pieces generalizing r q with
  | nil => exact .inr ⟨[],r,q,rfl,rfl,h⟩
  | cons piece pieces ih =>
    rw [feed, feed]
    cases hr : r.execute piece with
    | error e =>
      rw [hsim.execute_error h hr]
      exact .inl ⟨e,rfl,rfl⟩
    | ok x =>
      have hmeets : ¬Meets relaxed E r.parser.cs piece := fun hm =>
        hno ⟨x,hr,.inl (h.narrow ▸ hm)⟩
      obtain ⟨e,he,-⟩ | ⟨r',q',left,hr',hq,h'⟩ := hsim.execute_alike h hmeets
      · exact nomatch he.symm.trans hr
      · cases hr'.symm.trans hr
        rw [hq]
        obtain ⟨e,her,heq⟩ | ⟨offsets,r'',q'',hr'',hq'',h''⟩ :=
          ih h' fun hm => hno ⟨_,hr,.inr hm⟩
        · refine .inl ⟨e,?_,?_⟩
          · simp only [bind, Except.bind, her]
          · simp only [bind, Except.bind, heq]
        · refine .inr ⟨left.1 :: offsets,r'',q'',?_,?_,h''⟩
          · simp only [bind, Except.bind, hr'']
            rfl
          · simp only [bind, Except.bind, hq'']
            rfl

/-- A parser that has failed calls back no more. -/
theorem feed_of_error {r : HttpRequestParser} (h : r.parser.cs = .error) (pieces : List Bytes) :
    ∃ x, r.feed pieces = .ok x := by
  induction pieces generalizing r with
  | nil => exact ⟨_,rfl⟩
  | cons piece pieces ih =>
    have hstop : (r.parser.execute piece).1.cs = .error ∧
        (r.parser.execute piece).2.2 = [] := by
      rw [HttpParser.execute]
      split
      · exact ⟨h,rfl⟩
      · obtain ⟨b,bs,rfl⟩ := List.exists_cons_of_ne_nil ‹_›
        have hreset : r.parser.reset.cs = .error := h
        simp [HttpParser.exec, hreset, step]
    obtain ⟨r',hr,hcs⟩ : ∃ x, r.execute piece = .ok x ∧ x.1.parser.cs = .error := by
      rw [execute_eq, hstop.2]
      exact ⟨_,rfl,hstop.1⟩
    obtain ⟨x,hx⟩ := ih hcs
    rw [feed, hr]
    simp only [bind, Except.bind, hx]
    exact ⟨_,rfl⟩

/-- Where some call comes to a byte `E`, the two parsers do not consume the same. -/
theorem feed_parts (hsim : Simulates relaxed relaxed' R E) (h : r.Alike relaxed relaxed' R q)
    {pieces : List Bytes} (hmeets : r.MeetsIn E pieces) :
    (r.feed pieces).map Prod.fst ≠ (q.feed pieces).map Prod.fst := by
  induction pieces generalizing r q with
  | nil => exact hmeets.elim
  | cons piece pieces ih =>
    obtain ⟨x,hr,hmeets⟩ := hmeets
    rw [feed, feed, hr]
    by_cases hhere : Meets relaxed E r.parser.cs piece
    · obtain ⟨e,he,-⟩ | ⟨x',hr',hcs,hlt⟩ := hsim.execute_parts h hhere
      · exact nomatch he.symm.trans hr
      cases hr'.symm.trans hr
      obtain ⟨y,hy⟩ := feed_of_error hcs pieces
      cases hq : q.execute piece with
      | error e => simp [bind, Except.bind, hy, Except.map, pure, Except.pure]
      | ok z =>
        have hz := hlt z hq
        cases hfeed : z.1.feed pieces with
        | error e => simp [bind, Except.bind, hy, hfeed, Except.map, pure, Except.pure]
        | ok w =>
          simp only [bind, Except.bind, hy, hfeed, Except.map, pure, Except.pure, ne_eq,
            Except.ok.injEq, List.cons.injEq, not_and]
          intro heq
          exact absurd heq hz.ne
    · obtain ⟨e,he,-⟩ | ⟨r',q',left,hr',hq,h'⟩ := hsim.execute_alike h hhere
      · exact nomatch he.symm.trans hr
      cases hr'.symm.trans hr
      have hrest := ih h' (hmeets.resolve_left fun hm => hhere (h.narrow ▸ hm))
      rw [hq]
      intro heq
      apply hrest
      cases hx : r'.feed pieces with
      | error e =>
        cases hy : q'.feed pieces with
        | error e' => simpa [bind, Except.bind, hx, hy, Except.map] using heq
        | ok y => simp [bind, Except.bind, hx, hy, Except.map, pure, Except.pure] at heq
      | ok x =>
        cases hy : q'.feed pieces with
        | error e' => simp [bind, Except.bind, hx, hy, Except.map, pure, Except.pure] at heq
        | ok y => simpa [bind, Except.bind, hx, hy, Except.map, pure, Except.pure] using heq

/-- Two parsers over the same pieces agree unless a call comes to a byte `E`. -/
theorem outcome_eq_iff_not_meets {u u' : Uninit}
    (hsim : Simulates u.uriRelaxed u'.uriRelaxed R E) (pieces : List Bytes) :
    outcome u pieces = outcome u' pieces ↔ ¬(new u).MeetsIn E pieces := by
  have halike : (new u).Alike u.uriRelaxed u'.uriRelaxed R (new u') :=
    ⟨rfl,rfl,⟨hsim.start,rfl,rfl,rfl,rfl,rfl,nofun,rfl,rfl⟩,rfl,rfl⟩
  constructor
  · intro heq hmeets
    apply hsim.feed_parts halike hmeets
    have hoffsets := congrArg (Except.map Outcome.offsets) heq
    unfold outcome at hoffsets
    cases hx : (new u).feed pieces with
    | error e =>
      cases hy : (new u').feed pieces <;> simp_all [Except.map]
    | ok x =>
      cases hy : (new u').feed pieces <;> simp_all [Except.map]
  · intro hno
    unfold outcome
    obtain ⟨e,hr,hq⟩ | ⟨offsets,r,q,hr,hq,h⟩ := hsim.feed_alike halike hno
    · rw [hr, hq]
    · have hfinished : r.IsFinished ↔ q.IsFinished := hsim.final_iff h.parser.cs
      have herror : r.HasError ↔ q.HasError := by
        unfold HasError
        rw [h.error, hsim.error_iff h.parser.cs]
      rw [hr, hq]
      simp only [Except.map, hfinished, herror, h.data]

end Simulates

/-! ### Two parsers -/

namespace HttpRequestParser

theorem not_meets_false (relaxed : Bool) (s : State) (bs : Bytes) :
    ¬Meets relaxed (fun _ _ => False) s bs := by
  induction bs generalizing s with
  | nil => exact id
  | cons b bs ih => exact fun h => h.elim id fun h => ih _ h.2.2

theorem not_meetsIn_false (r : HttpRequestParser) (pieces : List Bytes) :
    ¬r.MeetsIn (fun _ _ => False) pieces := by
  induction pieces generalizing r with
  | nil => exact id
  | cons piece pieces ih =>
    rintro ⟨q,-,h | h⟩
    · exact not_meets_false _ _ _ h
    · exact ih _ h

/-- The value of `query_start` is not seen. -/
theorem outcome_congr (u u' : Uninit) (h : u.uriRelaxed = u'.uriRelaxed) {pieces : List Bytes} :
    outcome u pieces = outcome u' pieces := by
  have hsim : Simulates u.uriRelaxed u'.uriRelaxed Eq fun _ _ => False :=
    h ▸ simulates_eq u.uriRelaxed
  exact (hsim.outcome_eq_iff_not_meets pieces).mpr (not_meetsIn_false _ pieces)

/-- Two parsers that are fed the same pieces can be told apart exactly if one of them is built
over a zero `uri_relaxed` and the other is not, and a call of `execute` comes to a brace or a
caret in a target. -/
theorem outcome_eq_iff (u u' : Uninit) (pieces : List Bytes) :
    outcome u pieces = outcome u' pieces ↔
      u.uriRelaxed = u'.uriRelaxed ∨ ¬(new ⟨0,false⟩).MeetsIn RelaxedOnly pieces := by
  have hmixed : outcome ⟨0,false⟩ pieces = outcome ⟨0,true⟩ pieces ↔
      ¬(new ⟨0,false⟩).MeetsIn RelaxedOnly pieces :=
    simulates_twin.outcome_eq_iff_not_meets pieces
  by_cases hsame : u.uriRelaxed = u'.uriRelaxed
  · exact iff_of_true (outcome_congr u u' hsame) (.inl hsame)
  rw [or_iff_right hsame, ← hmixed]
  cases hu : u.uriRelaxed
  · have hu' : u'.uriRelaxed = true := by simpa [hu] using hsame
    rw [outcome_congr u ⟨0,false⟩ hu, outcome_congr u' ⟨0,true⟩ hu']
  · have hu' : u'.uriRelaxed = false := by simpa [hu] using hsame
    rw [outcome_congr u ⟨0,true⟩ hu, outcome_congr u' ⟨0,false⟩ hu', eq_comm]

/-- A brace in the path. -/
theorem outcome_ne_braces : ¬∀ (u u' : Uninit) (pieces : List Bytes),
    outcome u pieces = outcome u' pieces := fun h =>
  absurd (h ⟨0,false⟩ ⟨0,true⟩ [bytes "GET /\x7b HTTP/1.1\r\n\r\n"]) (by decide +kernel)

end HttpRequestParser
end CoroutineWebserve.Http
