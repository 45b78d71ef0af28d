import CoroutineWebserve.Http.Session
import CoroutineWebserve.Http.Tokens

/-!
# A parser that gets its message in pieces

Every `execute` forgets the offsets of the parts it is in, so that they begin at the last
cut. A run over pieces makes the callbacks of the run over the whole message, each with
what the last cut before it has left.
-/
namespace CoroutineWebserve.Http

namespace Callback

/-- What is left of a callback when `start p` is where the piece of byte `p` begins. The
offset of a query is kept although it counts from the start of an older piece. -/
def kept (start : ℕ → ℕ) : Callback → Callback
  | .element .queryString first stop =>
    .element .queryString (start stop+(first-start first)) stop
  | .element e first stop => .element e (max first (start stop)) stop
  | .httpField fieldStart fieldLen mark stop =>
    .httpField (max fieldStart (start stop))
      (max (fieldStart+fieldLen) (start stop)-max fieldStart (start stop))
      (max mark (start stop)) stop
  | .headerDone => .headerDone

/-- The same callback with offsets that count from `b` on. -/
def shift (b : ℕ) : Callback → Callback
  | .element e first stop => .element e (first-b) (stop-b)
  | .httpField fieldStart fieldLen mark stop =>
    .httpField (fieldStart-b) fieldLen (mark-b) (stop-b)
  | .headerDone => .headerDone

/-- The callback is about bytes of `s` from `b` on and before `e`; a method ends at a space. -/
def Fits (s : Bytes) (b e : ℕ) : Callback → Prop
  | .element .queryString first stop => b ≤ first ∧ b ≤ stop ∧ stop < e
  | .element .requestMethod first stop =>
    b ≤ first ∧ first ≤ stop ∧ stop < e ∧ s[stop]? = some 32
  | .element _ first stop => b ≤ first ∧ first ≤ stop ∧ stop < e
  | .httpField fieldStart fieldLen mark stop =>
    b ≤ fieldStart ∧ fieldStart+fieldLen ≤ stop ∧ b ≤ mark ∧ mark ≤ stop ∧ stop < e
  | .headerDone => True

/-- The part that a callback is about. -/
def kind : Callback → Option Element
  | .element e _ _ => some e
  | .httpField .. | .headerDone => none

end Callback

namespace HttpParser

theorem runAction_cs (p : ℕ) (parser : HttpParser) (a : Action) :
    (parser.runAction p a).1.cs = parser.cs := by
  cases a <;> simp only [runAction]
  split <;> rfl

theorem runActions_cs (p : ℕ) (parser : HttpParser) (actions : List Action) :
    (parser.runActions p actions).1.cs = parser.cs := by
  induction actions generalizing parser with
  | nil => rfl
  | cons a actions ih => simp only [runActions, ih, runAction_cs]

@[simp] theorem enter_cs (parser : HttpParser) (p : ℕ) (cs : State) (actions : List Action) :
    (parser.enter p cs actions).1.cs = cs := runActions_cs ..

theorem runActions_kind (p : ℕ) (parser : HttpParser) (actions : List Action) :
    (parser.runActions p actions).2.filterMap Callback.kind =
      actions.filterMap Action.element := by
  induction actions generalizing parser with
  | nil => rfl
  | cons a actions ih =>
    simp only [runActions, List.filterMap_append, ih]
    cases a <;> simp only [runAction]
    all_goals try rfl
    split <;> rfl

/-- A run calls back with each part once, in the order of the parts. -/
theorem exec_pending (parser : HttpParser) (p : ℕ) (bs : Bytes) :
    ((parser.exec p bs).2.2.filterMap Callback.kind++(parser.exec p bs).1.cs.pending).Sublist
      parser.cs.pending := by
  induction bs generalizing parser p with
  | nil => simp [exec]
  | cons b bs ih =>
    have ht := step_transition parser.uriRelaxed parser.cs b
    simp only [exec]
    generalize step parser.uriRelaxed parser.cs b = t at ht
    obtain ⟨next,actions⟩ := t
    have hkind : (parser.enter p next actions).2.filterMap Callback.kind =
        actions.filterMap Action.element := runActions_kind ..
    dsimp only at ht ⊢
    split
    · next hn => simp [hn, State.pending]
    split
    · simpa only [hkind, enter_cs] using ht.pending
    · have hrest := ih (parser.enter p next actions).1 (p+1)
      rw [enter_cs] at hrest
      simp only [List.filterMap_append, hkind, List.append_assoc]
      exact (hrest.append_left _).trans ht.pending

theorem kind_of_enter {parser : HttpParser} {p : ℕ} {cs : State} {actions : List Action}
    {c : Callback} (hc : c ∈ (parser.enter p cs actions).2) {e : Element} (he : c.kind = some e) :
    ∃ a ∈ actions, a.element = some e := by
  have hmem : e ∈ (parser.enter p cs actions).2.filterMap Callback.kind :=
    List.mem_filterMap.mpr ⟨c,hc,he⟩
  rw [enter, runActions_kind] at hmem
  exact List.mem_filterMap.mp hmem

/-- From offset `first` on, `s` has the first `n` bytes of a version. -/
def VersionAt (s : Bytes) (first n : ℕ) : Prop :=
  ∀ i < n, ∃ b, s[first+i]? = some b ∧ isVersionByte i b

theorem VersionAt.succ {s : Bytes} {first n : ℕ} (h : VersionAt s first n) {b : UInt8}
    (hb : s[first+n]? = some b) (hv : isVersionByte n b) : VersionAt s first (n+1) := by
  intro i hi
  rcases Nat.lt_succ_iff_lt_or_eq.mp hi with hlt | rfl
  · exact h i hlt
  · exact ⟨b,hb,hv⟩

theorem step_version (relaxed : Bool) (s : State) (b : UInt8) {n : ℕ}
    (h : (step relaxed s b).1 = .version n) : isVersionByte (n-1) b := by
  cases s with
  | versionStart | version =>
    simp only [step] at h
    split_ifs at h
    cases h
    assumption
  | error | socketDone => cases h
  | _ =>
    simp only [step, within] at h
    split_ifs at h

/-- A version has eight bytes, those of `HTTP_Version`. -/
theorem exec_version {s : Bytes} {parser : HttpParser} {p : ℕ}
    (h : ∀ n, parser.cs = .version n → parser.mark+n = p ∧ VersionAt s parser.mark n) (bs : Bytes)
    (hbs : s.drop p = bs) :
    ∀ first stop, .element .httpVersion first stop ∈ (parser.exec p bs).2.2 →
      stop = first+8 ∧ VersionAt s first 8 := by
  induction bs generalizing parser p with
  | nil => simp [exec]
  | cons b bs ih =>
    have hb : s[p]? = some b := by rw [← List.head?_drop, hbs, List.head?_cons]
    have ht := step_transition parser.uriRelaxed parser.cs b
    have hv := fun n => step_version parser.uriRelaxed parser.cs b (n := n)
    simp only [exec]
    generalize step parser.uriRelaxed parser.cs b = t at ht hv
    obtain ⟨next,actions⟩ := t
    dsimp only at ht hv ⊢
    have hhere : ∀ first stop,
        .element .httpVersion first stop ∈ (parser.enter p next actions).2 →
          stop = first+8 ∧ VersionAt s first 8 := by
      intro first stop hc
      obtain ⟨a,ha,hea⟩ := kind_of_enter hc rfl
      obtain rfl : a = .httpVersion := by cases a <;> first | rfl | cases hea
      obtain ⟨hcs,rfl⟩ := ht.httpVersion ha
      obtain ⟨hm,hread⟩ := h 8 hcs
      simp only [enter, runActions, runAction, List.append_nil, List.mem_singleton,
        Callback.element.injEq, true_and] at hc
      obtain ⟨rfl,rfl⟩ := hc
      exact ⟨hm.symm,hread⟩
    have hnext : ∀ n, (parser.enter p next actions).1.cs = .version n →
        (parser.enter p next actions).1.mark+n = p+1 ∧
          VersionAt s (parser.enter p next actions).1.mark n := by
      intro n hn
      rw [enter_cs] at hn
      have hbyte := hv n hn
      rcases ht.version n hn with ⟨rfl,rfl⟩ | ⟨rfl,k,hk,rfl⟩
      · refine ⟨rfl,VersionAt.succ (n := 0) (fun i hi => absurd hi (Nat.not_lt_zero i)) hb hbyte⟩
      · obtain ⟨hm,hread⟩ := h k hk
        simp only [enter, runActions]
        exact ⟨by omega,hread.succ (hm ▸ hb) hbyte⟩
    split
    · simp
    split
    · exact hhere
    · intro first stop hc
      have hrest : s.drop (p+1) = bs := by rw [← List.tail_drop, hbs, List.tail_cons]
      exact (List.mem_append.mp hc).elim (hhere first stop) (ih hnext hrest first stop)

theorem exec_of_error {parser : HttpParser} (h : parser.cs = .error) (p : ℕ) (bs : Bytes) :
    (parser.exec p bs).1.cs = .error := by
  cases bs with
  | nil => exact h
  | cons b bs => simp [exec, h, step]

/-- A run over `bs ++ rest` that does not stop early is one over `bs` and one over `rest`. -/
theorem exec_append {parser : HttpParser} {p : ℕ} {bs rest : Bytes} (hrest : rest ≠ [])
    (hend : (parser.exec p (bs++rest)).2.1 = p+(bs++rest).length) :
    let first := parser.exec p bs
    let second := first.1.exec (p+bs.length) rest
    first.2.1 = p+bs.length ∧ parser.exec p (bs++rest) = (second.1,second.2.1,first.2.2++second.2.2) ∧
      (¬parser.cs.Final → ¬first.1.cs.Final) := by
  induction bs generalizing parser p with
  | nil => exact ⟨rfl,rfl,id⟩
  | cons b bs ih =>
    have ht := step_transition parser.uriRelaxed parser.cs b
    simp only [List.cons_append, exec] at hend ⊢
    generalize step parser.uriRelaxed parser.cs b = t at ht hend
    obtain ⟨next,actions⟩ := t
    have hpos := List.length_pos_iff.mpr hrest
    simp only [List.length_cons, List.length_append] at hend
    split_ifs at hend ⊢ with hn hd
    · exact absurd hend (by dsimp only; omega)
    · exact absurd hend (by dsimp only; omega)
    · have hp : p+1+bs.length = p+(bs.length+1) := by omega
      obtain ⟨h₁,h₂,h₃⟩ := ih (p := p+1) (hend.trans (by simp only [List.length_append]; omega))
      rw [hp] at h₁ h₂
      refine ⟨h₁,?_,fun _ => h₃ ?_⟩
      · simp only [h₂, List.append_assoc, List.length_cons]
      · rwa [enter_cs, ← ht.final]

end HttpParser

/-! ### Two parsers in step -/

/-- `P` reads the whole message and is at byte `p`; `Q` is in the piece that begins at `b`. -/
structure InStep (start : ℕ → ℕ) (b p : ℕ) (k : Known) (P Q : HttpParser) : Prop where
  cs : Q.cs = P.cs
  uriRelaxed : Q.uriRelaxed = P.uriRelaxed
  xmlSent : Q.xmlSent = P.xmlSent
  jsonSent : Q.jsonSent = P.jsonSent
  mark_le : P.mark ≤ p
  fieldStart_le : P.fieldStart ≤ p
  mark : b+Q.mark = max P.mark b
  fieldStart : b+Q.fieldStart = max P.fieldStart b
  fieldEnd : k.field → P.fieldStart+P.fieldLen ≤ p ∧
    b+(Q.fieldStart+Q.fieldLen) = max (P.fieldStart+P.fieldLen) b
  query : k.query → P.queryStart ≤ p ∧ Q.queryStart = P.queryStart-start P.queryStart

namespace InStep
variable {start : ℕ → ℕ} {b p e : ℕ} {k : Known} {P Q : HttpParser} {s : Bytes}

theorem refl (start : ℕ → ℕ) (p : ℕ) {P : HttpParser} (hm : P.mark ≤ p)
    (hf : P.fieldStart ≤ p) : InStep start 0 p ⟨false,false⟩ P P where
  cs := rfl
  uriRelaxed := rfl
  xmlSent := rfl
  jsonSent := rfl
  mark_le := hm
  fieldStart_le := hf
  mark := by simp
  fieldStart := by simp
  fieldEnd h := nomatch h
  query h := nomatch h

theorem mono (h : InStep start b p k P Q) {q : ℕ} (hpq : p ≤ q) {k' : Known}
    (hq : k'.query → k.query) (hf : k'.field → k.field) : InStep start b q k' P Q :=
  { h with
    mark_le := h.mark_le.trans hpq
    fieldStart_le := h.fieldStart_le.trans hpq
    fieldEnd := fun hk => ⟨(h.fieldEnd (hf hk)).1.trans hpq,(h.fieldEnd (hf hk)).2⟩
    query := fun hk => ⟨(h.query (hq hk)).1.trans hpq,(h.query (hq hk)).2⟩ }

theorem setCs (h : InStep start b p k P Q) (cs : State) :
    InStep start b p k { P with cs } { Q with cs } := { h with cs := rfl }

/-- At the next piece `execute` sets all offsets but that of the query to its start. -/
theorem reset (h : InStep start b p k P Q) : InStep start p p k P Q.reset where
  cs := h.cs
  uriRelaxed := h.uriRelaxed
  xmlSent := h.xmlSent
  jsonSent := h.jsonSent
  mark_le := h.mark_le
  fieldStart_le := h.fieldStart_le
  mark := (max_eq_right h.mark_le).symm
  fieldStart := (max_eq_right h.fieldStart_le).symm
  fieldEnd hk := ⟨(h.fieldEnd hk).1,(max_eq_right (h.fieldEnd hk).1).symm⟩
  query := h.query

/-- Both run the action: they stay in step, and `Q` calls back with what is left. -/
theorem runAction (h : InStep start b p k P Q) (hb : start p = b) (hp : b ≤ p) (he : p < e)
    {a : Action} (hr : k.Ready a) (hm : a = .requestMethod → s[p]? = some 32) :
    InStep start b p (k.after a) (P.runAction p a).1 (Q.runAction (p-b) a).1 ∧
      (Q.runAction (p-b) a).2 = (P.runAction p a).2.map (fun c => (c.kept start).shift b) ∧
      ∀ c ∈ (P.runAction p a).2, (c.kept start).Fits s b e := by
  obtain ⟨hcs,hrel,hx,hj,hml,hfl,hmark,hfield,hend,hquery⟩ := h
  have hqm : Q.mark = max P.mark b-b := by omega
  cases a with
  | mark | startValue =>
    refine ⟨⟨hcs,hrel,hx,hj,le_rfl,hfl,?_,hfield,hend,hquery⟩,rfl,by simp [HttpParser.runAction]⟩
    simp only [HttpParser.runAction]
    omega
  | startField =>
    refine ⟨⟨hcs,hrel,hx,hj,hml,le_rfl,hmark,?_,nofun,hquery⟩,rfl,by simp [HttpParser.runAction]⟩
    simp only [HttpParser.runAction]
    omega
  | writeField =>
    refine ⟨⟨hcs,hrel,hx,hj,hml,hfl,hmark,hfield,fun _ => ?_,hquery⟩,rfl,
      by simp [HttpParser.runAction]⟩
    simp only [HttpParser.runAction]
    omega
  | startQuery =>
    refine ⟨⟨hcs,hrel,hx,hj,hml,hfl,hmark,hfield,hend,fun _ => ⟨le_rfl,?_⟩⟩,rfl,
      by simp [HttpParser.runAction]⟩
    simp only [HttpParser.runAction, hb]
  | writeValue =>
    have hend' := hend hr
    refine ⟨⟨hcs,hrel,hx,hj,hml,hfl,hmark,hfield,hend,hquery⟩,?_,?_⟩
    · simp only [HttpParser.runAction, List.map_cons, List.map_nil, Callback.kept,
        Callback.shift, hb, List.cons.injEq, Callback.httpField.injEq, and_true]
      omega
    · simp only [HttpParser.runAction, List.mem_singleton, forall_eq, Callback.kept,
        Callback.Fits, hb]
      omega
  | queryString =>
    have hq := hquery hr
    refine ⟨⟨hcs,hrel,hx,hj,hml,hfl,hmark,hfield,hend,hquery⟩,?_,?_⟩
    · simp only [HttpParser.runAction, List.map_cons, List.map_nil, Callback.kept,
        Callback.shift, hb, List.cons.injEq, Callback.element.injEq, and_true, true_and]
      omega
    · simp only [HttpParser.runAction, List.mem_singleton, forall_eq, Callback.kept,
        Callback.Fits, hb]
      omega
  | requestMethod =>
    refine ⟨⟨hcs,hrel,hx,hj,hml,hfl,hmark,hfield,hend,hquery⟩,?_,?_⟩
    · simp [HttpParser.runAction, Callback.kept, Callback.shift, hb, hqm]
    · simp only [HttpParser.runAction, List.mem_singleton, forall_eq, Callback.kept,
        Callback.Fits, hb]
      exact ⟨le_max_right ..,max_le hml hp,he,hm rfl⟩
  | requestUri | requestPath | fragment | httpVersion =>
    refine ⟨⟨hcs,hrel,hx,hj,hml,hfl,hmark,hfield,hend,hquery⟩,?_,?_⟩
    · simp [HttpParser.runAction, Callback.kept, Callback.shift, hb, hqm]
    · simp only [HttpParser.runAction, List.mem_singleton, forall_eq, Callback.kept,
        Callback.Fits, hb]
      exact ⟨le_max_right ..,max_le hml hp,he⟩
  | done =>
    simp only [HttpParser.runAction, hx, hj]
    split
    · exact ⟨⟨hcs,hrel,rfl,rfl,hml,hfl,hmark,hfield,hend,hquery⟩,rfl,by simp⟩
    · exact ⟨⟨hcs,hrel,rfl,rfl,hml,hfl,hmark,hfield,hend,hquery⟩,rfl,
        by simp [Callback.kept, Callback.Fits]⟩
  | xml =>
    exact ⟨⟨hcs,hrel,rfl,hj,hml,hfl,hmark,hfield,hend,hquery⟩,rfl,by simp [HttpParser.runAction]⟩
  | json =>
    exact ⟨⟨hcs,hrel,hx,rfl,hml,hfl,hmark,hfield,hend,hquery⟩,rfl,by simp [HttpParser.runAction]⟩

theorem runActions (hb : start p = b) (hp : b ≤ p) (he : p < e) {next : State}
    {actions : List Action} (h : InStep start b p k P Q) (hs : k.Serves next actions)
    (hm : .requestMethod ∈ actions → s[p]? = some 32) :
    InStep start b p (.of next) (P.runActions p actions).1 (Q.runActions (p-b) actions).1 ∧
      (Q.runActions (p-b) actions).2 =
        (P.runActions p actions).2.map (fun c => (c.kept start).shift b) ∧
      ∀ c ∈ (P.runActions p actions).2, (c.kept start).Fits s b e := by
  induction actions generalizing k P Q with
  | nil => exact ⟨h.mono le_rfl hs.1 hs.2,rfl,by simp [HttpParser.runActions]⟩
  | cons a actions ih =>
    obtain ⟨h₁,hc₁,hf₁⟩ := h.runAction hb hp he hs.1 fun ha => hm (by simp [ha])
    obtain ⟨h₂,hc₂,hf₂⟩ := ih h₁ hs.2 fun ha => hm (List.mem_cons_of_mem a ha)
    refine ⟨h₂,?_,?_⟩
    · simp only [HttpParser.runActions, hc₁, hc₂, List.map_append]
    · intro c hc
      simp only [HttpParser.runActions, List.mem_append] at hc
      exact hc.elim (hf₁ c) (hf₂ c)

theorem enter (hb : start p = b) (hp : b ≤ p) (he : p < e) {x : UInt8} (hx : s[p]? = some x)
    {next : State} {actions : List Action} (h : InStep start b p (.of P.cs) P Q)
    (ht : Transition P.cs x next actions) :
    InStep start b (p+1) (.of (P.enter p next actions).1.cs) (P.enter p next actions).1
        (Q.enter (p-b) next actions).1 ∧
      (Q.enter (p-b) next actions).2 =
        (P.enter p next actions).2.map (fun c => (c.kept start).shift b) ∧
      ∀ c ∈ (P.enter p next actions).2, (c.kept start).Fits s b e := by
  have hm : .requestMethod ∈ actions → s[p]? = some 32 := fun ha => hx ▸ ht.method ha ▸ rfl
  obtain ⟨hin,hrest⟩ := (h.setCs next).runActions hb hp he ht.serves hm
  rw [HttpParser.enter_cs]
  exact ⟨hin.mono (Nat.le_succ p) id id,hrest⟩

/-- Both run the machine over bytes of one piece. -/
theorem exec (bs : Bytes) (hstart : ∀ q, p ≤ q → q < p+bs.length → start q = b) (hp : b ≤ p)
    (he : p+bs.length ≤ e) (hs : ∀ i < bs.length, s[p+i]? = bs[i]?)
    (h : InStep start b p (.of P.cs) P Q) :
    InStep start b (P.exec p bs).2.1 (.of (P.exec p bs).1.cs) (P.exec p bs).1
        (Q.exec (p-b) bs).1 ∧
      (Q.exec (p-b) bs).2.1+b = (P.exec p bs).2.1 ∧
      (Q.exec (p-b) bs).2.2 = (P.exec p bs).2.2.map (fun c => (c.kept start).shift b) ∧
      ∀ c ∈ (P.exec p bs).2.2, (c.kept start).Fits s b e := by
  induction bs generalizing p P Q with
  | nil => exact ⟨h,Nat.sub_add_cancel hp,rfl,by simp [HttpParser.exec]⟩
  | cons x bs ih =>
    have hlen : p < p+(x :: bs).length := by simp
    have hx : s[p]? = some x := by simpa using hs 0 (by simp)
    have hstep : step Q.uriRelaxed Q.cs x = step P.uriRelaxed P.cs x := by
      rw [h.uriRelaxed, h.cs]
    have ht := step_transition P.uriRelaxed P.cs x
    simp only [HttpParser.exec, hstep]
    generalize step P.uriRelaxed P.cs x = t at ht
    obtain ⟨next,actions⟩ := t
    dsimp only at ht ⊢
    split
    · next hn =>
      subst hn
      exact ⟨(h.setCs .error).mono le_rfl (by simp [Known.of]) (by simp [Known.of]),
        Nat.sub_add_cancel hp,rfl,by simp⟩
    obtain ⟨h₁,hc₁,hf₁⟩ :=
      h.enter (hstart p le_rfl hlen) hp (Nat.lt_of_lt_of_le hlen he) hx ht
    have hq : p-b+1 = p+1-b := by omega
    split
    · exact ⟨h₁,by dsimp only; omega,hc₁,hf₁⟩
    · obtain ⟨h₂,hq₂,hc₂,hf₂⟩ := ih (p := p+1)
        (fun q h₁ h₂ => hstart q (by omega) (by simp only [List.length_cons]; omega)) (by omega)
        (by simp only [List.length_cons] at he; omega)
        (fun i hi => by simpa [Nat.add_assoc, Nat.add_comm 1] using hs (i+1) (by simpa using hi))
        h₁
      rw [← hq] at h₂ hq₂ hc₂
      refine ⟨h₂,hq₂,?_,?_⟩
      · rw [hc₁, hc₂, List.map_append]
      · intro c hc
        exact (List.mem_append.mp hc).elim (hf₁ c) (hf₂ c)

end InStep

/-! ### What a callback finds in its piece -/

section shift
variable {s pre piece post : Bytes}

theorem drop_shift (hs : s = pre++piece++post) {a : ℕ} (ha : pre.length ≤ a)
    (hlen : a ≤ pre.length+piece.length) :
    s.drop a = piece.drop (a-pre.length)++post := by
  subst hs
  rw [List.append_assoc, List.drop_append, List.drop_eq_nil_of_le ha, List.nil_append,
    List.drop_append_of_le_length (by omega)]

theorem slice_shift (hs : s = pre++piece++post) {a z : ℕ} (ha : pre.length ≤ a)
    (hz : z ≤ pre.length+piece.length) :
    slice piece (a-pre.length) (z-pre.length) = slice s a z := by
  have hn : z-pre.length-(a-pre.length) = z-a := by omega
  unfold slice
  rw [hn]
  by_cases hlen : a ≤ pre.length+piece.length
  · rw [drop_shift hs ha hlen, List.take_append_of_le_length]
    simp only [List.length_drop]
    omega
  · simp [show z-a = 0 by omega]

/-- A method at `a` that ends at the space at `z`. -/
theorem charsToHttpMethod_drop {m : Bytes} {a z : ℕ} (haz : a ≤ z) (hz : m[z]? = some 32) :
    charsToHttpMethod (m.drop a) = charsToHttpMethod (slice m a z) := by
  obtain ⟨hlt,hget⟩ := List.getElem?_eq_some_iff.mp hz
  have hsplit : m.drop a = slice m a z++32 :: m.drop (z+1) := by
    rw [← List.take_append_drop (z-a) (m.drop a), List.drop_drop,
      show a+(z-a) = z by omega, List.drop_eq_getElem_cons hlt, hget]
    rfl
  rw [hsplit, charsToHttpMethod_append]

/-- A version is read as far as its length. -/
theorem onRequestVersion_drop (m : Bytes) (a z : ℕ) :
    onRequestVersion (m.drop a) (z-a) = onRequestVersion (slice m a z) (z-a) := by
  simp only [onRequestVersion, slice, strncmpEq_take]

/-- In its piece a callback finds what it finds in the whole message. -/
theorem callback_shift (hs : s = pre++piece++post) {c : Callback}
    (hc : c.Fits s pre.length (pre.length+piece.length)) :
    callback piece (c.shift pre.length) = callback s c := by
  have hget : ∀ {z}, pre.length ≤ z → z < pre.length+piece.length →
      piece[z-pre.length]? = s[z]? := by
    intro z h₁ h₂
    rw [hs, List.append_assoc, List.getElem?_append_right h₁,
      List.getElem?_append_left (by omega)]
  cases c with
  | headerDone => rfl
  | httpField fieldStart fieldLen mark stop =>
    obtain ⟨h₁,h₂,h₃,h₄,h₅⟩ := hc
    simp only [Callback.shift, callback, onRequestHttpField,
      drop_shift hs h₁ (by omega), drop_shift hs h₃ (by omega)]
    rw [List.take_append_of_le_length (by simp only [List.length_drop]; omega),
      List.take_append_of_le_length (by simp only [List.length_drop]; omega),
      show stop-pre.length-(mark-pre.length) = stop-mark by omega]
  | element e first stop =>
    cases e with
    | requestUri => rfl
    | requestMethod =>
      obtain ⟨h₁,h₂,h₃,h₄⟩ := hc
      simp only [Callback.shift, callback, onRequestMethod]
      rw [charsToHttpMethod_drop h₂ h₄, ← slice_shift hs h₁ (by omega),
        charsToHttpMethod_drop (m := piece) (z := stop-pre.length) (by omega)
          ((hget (by omega) h₃).trans h₄)]
    | httpVersion =>
      obtain ⟨h₁,h₂,h₃⟩ := hc
      have hn : stop-pre.length-(first-pre.length) = stop-first := by omega
      simp only [Callback.shift, callback]
      rw [onRequestVersion_drop, onRequestVersion_drop, slice_shift hs h₁ h₃.le, hn]
    | queryString =>
      obtain ⟨h₁,h₂,h₃⟩ := hc
      simp only [Callback.shift, callback, stdString, slice_shift hs h₁ h₃.le]
      have hle : first-pre.length ≤ stop-pre.length ↔ first ≤ stop := by omega
      simp only [hle]
    | requestPath | fragment =>
      obtain ⟨h₁,h₂,h₃⟩ := hc
      simp only [Callback.shift, callback, stdString, slice_shift hs h₁ h₃.le]
      rw [if_pos (by omega), if_pos h₂]

end shift
end CoroutineWebserve.Http
