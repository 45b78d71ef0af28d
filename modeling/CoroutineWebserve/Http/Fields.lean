import CoroutineWebserve.Http.HeaderMap
import CoroutineWebserve.Http.Receive
import CoroutineWebserve.Ragel.Run

/-!
# Header lines of requests

The machine reads every line of a header map and calls back with its name and value.
-/
namespace CoroutineWebserve.Http
open Ragel

/-- The bytes of a value that a request can carry. -/
def IsFieldValue (value : Bytes) : Prop :=
  (∀ b ∈ value, isContent b ∧ b ≠ 10 ∧ b ≠ 13) ∧ ∀ b ∈ value.head?, b ≠ 9 ∧ b ≠ 32

instance : DecidablePred IsFieldValue := fun value =>
  decidable_of_iff ((value.all fun b => isContent b ∧ b ≠ 10 ∧ b ≠ 13) ∧
    value.head?.all fun b => b ≠ 9 ∧ b ≠ 32) (by cases value <;> simp [IsFieldValue])

theorem tchar_facts (b : UInt8) : isTchar b = true →
    isToken b = true ∧ isContent b = true ∧ b ≠ 9 ∧ b ≠ 10 ∧ b ≠ 13 ∧ b ≠ 32 ∧ b ≠ 58 := by
  revert b
  exact forall_byte (by decide +kernel)

namespace HttpParser
variable {p : ℕ}

/-- What the parser does with a byte. -/
def byteStep (parser : HttpParser) (p : ℕ) (b : UInt8) : Outcome HttpParser Callback :=
  let (cs,actions) := step parser.uriRelaxed parser.cs b
  if cs = .error then .stop { parser with cs }
  else
    let (parser,calls) := parser.enter p cs actions
    if .done ∈ actions then .done parser calls else .go parser calls

theorem exec_eq_run (parser : HttpParser) (p : ℕ) (bs : Bytes) :
    parser.exec p bs = run byteStep parser p bs := by
  induction bs generalizing parser p with
  | nil => rfl
  | cons b bs ih =>
    simp only [exec, run, byteStep, ih]
    split_ifs <;> rfl

/-- One byte. -/
theorem reads_byte (parser : HttpParser) (actions : List Action) {b : UInt8} {cs : State}
    (hstep : step parser.uriRelaxed parser.cs b = (cs,actions)) (hcs : cs ≠ .error)
    (hdone : .done ∉ actions) :
    Reads byteStep p parser [b] (parser.enter p cs actions).2 (parser.enter p cs actions).1 :=
  .of_go (by simp only [byteStep, hstep, if_neg hcs, if_neg hdone])

/-- Bytes without actions. -/
theorem reads_silent (parser : HttpParser) {bs : Bytes} {cs : State}
    (h : silent .error (step parser.uriRelaxed) parser.cs bs = some cs) :
    Reads byteStep p parser bs [] { parser with cs } := by
  refine Reads.of_silent (fun cs => { parser with cs }) ?_ h p
  intro s t p b hstep ht
  simp only [byteStep, hstep, if_neg ht]
  rfl

/-! ### A line -/

theorem reads_name (parser : HttpParser) {name : Bytes} (hne : name ≠ [])
    (hname : ∀ b ∈ name, isTchar b) (hcs : parser.cs = .headerStart) (p : ℕ) :
    Reads byteStep p parser (name++[58,32]) [] { parser with
      cs := .valueStart, fieldStart := p, fieldLen := name.length, mark := p+name.length+1 } := by
  obtain ⟨b,bs,rfl⟩ := List.exists_cons_of_ne_nil hne
  obtain ⟨htoken,-,-,hlf,hcr,-,-⟩ := tchar_facts b (hname b List.mem_cons_self)
  have hfirst : Reads byteStep p parser [b] []
      { parser with cs := .fieldName, fieldStart := p } := by
    refine reads_byte parser [.startField] ?_ (by decide) (by decide)
    rw [hcs]
    simp [step, hlf, hcr, htoken]
  have hrest : Reads byteStep (p+1) { parser with cs := .fieldName, fieldStart := p } bs []
      { parser with cs := .fieldName, fieldStart := p } := by
    refine reads_silent _ (silent_loop (show State.fieldName ≠ .error by decide) fun c hc => ?_)
    have htoken := (tchar_facts c (hname c (List.mem_cons_of_mem _ hc))).1
    simp [step, htoken]
  have hcolon : Reads byteStep (p+(b :: bs).length)
      { parser with cs := .fieldName, fieldStart := p } [58] [] { parser with
        cs := .valueStart, fieldStart := p, fieldLen := p+(b :: bs).length-p } :=
    reads_byte _ [.writeField] rfl (by decide) (by decide)
  have hblank : Reads byteStep (p+(b :: bs).length+1) { parser with
        cs := .valueStart, fieldStart := p, fieldLen := p+(b :: bs).length-p } [32] []
      { parser with
        cs := .valueStart, fieldStart := p, fieldLen := p+(b :: bs).length-p,
        mark := p+(b :: bs).length+1 } :=
    reads_byte _ [.startValue] rfl (by decide) (by decide)
  rw [Nat.add_sub_cancel_left] at hcolon hblank
  exact (hfirst.cons hrest).trans (hcolon.cons hblank)

theorem reads_lineEnd (parser : HttpParser) (hcs : parser.cs = .lineEnd) (p : ℕ) :
    Reads byteStep p parser [10] [] { parser with cs := .headerStart } := by
  refine reads_silent parser ?_
  rw [hcs]
  rfl

theorem reads_value (parser : HttpParser) {value : Bytes} (hvalue : IsFieldValue value)
    (hcs : parser.cs = .valueStart) (p : ℕ) :
    Reads byteStep p parser (value++[13,10])
      [.httpField parser.fieldStart parser.fieldLen p (p+value.length)]
      { parser with cs := .headerStart, mark := p } := by
  cases value with
  | nil =>
    have hcr : Reads byteStep p parser [13] [.httpField parser.fieldStart parser.fieldLen p p]
        { parser with cs := .lineEnd, mark := p } := by
      refine reads_byte parser [.startValue,.writeValue] ?_ (by decide) (by decide)
      rw [hcs]
      rfl
    exact hcr.cons (reads_lineEnd _ rfl (p+1))
  | cons c cs =>
    obtain ⟨hcontent,hlf,hcr⟩ := hvalue.1 c List.mem_cons_self
    obtain ⟨htab,hblank⟩ := hvalue.2 c rfl
    have hfirst : Reads byteStep p parser [c] [] { parser with cs := .value, mark := p } := by
      refine reads_byte parser [.startValue] ?_ (by decide) (by decide)
      rw [hcs]
      simp [step, hlf, hcr, htab, hblank, hcontent]
    have hrest : Reads byteStep (p+1) { parser with cs := .value, mark := p } cs []
        { parser with cs := .value, mark := p } := by
      refine reads_silent _ (silent_loop (show State.value ≠ .error by decide) fun d hd => ?_)
      obtain ⟨hcontent,hlf,hcr⟩ := hvalue.1 d (List.mem_cons_of_mem _ hd)
      simp [step, hlf, hcr, hcontent]
    have hend : Reads byteStep (p+(c :: cs).length) { parser with cs := .value, mark := p } [13]
        [.httpField parser.fieldStart parser.fieldLen p (p+(c :: cs).length)]
        { parser with cs := .lineEnd, mark := p } :=
      reads_byte _ [.writeValue] rfl (by decide) (by decide)
    exact (hfirst.cons hrest).trans (hend.cons (reads_lineEnd _ rfl _))

/-- The callback for the line of a header at offset `p`. -/
def fieldCall (p : ℕ) (e : Bytes × Bytes) : Callback :=
  .httpField p e.1.length (p+e.1.length+2) (p+e.1.length+2+e.2.length)

/-- The fields of the parser that no header changes. -/
structure Same (parser q : HttpParser) : Prop where
  uriRelaxed : q.uriRelaxed = parser.uriRelaxed
  xmlSent : q.xmlSent = parser.xmlSent
  jsonSent : q.jsonSent = parser.jsonSent

theorem reads_line (parser : HttpParser) {e : Bytes × Bytes} (hne : e.1 ≠ [])
    (hname : ∀ b ∈ e.1, isTchar b) (hvalue : IsFieldValue e.2) (hcs : parser.cs = .headerStart)
    (p : ℕ) :
    ∃ q, Reads byteStep p parser (fieldLine e) [fieldCall p e] q ∧ q.cs = .headerStart ∧
      Same parser q := by
  have hlen : p+(e.1++[58,32]).length = p+e.1.length+2 := by
    rw [List.length_append, ← Nat.add_assoc]
    rfl
  have hvalue' := reads_value { parser with
    cs := .valueStart, fieldStart := p, fieldLen := e.1.length, mark := p+e.1.length+1 } hvalue rfl
    (p+e.1.length+2)
  rw [← hlen] at hvalue'
  have hline := (reads_name parser hne hname hcs p).trans hvalue'
  rw [hlen] at hline
  rw [fieldLine_eq, List.append_assoc (e.1++[58,32])]
  exact ⟨_,hline,rfl,⟨rfl,rfl,rfl⟩⟩

/-! ### All lines -/

/-- The callbacks for the lines of headers from offset `p` on. -/
def fieldCalls : ℕ → List (Bytes × Bytes) → List Callback
  | _, [] => []
  | p, e :: es => fieldCall p e :: fieldCalls (p+(fieldLine e).length) es

theorem reads_lines {es : List (Bytes × Bytes)} (hnames : ∀ e ∈ es, e.1 ≠ [])
    (htchars : ∀ e ∈ es, ∀ b ∈ e.1, isTchar b) (hvalues : ∀ e ∈ es, IsFieldValue e.2)
    (parser : HttpParser) (hcs : parser.cs = .headerStart) (p : ℕ) :
    ∃ q, Reads byteStep p parser (es.flatMap fieldLine) (fieldCalls p es) q ∧
      q.cs = .headerStart ∧ Same parser q := by
  induction es generalizing parser p with
  | nil => exact ⟨parser,.refl _ _ _,hcs,⟨rfl,rfl,rfl⟩⟩
  | cons e es ih =>
    obtain ⟨q,hreads,hq,hsame⟩ := reads_line parser (hnames e List.mem_cons_self)
      (htchars e List.mem_cons_self) (hvalues e List.mem_cons_self) hcs p
    obtain ⟨r,hreads',hr,hsame'⟩ := ih (fun d hd => hnames d (List.mem_cons_of_mem _ hd))
      (fun d hd => htchars d (List.mem_cons_of_mem _ hd))
      (fun d hd => hvalues d (List.mem_cons_of_mem _ hd)) q hq (p+(fieldLine e).length)
    exact ⟨r,hreads.trans hreads',hr,⟨hsame'.uriRelaxed.trans hsame.uriRelaxed,
      hsame'.xmlSent.trans hsame.xmlSent,hsame'.jsonSent.trans hsame.jsonSent⟩⟩

/-- What the callback for a line sets. -/
theorem callback_fieldCall {buffer post : Bytes} {p : ℕ} {e : Bytes × Bytes} (hne : e.1 ≠ [])
    (h : buffer.drop p = fieldLine e++post) :
    callback buffer (fieldCall p e) = .ok (.setHeader e.1 e.2) := by
  have hpos : e.1.length ≠ 0 := fun h => hne (List.length_eq_zero_iff.mp h)
  obtain ⟨hname,hvalue⟩ := slices_fieldLine h
  rw [fieldCall, callback, onRequestHttpField, if_neg hpos, hname, Nat.add_sub_cancel_left, hvalue]

theorem callbacks_fieldCalls {buffer post : Bytes} {p : ℕ} {es : List (Bytes × Bytes)}
    (hne : ∀ e ∈ es, e.1 ≠ []) (h : buffer.drop p = es.flatMap fieldLine++post) :
    List.Forall₂ (fun c u => callback buffer c = .ok u) (fieldCalls p es)
      (es.map fun e => .setHeader e.1 e.2) := by
  induction es generalizing p with
  | nil => exact .nil
  | cons e es ih =>
    rw [List.flatMap_cons, List.append_assoc] at h
    refine .cons (callback_fieldCall (hne e List.mem_cons_self) h) ?_
    refine ih (fun d hd => hne d (List.mem_cons_of_mem _ hd)) ?_
    rw [← List.drop_drop, h, List.drop_left]

end HttpParser
end CoroutineWebserve.Http
