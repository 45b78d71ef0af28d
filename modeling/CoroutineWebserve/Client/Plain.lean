import CoroutineWebserve.Client.RoundTrip
import Mathlib.Data.List.TakeWhile

/-!
# Responses without chunks

The alternative for `Transfer-Encoding: chunked` follows the lines of all headers. A line of another
name it leaves at the colon at the latest, and the parser is not told of chunks.
-/
namespace CoroutineWebserve.Client
open Http Ragel

namespace Special

/-- What an alternative does besides moving on. -/
theorem step_facts {k : Special} {place : Place} {b : UInt8} {move : Move} {actions : List Action}
    (h : k.step place b = some (move,actions)) :
    (move = .ends → b = 10) ∧ .chunkSize ∉ actions ∧ .done ∉ actions ∧
      (.transChunked ∈ actions → k = .transferEncodingChunked) := by
  cases place with
  | name n =>
    simp only [step] at h
    split_ifs at h <;> cases h
    all_goals cases k <;> simp [nameActions, nameEndActions]
  | space =>
    simp only [step] at h
    split_ifs at h <;> cases h
    all_goals cases k <;> simp [valueActions]
  | value n =>
    simp only [step] at h
    split_ifs at h with hlf <;> cases h
    all_goals cases k <;> simp_all [valueEndActions, lineActions]
  | lineEnd =>
    simp only [step] at h
    split_ifs at h with hlf
    cases h
    cases k <;> simp [lineActions, hlf]

end Special

namespace HttpclientParser
variable {parser : HttpclientParser}

theorem runActions_chunked {buffer : Bytes} {p : ℕ} {actions : List Action}
    (htrans : .transChunked ∉ actions) (hsize : .chunkSize ∉ actions) :
    (runActions buffer p parser actions).1.chunked = parser.chunked := by
  induction actions generalizing parser with
  | nil => rfl
  | cons a actions ih =>
    rw [List.mem_cons, not_or] at htrans hsize
    rw [runActions]
    cases a with
    | transChunked => exact absurd rfl htrans.1
    | chunkSize => exact absurd rfl hsize.1
    | _ => exact ih htrans.2 hsize.2

/-- The parser is in the headers, has not been told of chunks, and the alternative that would tell
it is at places `P`. -/
def Plain (parser : HttpclientParser) (line : Line) (P : Place → Prop) : Prop :=
  ∃ closing specials, parser.cs = .header line closing specials ∧
    (∀ place, (.transferEncodingChunked,place) ∈ specials → P place) ∧ parser.chunked = false

/-- A byte of the headers. -/
theorem Plain.step {line next : Line} {P Q : Place → Prop} {b : UInt8} {acts : List Action}
    (h : parser.Plain line P) (hline : line.step b = (next,acts)) (hnext : next ≠ .none)
    (hends : b = 10 → next = .start)
    (hacts : .transChunked ∉ acts ∧ .chunkSize ∉ acts ∧ .done ∉ acts)
    (hmove : ∀ place move actions, P place ∨ line = .start ∧ place = .name 0 →
      Special.step .transferEncodingChunked place b = some (move,actions) →
      (∀ place', move = .to place' → Q place') ∧ .transChunked ∉ actions)
    (buffer : Bytes) (p : ℕ) :
    ∃ q calls, q.Plain next Q ∧ Reads (byteStep buffer) p parser [b] calls q := by
  obtain ⟨closing,specials,hcs,hplaces,hchunked⟩ := h
  have hopen : ∀ place, (.transferEncodingChunked,place) ∈ openSpecials line specials →
      P place ∨ line = .start ∧ place = .name 0 := by
    intro place hs
    rcases List.mem_append.mp hs with hs | hs
    · exact .inl (hplaces place hs)
    · split_ifs at hs with hstart
      · simp only [List.mem_cons, Prod.mk.injEq, reduceCtorEq, false_and, true_and,
          List.not_mem_nil, or_false] at hs
        exact .inr ⟨hstart,hs⟩
      · cases hs
  have hmoved : ∀ m ∈ moves (openSpecials line specials) b, (m.2.1 = .ends → b = 10) ∧
      .chunkSize ∉ m.2.2 ∧ .done ∉ m.2.2 ∧ .transChunked ∉ m.2.2 ∧
      (m.1 = .transferEncodingChunked → ∀ place', m.2.1 = .to place' → Q place') := by
    intro m hm
    obtain ⟨s,hs,hsome⟩ := List.mem_filterMap.mp hm
    obtain ⟨x,hx,rfl⟩ := Option.map_eq_some_iff.mp hsome
    obtain ⟨hlf,hsize,hdone,htrans⟩ := Special.step_facts hx
    have hkind : s.1 = .transferEncodingChunked →
        (∀ place', x.1 = .to place' → Q place') ∧ .transChunked ∉ x.2 := by
      obtain ⟨k,place⟩ := s
      rintro rfl
      exact hmove place x.1 x.2 (hopen place hs) hx
    exact ⟨hlf,hsize,hdone,fun hmem => (hkind (htrans hmem)).2 hmem,fun hk => (hkind hk).1⟩
  have hstep : ∃ closing' specials' actions,
      Client.step parser.cs b = (.header next closing' specials',actions) ∧
      (∀ place, (.transferEncodingChunked,place) ∈ specials' → Q place) ∧
      .transChunked ∉ actions ∧ .chunkSize ∉ actions ∧ .done ∉ actions := by
    rw [hcs]
    simp only [Client.step]
    unfold headerStep
    extract_lets moved ended next' places
    have hnext' : next' = next := by
      simp only [next', hline]
      split
      · rfl
      · next hne =>
        obtain ⟨m,hm⟩ := List.exists_mem_of_ne_nil _ hne
        obtain ⟨hm,hend⟩ := List.mem_filter.mp hm
        exact (hends ((hmoved m hm).1 (of_decide_eq_true hend))).symm
    rw [if_neg (by rw [hnext']; exact fun h => hnext h.1), hnext', hline]
    have hno {a : Action} (hclose : a ≠ .writeConnectionClose) (hacts : a ∉ acts)
        (hmem : ∀ m ∈ moved, a ∉ m.2.2) :
        a ∉ ((if closing then [Action.writeConnectionClose] else [])++moved.flatMap (·.2.2)
          ++acts).eraseDups := by
      rw [List.mem_eraseDups, List.mem_append, List.mem_append, not_or, not_or, List.mem_flatMap]
      refine ⟨⟨?_,?_⟩,hacts⟩
      · split <;> simp [hclose]
      · rintro ⟨m,hm,ha⟩
        exact hmem m hm ha
    refine ⟨_,_,_,rfl,fun place hs => ?_,hno (by decide) hacts.1 fun m hm => (hmoved m hm).2.2.2.1,
      hno (by decide) hacts.2.1 fun m hm => (hmoved m hm).2.1,
      hno (by decide) hacts.2.2 fun m hm => (hmoved m hm).2.2.1⟩
    obtain ⟨m,hm,hplace⟩ := List.mem_filterMap.mp hs
    split at hplace
    · next place' hto =>
      obtain ⟨hkind,rfl⟩ := Prod.mk.inj (Option.some.inj hplace)
      exact (hmoved m hm).2.2.2.2 hkind _ hto
    · cases hplace
  obtain ⟨closing',specials',actions,hstep,hplaces',htrans,hsize,hdone⟩ := hstep
  refine ⟨_,_,⟨closing',specials',enter_cs ..,hplaces',?_⟩,
    reads_byte parser hstep (by simp) hdone⟩
  exact (runActions_chunked htrans hsize).trans hchunked

/-- Behind the name the alternative has gone, and it does not come back inside a line. -/
theorem Plain.go {line next : Line} {b : UInt8} {acts : List Action}
    (h : parser.Plain line fun _ => False) (hstart : line ≠ .start)
    (hline : line.step b = (next,acts)) (hnext : next ≠ .none) (hends : b = 10 → next = .start)
    (hacts : .transChunked ∉ acts ∧ .chunkSize ∉ acts ∧ .done ∉ acts) (buffer : Bytes) (p : ℕ) :
    ∃ q calls, q.Plain next (fun _ => False) ∧ Reads (byteStep buffer) p parser [b] calls q :=
  h.step hline hnext hends hacts
    (fun _ _ _ hplace => (hplace.elim id fun hs => hstart hs.1).elim) buffer p

/-! ### The name -/

/-- The alternative has read `pre`. -/
def Follows (pre : Bytes) (place : Place) : Prop :=
  place = .name pre.length ∧
    pre.map tolower = Special.transferEncodingChunked.name.take pre.length

theorem Follows.step {pre : Bytes} {place : Place} {b : UInt8} (h : Follows pre place)
    (hb : b ≠ 58) {move : Special.Move} {actions : List Action}
    (hstep : Special.step .transferEncodingChunked place b = some (move,actions)) :
    (∀ place', move = .to place' → Follows (pre++[b]) place') ∧ .transChunked ∉ actions := by
  obtain ⟨rfl,hpre⟩ := h
  simp only [Special.step, hb, and_false, if_false] at hstep
  split_ifs at hstep with hnext hzero
  all_goals
    cases hstep
    refine ⟨?_,by decide⟩
    rintro _ ⟨⟩
    refine ⟨by rw [List.length_append]; rfl,?_⟩
    rw [List.map_append, hpre, List.length_append, List.length_singleton, List.take_add_one, hnext]
    rfl

theorem Follows.colon {pre : Bytes} {place : Place} (h : Follows pre place)
    (hpre : pre.map tolower ≠ Special.transferEncodingChunked.name) :
    Special.step .transferEncodingChunked place 58 = none := by
  obtain ⟨rfl,htake⟩ := h
  have hnext : Special.transferEncodingChunked.name[pre.length]? ≠ some (tolower 58) := fun hnext =>
    absurd (List.mem_of_getElem? hnext) (by decide)
  have hlen : pre.length ≠ Special.transferEncodingChunked.name.length := by
    intro hlen
    rw [hlen, List.take_length] at htake
    exact hpre htake
  simp only [Special.step, if_neg hnext, hlen, false_and, if_false]

theorem Plain.read_name {pre bs : Bytes} (hbs : ∀ b ∈ bs, isToken b) (buffer : Bytes) (p : ℕ)
    (h : parser.Plain .name (Follows pre)) :
    ∃ q calls, q.Plain .name (Follows (pre++bs)) ∧ Reads (byteStep buffer) p parser bs calls q := by
  induction bs generalizing parser pre p with
  | nil => exact ⟨parser,[],by rwa [List.append_nil],.refl _ _ _⟩
  | cons b bs ih =>
    have hb := hbs b List.mem_cons_self
    obtain ⟨hlf,-,hcolon,-⟩ := token_facts b hb
    obtain ⟨q,calls,hplain,hreads⟩ := h.step
      (show Line.name.step b = (.name,[]) by simp [Line.step, hb]) (by decide)
      (fun h => absurd h hlf) (by decide)
      (fun place move actions hplace hstep =>
        Follows.step (hplace.elim id fun hs => nomatch hs.1) hcolon hstep) buffer p
    obtain ⟨r,more,hplain',hreads'⟩ := ih (fun c hc => hbs c (List.mem_cons_of_mem _ hc)) (p+1)
      hplain
    exact ⟨r,calls++more,by rwa [List.append_assoc] at hplain',hreads.cons hreads'⟩

/-- The first byte of a name. -/
theorem Plain.read_start (h : parser.Plain .start fun _ => False) {b : UInt8} (hb : isToken b)
    (buffer : Bytes) (p : ℕ) :
    ∃ q calls, q.Plain .name (Follows [b]) ∧ Reads (byteStep buffer) p parser [b] calls q := by
  obtain ⟨hlf,hcr,hcolon,-⟩ := token_facts b hb
  refine h.step (show Line.start.step b = (.name,[.startField]) by simp [Line.step, hlf, hcr, hb])
    (by decide) (fun h => absurd h hlf) (by decide) (fun place move actions hplace hstep => ?_)
    buffer p
  obtain ⟨-,rfl⟩ := hplace.resolve_left id
  have hnil : Follows [] (.name 0) := ⟨rfl,rfl⟩
  exact hnil.step hcolon hstep

/-! ### The rest of the line -/

theorem Plain.read_value {bs : Bytes} (hbs : ∀ b ∈ bs, b ≠ 10 ∧ b ≠ 13) (buffer : Bytes) (p : ℕ)
    (h : parser.Plain .value fun _ => False) :
    ∃ q calls, q.Plain .value (fun _ => False) ∧ Reads (byteStep buffer) p parser bs calls q := by
  induction bs generalizing parser p with
  | nil => exact ⟨parser,[],h,.refl _ _ _⟩
  | cons b bs ih =>
    obtain ⟨hlf,hcr⟩ := hbs b List.mem_cons_self
    obtain ⟨q,calls,hplain,hreads⟩ := h.go (by decide)
      (show Line.value.step b = (.value,[]) by simp [Line.step, hlf, hcr]) (by decide)
      (fun h => absurd h hlf) (by decide) buffer p
    obtain ⟨r,more,hplain',hreads'⟩ := ih (fun c hc => hbs c (List.mem_cons_of_mem _ hc)) (p+1)
      hplain
    exact ⟨r,calls++more,hplain',hreads.cons hreads'⟩

/-- The value, from the blank behind the colon to the end of the line. -/
theorem Plain.read_valueLine (h : parser.Plain .valueStart fun _ => False) {value : Bytes}
    (hvalue : IsFieldValue value) (buffer : Bytes) (p : ℕ) :
    ∃ q calls, q.Plain .lineEnd (fun _ => False) ∧
      Reads (byteStep buffer) p parser (value++[13]) calls q := by
  cases value with
  | nil =>
    exact h.go (by decide)
      (show Line.valueStart.step 13 = (.lineEnd,[.startValue,.writeValue]) by decide) (by decide)
      (by decide) (by decide) buffer p
  | cons c cs =>
    obtain ⟨hlf,hcr⟩ := hvalue.1 c List.mem_cons_self
    have hspace := hvalue.2 c rfl
    obtain ⟨q₁,calls₁,hplain₁,hreads₁⟩ := h.go (by decide)
      (show Line.valueStart.step c = (.value,[.startValue]) by simp [Line.step, hlf, hcr, hspace])
      (by decide) (fun h => absurd h hlf) (by decide) buffer p
    obtain ⟨q₂,calls₂,hplain₂,hreads₂⟩ := hplain₁.read_value
      (fun d hd => hvalue.1 d (List.mem_cons_of_mem _ hd)) buffer (p+1)
    obtain ⟨q₃,calls₃,hplain₃,hreads₃⟩ := hplain₂.go (by decide)
      (show Line.value.step 13 = (.lineEnd,[.writeValue]) by decide) (by decide) (by decide)
      (by decide) buffer (p+(c :: cs).length)
    exact ⟨q₃,_,hplain₃,(hreads₁.cons hreads₂).trans hreads₃⟩

/-- The line of another header. -/
theorem Plain.read_line (h : parser.Plain .start fun _ => False) {e : Bytes × Bytes}
    (hne : e.1 ≠ []) (hname : ∀ b ∈ e.1, isToken b)
    (hother : e.1.map tolower ≠ Special.transferEncodingChunked.name) (hvalue : IsFieldValue e.2)
    (buffer : Bytes) (p : ℕ) :
    ∃ q calls, q.Plain .start (fun _ => False) ∧
      Reads (byteStep buffer) p parser (fieldLine e) calls q := by
  obtain ⟨name,value⟩ := e
  obtain ⟨b,bs,rfl⟩ := List.exists_cons_of_ne_nil hne
  obtain ⟨q₁,calls₁,hplain₁,hreads₁⟩ := h.read_start (hname b List.mem_cons_self) buffer p
  obtain ⟨q₂,calls₂,hplain₂,hreads₂⟩ :=
    hplain₁.read_name (fun c hc => hname c (List.mem_cons_of_mem _ hc)) buffer (p+1)
  have hname₂ := hreads₁.cons hreads₂
  obtain ⟨q₃,calls₃,hplain₃,hreads₃⟩ : ∃ q calls, q.Plain .valueStart (fun _ => False) ∧
      Reads (byteStep buffer) (p+(b :: bs).length) q₂ [58] calls q :=
    hplain₂.step (show Line.name.step 58 = (.valueStart,[.writeField]) by decide) (by decide)
      (by decide) (by decide) (fun place move actions hplace hstep => by
        have hfollows := hplace.resolve_right fun hs => nomatch hs.1
        rw [Follows.colon hfollows hother] at hstep
        cases hstep) buffer _
  obtain ⟨q₄,calls₄,hplain₄,hreads₄⟩ := hplain₃.go (by decide)
    (show Line.valueStart.step 32 = (.valueStart,[.startValue]) by decide) (by decide) (by decide)
    (by decide) buffer (p+(b :: bs).length+1)
  obtain ⟨q₅,calls₅,hplain₅,hreads₅⟩ := hplain₄.read_valueLine hvalue buffer (p+(b :: bs).length+1+1)
  obtain ⟨q₆,calls₆,hplain₆,hreads₆⟩ := hplain₅.go (by decide)
    (show Line.lineEnd.step 10 = (.start,[]) by decide) (by decide) (by decide) (by decide) buffer
    (p+(b :: bs).length+1+1+(value++[13]).length)
  have hline := hname₂.trans (hreads₃.cons (hreads₄.cons (hreads₅.trans hreads₆)))
  have htext : fieldLine (b :: bs,value) = (b :: bs)++58 :: 32 :: (value++[13]++[10]) := by
    simp [fieldLine_eq]
  rw [htext]
  exact ⟨q₆,_,hplain₆,hline⟩

theorem Plain.read_lines {es : List (Bytes × Bytes)} (hnames : ∀ e ∈ es, e.1 ≠ [])
    (htokens : ∀ e ∈ es, ∀ b ∈ e.1, isToken b)
    (hothers : ∀ e ∈ es, e.1.map tolower ≠ Special.transferEncodingChunked.name)
    (hvalues : ∀ e ∈ es, IsFieldValue e.2) (buffer : Bytes) (p : ℕ)
    (h : parser.Plain .start fun _ => False) :
    ∃ q calls, q.Plain .start (fun _ => False) ∧
      Reads (byteStep buffer) p parser (es.flatMap fieldLine) calls q := by
  induction es generalizing parser p with
  | nil => exact ⟨parser,[],h,.refl _ _ _⟩
  | cons e es ih =>
    obtain ⟨q,calls,hplain,hreads⟩ := h.read_line (hnames e List.mem_cons_self)
      (htokens e List.mem_cons_self) (hothers e List.mem_cons_self) (hvalues e List.mem_cons_self)
      buffer p
    obtain ⟨r,more,hplain',hreads'⟩ := ih (fun d hd => hnames d (List.mem_cons_of_mem _ hd))
      (fun d hd => htokens d (List.mem_cons_of_mem _ hd))
      (fun d hd => hothers d (List.mem_cons_of_mem _ hd))
      (fun d hd => hvalues d (List.mem_cons_of_mem _ hd)) (p+(fieldLine e).length) hplain
    exact ⟨r,calls++more,hplain',hreads.trans hreads'⟩

/-- The CR of the empty line. -/
theorem Plain.read_cr (h : parser.Plain .start fun _ => False) (buffer : Bytes) (p : ℕ) :
    ∃ q calls, q.Plain .headEnd (fun _ => False) ∧ Reads (byteStep buffer) p parser [13] calls q := by
  refine h.step (show Line.start.step 13 = (.headEnd,[]) by decide) (by decide) (by decide)
    (by decide) (fun place move actions hplace hstep => ?_) buffer p
  obtain ⟨-,rfl⟩ := hplace.resolve_left id
  cases hstep

end HttpclientParser

namespace HttpResponse
open HttpclientParser

/-- A response that names no transfer encoding. -/
def NoEncoding (r : HttpResponse) : Prop :=
  ∀ e ∈ r.headers, folded e.1 ≠ bytes "transfer-encoding"

theorem map_tolower {name : Bytes} (h : ∀ b ∈ name, isToken b) : name.map tolower = folded name := by
  have hno : ∀ b ∈ name, b ≠ 0 := by
    intro b hb hzero
    have htoken := h b hb
    rw [hzero] at htoken
    exact absurd htoken (by decide)
  rw [folded, cStr, List.takeWhile_eq_self_iff.mpr fun b hb => decide_eq_true (hno b hb)]

theorem fields_other {r : HttpResponse} (h : r.Sendable) (hplain : r.NoEncoding) :
    ∀ e ∈ r.fields, e.1.map tolower ≠ Special.transferEncodingChunked.name := by
  intro e he
  rw [map_tolower (fields_facts h e he).2.1]
  rcases List.mem_append.mp he with he | he
  · exact hplain e he
  · rcases List.mem_cons.mp he with rfl | he
    · cases r.close <;> decide
    · rw [lengthFields] at he
      split at he
      · cases he
      · obtain rfl := List.mem_singleton.mp he
        exact of_decide_eq_true rfl

/-- The parser that has read such a head knows of no chunks. -/
theorem parser_execute_plain {r : HttpResponse} (h : r.Sendable) (hplain : r.NoEncoding)
    (rest : Bytes) : (HttpclientParser.init.execute (r.head++rest)).1.chunked = false := by
  have hfacts := fields_facts h
  have hothers := fields_other h hplain
  have hbuffer := r.head_append rest
  generalize r.head++rest = buffer at hbuffer ⊢
  obtain ⟨q₁,hcs₁,hchunked₁,hreads₁⟩ := reads_statusLine h buffer
  have hplain₁ : q₁.Plain .start fun _ => False := ⟨false,[],hcs₁,nofun,hchunked₁⟩
  obtain ⟨q₂,calls₂,hplain₂,hreads₂⟩ := hplain₁.read_lines (fun e he => (hfacts e he).1)
    (fun e he => (hfacts e he).2.1) hothers (fun e he => (hfacts e he).2.2) buffer
    (0+r.statusLine.length)
  obtain ⟨q₂',hat₂,hreads₂'⟩ : ∃ q, q.At .start (fun _ => False) ∧
      Reads (byteStep buffer) (0+r.statusLine.length) q₁ (r.fields.flatMap fieldLine)
        (fieldCalls (0+r.statusLine.length) r.fields) q := by
    obtain ⟨es,e,hfields,hlast⟩ := r.fields_concat
    rw [hfields] at hfacts ⊢
    obtain ⟨q,hat,-,hreads⟩ := (At.of_start hcs₁).read_lines_concat (fun d hd => (hfacts d hd).1)
      (fun d hd => (hfacts d hd).2.1) (fun d hd => (hfacts d hd).2.2) hlast buffer
      (0+r.statusLine.length)
    exact ⟨q,hat,hreads⟩
  obtain rfl := hreads₂.unique hreads₂'
  obtain ⟨q₃,calls₃,hplain₃,hreads₃⟩ := hplain₂.read_cr buffer
    (0+(r.statusLine++r.fields.flatMap fieldLine).length)
  obtain ⟨q₃',hcs₃,hreads₃',-⟩ := hat₂.read_cr buffer
    (0+(r.statusLine++r.fields.flatMap fieldLine).length)
  obtain rfl := hreads₃.unique hreads₃'
  obtain ⟨-,-,-,-,hchunked₃⟩ := hplain₃
  have hrun := ((hreads₁.trans hreads₂).trans hreads₃).run_done
    (byteStep_headEnd hcs₃ buffer _) rest
  have hexec : HttpclientParser.init.exec buffer 0 buffer =
      run (byteStep buffer) .init 0 ((r.statusLine++r.fields.flatMap fieldLine++[13])++10 :: rest) := by
    rw [exec_eq_run, hbuffer]
    simp
  have hreset : HttpclientParser.init.reset = .init := rfl
  simp only [HttpclientParser.execute, hreset, hexec, hrun, hchunked₃]

end HttpResponse
end CoroutineWebserve.Client
