import CoroutineWebserve.Client.StartLine
import CoroutineWebserve.Http.HeaderMap
import CoroutineWebserve.Ragel.Run

/-!
# Header lines of responses

While `fields` reads a header line, the special alternatives read it too. Whatever places they
have come to, they set no offset that `fields` does not set at the same byte, or sets again
before it is read.
-/
namespace CoroutineWebserve.Client
open Http Ragel

theorem nodup_eraseDups {α : Type*} [BEq α] [LawfulBEq α] (l : List α) : l.eraseDups.Nodup := by
  match l with
  | [] => exact List.nodup_nil
  | a :: l =>
    have hlt : (l.filter fun b => !b == a).length < l.length+1 :=
      Nat.lt_succ_of_le (List.length_filter_le ..)
    rw [List.eraseDups_cons, List.nodup_cons]
    exact ⟨by simp,nodup_eraseDups _⟩
termination_by l.length

/-- The bytes of a value that a response can carry. -/
def IsFieldValue (value : Bytes) : Prop :=
  (∀ b ∈ value, b ≠ 10 ∧ b ≠ 13) ∧ ∀ b ∈ value.head?, isSpace b = false

instance : DecidablePred IsFieldValue := fun value =>
  decidable_of_iff ((value.all fun b => b ≠ 10 ∧ b ≠ 13) ∧ value.head?.all fun b => !isSpace b)
    (by cases value <;> simp [IsFieldValue])

/-! ### The transition of all alternatives -/

/-- On `b` the special alternatives go from places `P` to places `Q`, or end where the line
does, and do nothing outside of `allowed`. -/
def Moves (b : UInt8) (P Q : Place → Prop) (next : Line) (allowed : List Action) : Prop :=
  ∀ (k : Special) place move actions, P place → k.step place b = some (move,actions) →
    (∀ place', move = .to place' → Q place') ∧ (move = .ends → next = .start) ∧
      actions ⊆ allowed

/-- What a step in the headers is: the actions of the special alternatives come first, and none
comes twice. -/
theorem headerStep_eq {line next : Line} {closing : Bool} {specials : List (Special × Place)}
    {b : UInt8} {acts allowed : List Action} {P Q : Place → Prop}
    (hP : ∀ s ∈ openSpecials line specials, P s.2) (hmove : Moves b P Q next allowed)
    (hline : line.step b = (next,acts)) (hnext : next ≠ .none)
    (hclose : closing → .writeConnectionClose ∈ allowed) :
    ∃ closing' specials' first,
      headerStep line closing specials b =
        (.header next closing' specials',(first++acts).eraseDups) ∧
      (∀ s ∈ specials', Q s.2) ∧ (closing' → next = .start) ∧ first ⊆ allowed := by
  have hmoved : ∀ m ∈ moves (openSpecials line specials) b,
      (∀ place', m.2.1 = .to place' → Q place') ∧ (m.2.1 = .ends → next = .start) ∧
        m.2.2 ⊆ allowed := by
    intro m hm
    obtain ⟨s,hs,hsome⟩ := List.mem_filterMap.mp hm
    obtain ⟨x,hx,rfl⟩ := Option.map_eq_some_iff.mp hsome
    exact hmove _ _ _ _ (hP s hs) hx
  unfold headerStep
  extract_lets moved ended next' places
  have hended : ∀ m ∈ ended, next = .start := fun m hm => by
    obtain ⟨hm,hends⟩ := List.mem_filter.mp hm
    exact (hmoved m hm).2.1 (of_decide_eq_true hends)
  have hnext' : next' = next := by
    simp only [next', hline]
    split
    · rfl
    · next hne =>
      obtain ⟨m,hm⟩ := List.exists_mem_of_ne_nil _ hne
      exact (hended m hm).symm
  rw [if_neg (by rw [hnext']; exact fun h => hnext h.1), hnext', hline]
  refine ⟨_,_,_,rfl,?_,?_,?_⟩
  · intro s hs
    obtain ⟨m,hm,hplace⟩ := List.mem_filterMap.mp hs
    split at hplace
    · next place hto =>
      cases hplace
      exact (hmoved m hm).1 place hto
    · cases hplace
  · intro hany
    obtain ⟨m,hm,-⟩ := List.any_eq_true.mp hany
    exact hended m hm
  · intro a ha
    rcases List.mem_append.mp ha with ha | ha
    · cases closing with
      | false => cases ha
      | true =>
        obtain rfl := List.mem_singleton.mp ha
        exact hclose rfl
    · obtain ⟨m,hm,ha⟩ := List.mem_flatMap.mp ha
      exact (hmoved m hm).2.2 ha

/-! ### What the actions leave -/

namespace HttpclientParser
variable {buffer : Bytes} {p : ℕ} {parser : HttpclientParser} {actions : List Action}

/-- The actions that touch neither the offsets nor the callbacks. -/
def quiet : List Action := [.writeContentLen,.writeConnectionClose,.transChunked]

theorem runActions_fieldStart (buffer : Bytes) (p : ℕ) (parser : HttpclientParser)
    (actions : List Action) : (runActions buffer p parser actions).1.fieldStart =
      if .startField ∈ actions then p else parser.fieldStart := by
  induction actions generalizing parser with
  | nil => rfl
  | cons a actions ih =>
    rw [runActions]
    cases a <;> simp [runAction, ih]

theorem runActions_mark (buffer : Bytes) (p : ℕ) (parser : HttpclientParser)
    (actions : List Action) : (runActions buffer p parser actions).1.mark =
      if .mark ∈ actions ∨ .startValue ∈ actions then p else parser.mark := by
  induction actions generalizing parser with
  | nil => rfl
  | cons a actions ih =>
    rw [runActions]
    cases a <;> simp [runAction, ih]

theorem runActions_fieldLen (h : .startField ∉ actions) :
    (runActions buffer p parser actions).1.fieldLen =
      if .writeField ∈ actions then p-parser.fieldStart else parser.fieldLen := by
  induction actions generalizing parser with
  | nil => rfl
  | cons a actions ih =>
    have hrest : .startField ∉ actions := fun h' => h (List.mem_cons_of_mem _ h')
    rw [runActions]
    cases a with
    | startField => exact absurd List.mem_cons_self h
    | _ => simp [runAction, ih hrest]

/-- Callbacks are made by `writeValue` alone. -/
theorem runActions_calls (h : actions ⊆ .writeValue :: quiet) :
    (runActions buffer p parser actions).2 = List.replicate (actions.count .writeValue)
      (.httpField parser.fieldStart parser.fieldLen parser.mark p) := by
  induction actions generalizing parser with
  | nil => rfl
  | cons a actions ih =>
    have ha := h List.mem_cons_self
    have hrest : actions ⊆ .writeValue :: quiet := fun x hx => h (List.mem_cons_of_mem _ hx)
    rw [runActions]
    cases a with
    | writeValue => simp [runAction, ih hrest, List.replicate_succ]
    | writeContentLen | writeConnectionClose | transChunked => simp [runAction, ih hrest]
    | _ => exact absurd ha (by decide)

theorem runActions_calls_of_offsets
    (h : actions ⊆ [.startField,.startValue,.writeField]++quiet) :
    (runActions buffer p parser actions).2 = [] := by
  induction actions generalizing parser with
  | nil => rfl
  | cons a actions ih =>
    have ha := h List.mem_cons_self
    have hrest : actions ⊆ [.startField,.startValue,.writeField]++quiet := fun x hx =>
      h (List.mem_cons_of_mem _ hx)
    rw [runActions]
    cases a with
    | startField | startValue | writeField | writeContentLen | writeConnectionClose
    | transChunked => simp [runAction, ih hrest]
    | _ => exact absurd ha (by decide)

/-! ### Reading a part of the text -/

/-- What the parser does with a byte. -/
def byteStep (buffer : Bytes) (parser : HttpclientParser) (p : ℕ) (b : UInt8) :
    Outcome HttpclientParser Callback :=
  let (cs,actions) := step parser.cs b
  if cs = .error then .stop { parser with cs }
  else
    let (parser,calls) := parser.enter buffer p cs actions
    if .done ∈ actions then .done parser calls else .go parser calls

theorem exec_eq_run (buffer : Bytes) (parser : HttpclientParser) (p : ℕ) (bs : Bytes) :
    parser.exec buffer p bs = run (byteStep buffer) parser p bs := by
  induction bs generalizing parser p with
  | nil => rfl
  | cons b bs ih =>
    simp only [exec, run, byteStep, ih]
    split_ifs <;> rfl

/-- One byte. -/
theorem reads_byte (parser : HttpclientParser) {b : UInt8} {cs : State}
    (hstep : step parser.cs b = (cs,actions)) (hcs : cs ≠ .error) (hdone : .done ∉ actions) :
    Reads (byteStep buffer) p parser [b] (parser.enter buffer p cs actions).2
      (parser.enter buffer p cs actions).1 :=
  .of_go (by simp only [byteStep, hstep, if_neg hcs, if_neg hdone])

/-- Bytes without actions. -/
theorem reads_silent (parser : HttpclientParser) {bs : Bytes} {cs : State}
    (h : silent .error step parser.cs bs = some cs) :
    Reads (byteStep buffer) p parser bs [] { parser with cs } := by
  refine Reads.of_silent (fun cs => { parser with cs }) ?_ h p
  intro s t p b hstep ht
  simp only [byteStep, hstep, if_neg ht]
  rfl

/-- The parser is in the headers, at `line` in `fields` and at places `P` in the special
alternatives. -/
def At (parser : HttpclientParser) (line : Line) (P : Place → Prop) : Prop :=
  ∃ closing specials, parser.cs = .header line closing specials ∧ (∀ s ∈ specials, P s.2) ∧
    (closing → line = .start)

theorem At.mono {line : Line} {P Q : Place → Prop} (h : parser.At line P)
    (hPQ : ∀ place, P place → Q place) : parser.At line Q := by
  obtain ⟨closing,specials,hcs,hplaces,hclosing⟩ := h
  exact ⟨closing,specials,hcs,fun s hs => hPQ _ (hplaces s hs),hclosing⟩

/-- A byte of the headers. -/
theorem At.step {line next : Line} {P Q : Place → Prop} {b : UInt8}
    {acts allowed : List Action} (h : parser.At line P)
    (hmove : Moves b (fun place => P place ∨ line = .start ∧ place = .name 0) Q next allowed)
    (hline : line.step b = (next,acts)) (hnext : next ≠ .none)
    (hclose : line = .start → .writeConnectionClose ∈ allowed) (hdone : .done ∉ allowed++acts)
    (buffer : Bytes) (p : ℕ) :
    ∃ cs first, (parser.enter buffer p cs (first++acts).eraseDups).1.At next Q ∧
      Reads (byteStep buffer) p parser [b] (parser.enter buffer p cs (first++acts).eraseDups).2
        (parser.enter buffer p cs (first++acts).eraseDups).1 ∧ first ⊆ allowed := by
  obtain ⟨closing,specials,hcs,hplaces,hclosing⟩ := h
  have hopen : ∀ s ∈ openSpecials line specials, P s.2 ∨ line = .start ∧ s.2 = .name 0 := by
    intro s hs
    rcases List.mem_append.mp hs with hs | hs
    · exact .inl (hplaces s hs)
    · rcases Decidable.em (line = .start) with hstart | hstart
      · rw [if_pos hstart, List.mem_cons, List.mem_cons, List.mem_singleton] at hs
        refine .inr ⟨hstart,?_⟩
        rcases hs with rfl | rfl | rfl <;> rfl
      · rw [if_neg hstart] at hs
        cases hs
  obtain ⟨closing',specials',first,hstep,hplaces',hclosing',hfirst⟩ :=
    headerStep_eq hopen hmove hline hnext fun hclosed => hclose (hclosing hclosed)
  have hstep' : Client.step parser.cs b =
      (.header next closing' specials',(first++acts).eraseDups) := by
    rw [hcs]
    exact hstep
  refine ⟨_,first,⟨closing',specials',enter_cs ..,hplaces',hclosing'⟩,?_,hfirst⟩
  refine reads_byte parser hstep' (by simp) fun hd => hdone ?_
  rw [List.mem_eraseDups, List.mem_append] at hd
  exact List.mem_append.mpr (hd.imp_left fun hd => hfirst hd)

/-! ### The parts of a line -/

/-- The places of the alternatives inside a name: in their own names, or in a value that has
begun where the line has. -/
def InName : Place → Prop
  | .name n => n ≠ 0
  | .value _ => True
  | .space | .lineEnd => False

def InValue : Place → Prop
  | .value _ => True
  | .name _ | .space | .lineEnd => False

theorem token_facts (b : UInt8) : isToken b = true →
    b ≠ 10 ∧ b ≠ 13 ∧ b ≠ 58 ∧ isSpace b = false := by
  revert b
  exact forall_byte (by decide +kernel)

theorem moves_start {b : UInt8} (hb : isToken b) :
    Moves b (fun place => place = .space ∨ Line.start = .start ∧ place = .name 0) InName .name
      ([.startField,.startValue]++quiet) := by
  obtain ⟨-,-,hcolon,hspace⟩ := token_facts b hb
  rintro k _ move actions (rfl | ⟨-,rfl⟩) hstep
  · simp only [Special.step, hspace, Bool.false_eq_true, if_false] at hstep
    split_ifs at hstep
    cases hstep
    exact ⟨by rintro _ ⟨⟩; trivial,nofun,by cases k <;> decide⟩
  · simp only [Special.step, hcolon, and_false, if_false, if_true] at hstep
    split_ifs at hstep
    cases hstep
    exact ⟨by rintro _ ⟨⟩; exact Nat.one_ne_zero,nofun,by cases k <;> decide⟩

/-- A colon or a CR is in no value. -/
theorem not_isValueByte {k : Special} {n : ℕ} {b : UInt8} (hb : b = 58 ∨ b = 13) :
    ¬k.IsValueByte n b := by
  cases k with
  | contentLength => rcases hb with rfl | rfl <;> exact of_decide_eq_false rfl
  | transferEncodingChunked | connClose =>
    intro h
    have hmem := List.mem_of_getElem? h
    rcases hb with rfl | rfl <;> revert hmem <;> decide

/-- Inside a value a byte that ends no line is one more of it. -/
theorem step_value {k : Special} {n : ℕ} {b : UInt8} {move : Special.Move}
    {actions : List Action} (hlf : b ≠ 10) (hcr : b ≠ 13)
    (hstep : k.step (.value n) b = some (move,actions)) :
    (∃ m, move = .to (.value m)) ∧ actions = [] := by
  simp only [Special.step, hlf, hcr, and_false, if_false] at hstep
  split at hstep
  · cases hstep
    exact ⟨⟨_,rfl⟩,rfl⟩
  · cases hstep

theorem moves_name {b : UInt8} (hb : isToken b) :
    Moves b (fun place => InName place ∨ Line.name = .start ∧ place = .name 0) InName .name
      quiet := by
  obtain ⟨hlf,hcr,hcolon,hspace⟩ := token_facts b hb
  rintro k place move actions (hplace | ⟨h,-⟩) hstep
  · cases place with
    | space | lineEnd => cases hplace
    | name n =>
      simp only [Special.step, hcolon, and_false, if_false, if_neg hplace] at hstep
      split_ifs at hstep
      cases hstep
      exact ⟨by rintro _ ⟨⟩; exact n.succ_ne_zero,nofun,by simp⟩
    | value n =>
      obtain ⟨⟨m,rfl⟩,rfl⟩ := step_value hlf hcr hstep
      exact ⟨by rintro _ ⟨⟩; trivial,nofun,by simp⟩
  · cases h

theorem moves_colon :
    Moves 58 (fun place => InName place ∨ Line.name = .start ∧ place = .name 0) (· = .space)
      .valueStart (.writeField :: quiet) := by
  rintro k place move actions (hplace | ⟨h,-⟩) hstep
  · cases place with
    | space | lineEnd => cases hplace
    | name n =>
      have hnot : k.name[n]? ≠ some (tolower 58) := by
        intro h
        have hmem := List.mem_of_getElem? h
        revert hmem
        cases k <;> decide
      simp only [Special.step, if_neg hnot] at hstep
      split_ifs at hstep
      cases hstep
      exact ⟨by rintro _ ⟨⟩; rfl,nofun,by cases k <;> decide⟩
    | value n =>
      have hnot : ¬k.IsValueByte n 58 := not_isValueByte (by decide)
      simp [Special.step, hnot] at hstep
  · cases h

theorem moves_blank :
    Moves 32 (fun place => place = .space ∨ Line.valueStart = .start ∧ place = .name 0)
      (· = .space) .valueStart (.startValue :: quiet) := by
  rintro k _ move actions (rfl | ⟨h,-⟩) hstep
  · cases hstep
    exact ⟨by rintro _ ⟨⟩; rfl,nofun,by simp⟩
  · cases h

theorem moves_first {b : UInt8} (hb : isSpace b = false) :
    Moves b (fun place => place = .space ∨ Line.valueStart = .start ∧ place = .name 0)
      InValue .value (.startValue :: quiet) := by
  rintro k _ move actions (rfl | ⟨h,-⟩) hstep
  · simp only [Special.step, hb, Bool.false_eq_true, if_false] at hstep
    split_ifs at hstep
    cases hstep
    exact ⟨by rintro _ ⟨⟩; trivial,nofun,by cases k <;> decide⟩
  · cases h

theorem moves_value {b : UInt8} (hlf : b ≠ 10) (hcr : b ≠ 13) :
    Moves b (fun place => InValue place ∨ Line.value = .start ∧ place = .name 0) InValue .value
      quiet := by
  rintro k place move actions (hplace | ⟨h,-⟩) hstep
  · cases place with
    | name | space | lineEnd => cases hplace
    | value n =>
      obtain ⟨⟨m,rfl⟩,rfl⟩ := step_value hlf hcr hstep
      exact ⟨by rintro _ ⟨⟩; trivial,nofun,by simp⟩
  · cases h

theorem moves_value_cr :
    Moves 13 (fun place => InValue place ∨ Line.value = .start ∧ place = .name 0)
      (· = .lineEnd) .lineEnd (.writeValue :: quiet) := by
  rintro k place move actions (hplace | ⟨h,-⟩) hstep
  · cases place with
    | name | space | lineEnd => cases hplace
    | value n =>
      have hnot : ¬k.IsValueByte n 13 := not_isValueByte (by decide)
      simp only [Special.step, hnot, if_false] at hstep
      split_ifs at hstep with h
      · exact absurd h.2 (by decide)
      · cases hstep
        exact ⟨by rintro _ ⟨⟩; rfl,nofun,by cases k <;> decide⟩
  · cases h

/-- Behind an empty value the alternatives take the end of the line for blanks. -/
theorem moves_empty_cr :
    Moves 13 (fun place => place = .space ∨ Line.valueStart = .start ∧ place = .name 0)
      (· = .space) .lineEnd [] := by
  rintro k _ move actions (rfl | ⟨h,-⟩) hstep
  · cases hstep
    exact ⟨by rintro _ ⟨⟩; rfl,nofun,by simp⟩
  · cases h

theorem moves_lineEnd_lf :
    Moves 10 (fun place => place = .lineEnd ∨ Line.lineEnd = .start ∧ place = .name 0)
      (fun _ => False) .start quiet := by
  rintro k _ move actions (rfl | ⟨h,-⟩) hstep
  · cases hstep
    exact ⟨nofun,fun _ => rfl,by cases k <;> decide⟩
  · cases h

theorem moves_space_lf :
    Moves 10 (fun place => place = .space ∨ Line.lineEnd = .start ∧ place = .name 0)
      (· = .space) .start quiet := by
  rintro k _ move actions (rfl | ⟨h,-⟩) hstep
  · cases hstep
    exact ⟨by rintro _ ⟨⟩; rfl,nofun,by simp⟩
  · cases h

/-- A byte at which nothing is called back with. -/
theorem At.step_offsets {line next : Line} {P Q : Place → Prop} {b : UInt8}
    {acts allowed : List Action} (h : parser.At line P)
    (hmove : Moves b (fun place => P place ∨ line = .start ∧ place = .name 0) Q next allowed)
    (hline : line.step b = (next,acts)) (hnext : next ≠ .none) (hacts : acts ⊆ allowed)
    (hquiet : quiet ⊆ allowed) (hallowed : allowed ⊆ [.startField,.startValue,.writeField]++quiet)
    (buffer : Bytes) (p : ℕ) :
    ∃ q actions, q.At next Q ∧ Reads (byteStep buffer) p parser [b] [] q ∧ acts ⊆ actions ∧
      actions ⊆ allowed ∧
      q.fieldStart = (if .startField ∈ actions then p else parser.fieldStart) ∧
      q.mark = (if .mark ∈ actions ∨ .startValue ∈ actions then p else parser.mark) ∧
      (.startField ∉ actions →
        q.fieldLen = if .writeField ∈ actions then p-parser.fieldStart else parser.fieldLen) := by
  have hdone : .done ∉ allowed++acts := fun hd =>
    absurd (hallowed ((List.mem_append.mp hd).elim id fun hd => hacts hd)) (by decide)
  obtain ⟨cs,first,hat,hreads,hfirst⟩ :=
    h.step hmove hline hnext (fun _ => hquiet (by decide)) hdone buffer p
  have hsub : (first++acts).eraseDups ⊆ allowed := by
    intro a ha
    rw [List.mem_eraseDups] at ha
    exact (List.mem_append.mp ha).elim (fun ha => hfirst ha) fun ha => hacts ha
  have hcalls : (parser.enter buffer p cs (first++acts).eraseDups).2 = [] :=
    runActions_calls_of_offsets fun a ha => hallowed (hsub ha)
  rw [hcalls] at hreads
  refine ⟨_,_,hat,hreads,fun a ha => ?_,hsub,runActions_fieldStart ..,runActions_mark ..,
    runActions_fieldLen⟩
  rw [List.mem_eraseDups]
  exact List.mem_append_right _ ha

/-- The first byte of a name. -/
theorem At.read_start (h : parser.At .start (· = .space)) {b : UInt8} (hb : isToken b)
    (buffer : Bytes) (p : ℕ) :
    ∃ q, q.At .name InName ∧ Reads (byteStep buffer) p parser [b] [] q ∧ q.fieldStart = p := by
  obtain ⟨hlf,hcr,-,-⟩ := token_facts b hb
  obtain ⟨q,actions,hat,hreads,hmem,-,hstart,-⟩ := h.step_offsets (moves_start hb)
    (show Line.start.step b = (.name,[.startField]) by simp [Line.step, hlf, hcr, hb])
    (by decide) (by decide) (by decide) (by decide) buffer p
  refine ⟨q,hat,hreads,?_⟩
  rw [hstart, if_pos (hmem List.mem_cons_self)]

theorem At.read_name {bs : Bytes} (hbs : ∀ b ∈ bs, isToken b) (buffer : Bytes) (p : ℕ)
    (h : parser.At .name InName) :
    ∃ q, q.At .name InName ∧ Reads (byteStep buffer) p parser bs [] q ∧
      q.fieldStart = parser.fieldStart := by
  induction bs generalizing parser p with
  | nil => exact ⟨parser,h,.refl _ _ _,rfl⟩
  | cons b bs ih =>
    have hb := hbs b List.mem_cons_self
    obtain ⟨q,actions,hat,hreads,-,hsub,hstart,-⟩ := h.step_offsets (moves_name hb)
      (show Line.name.step b = (.name,[]) by simp [Line.step, hb]) (by decide)
      (List.nil_subset _) (by decide) (by decide) buffer p
    obtain ⟨r,hat',hreads',hstart'⟩ := ih (fun c hc => hbs c (List.mem_cons_of_mem _ hc)) (p+1)
      hat
    refine ⟨r,hat',hreads.cons hreads',?_⟩
    rw [hstart', hstart, if_neg fun hmem => absurd (hsub hmem) (by decide)]

/-- The colon and the blank behind it. -/
theorem At.read_colon (h : parser.At .name InName) (buffer : Bytes) (p : ℕ) :
    ∃ q, q.At .valueStart (· = .space) ∧ Reads (byteStep buffer) p parser [58,32] [] q ∧
      q.fieldStart = parser.fieldStart ∧ q.fieldLen = p-parser.fieldStart := by
  obtain ⟨q,actions,hat,hreads,hmem,hsub,hstart,-,hlen⟩ := h.step_offsets moves_colon
    (show Line.name.step 58 = (.valueStart,[.writeField]) by decide) (by decide) (by decide)
    (by decide) (by decide) buffer p
  have hno : .startField ∉ actions := fun hmem => absurd (hsub hmem) (by decide)
  obtain ⟨r,actions',hat',hreads',-,hsub',hstart',-,hlen'⟩ := hat.step_offsets moves_blank
    (show Line.valueStart.step 32 = (.valueStart,[.startValue]) by decide) (by decide) (by decide)
    (by decide) (by decide) buffer (p+1)
  have hno' : .startField ∉ actions' := fun hmem => absurd (hsub' hmem) (by decide)
  refine ⟨r,hat',hreads.cons hreads',?_,?_⟩
  · rw [hstart', if_neg hno', hstart, if_neg hno]
  · rw [hlen' hno', if_neg fun hmem => absurd (hsub' hmem) (by decide), hlen hno,
      if_pos (hmem List.mem_cons_self)]

/-- The first byte of a value. -/
theorem At.read_first (h : parser.At .valueStart (· = .space)) {b : UInt8}
    (hlf : b ≠ 10) (hcr : b ≠ 13) (hb : isSpace b = false) (buffer : Bytes) (p : ℕ) :
    ∃ q, q.At .value InValue ∧ Reads (byteStep buffer) p parser [b] [] q ∧
      q.fieldStart = parser.fieldStart ∧ q.fieldLen = parser.fieldLen ∧ q.mark = p := by
  obtain ⟨q,actions,hat,hreads,hmem,hsub,hstart,hmark,hlen⟩ := h.step_offsets (moves_first hb)
    (show Line.valueStart.step b = (.value,[.startValue]) by simp [Line.step, hlf, hcr, hb])
    (by decide) (by decide) (by decide) (by decide) buffer p
  have hno : .startField ∉ actions := fun hmem => absurd (hsub hmem) (by decide)
  refine ⟨q,hat,hreads,?_,?_,?_⟩
  · rw [hstart, if_neg hno]
  · rw [hlen hno, if_neg fun hmem => absurd (hsub hmem) (by decide)]
  · rw [hmark, if_pos (.inr (hmem List.mem_cons_self))]

theorem At.read_value {bs : Bytes} (hbs : ∀ b ∈ bs, b ≠ 10 ∧ b ≠ 13) (buffer : Bytes) (p : ℕ)
    (h : parser.At .value InValue) :
    ∃ q, q.At .value InValue ∧ Reads (byteStep buffer) p parser bs [] q ∧
      q.fieldStart = parser.fieldStart ∧ q.fieldLen = parser.fieldLen ∧
      q.mark = parser.mark := by
  induction bs generalizing parser p with
  | nil => exact ⟨parser,h,.refl _ _ _,rfl,rfl,rfl⟩
  | cons b bs ih =>
    obtain ⟨hlf,hcr⟩ := hbs b List.mem_cons_self
    obtain ⟨q,actions,hat,hreads,-,hsub,hstart,hmark,hlen⟩ := h.step_offsets
      (moves_value hlf hcr) (show Line.value.step b = (.value,[]) by simp [Line.step, hlf, hcr])
      (by decide) (List.nil_subset _) (by decide) (by decide) buffer p
    have hno : .startField ∉ actions := fun hmem => absurd (hsub hmem) (by decide)
    obtain ⟨r,hat',hreads',hstart',hlen',hmark'⟩ :=
      ih (fun c hc => hbs c (List.mem_cons_of_mem _ hc)) (p+1) hat
    refine ⟨r,hat',hreads.cons hreads',?_,?_,?_⟩
    · rw [hstart', hstart, if_neg hno]
    · rw [hlen', hlen hno, if_neg fun hmem => absurd (hsub hmem) (by decide)]
    · rw [hmark', hmark, if_neg]
      rintro (hmem | hmem)
      · exact absurd (hsub hmem) (by decide)
      · exact absurd (hsub hmem) (by decide)

/-- The end of a line with a value: `write_value` runs once. -/
theorem At.read_end (h : parser.At .value InValue) (buffer : Bytes) (p : ℕ) :
    ∃ q, q.At .start (fun _ => False) ∧ Reads (byteStep buffer) p parser [13,10]
        [.httpField parser.fieldStart parser.fieldLen parser.mark p] q ∧
      q.fieldStart = parser.fieldStart ∧ q.fieldLen = parser.fieldLen ∧
      q.mark = parser.mark := by
  obtain ⟨cs,first,hat,hreads,hfirst⟩ := h.step moves_value_cr
    (show Line.value.step 13 = (.lineEnd,[.writeValue]) by decide) (by decide) nofun (by decide)
    buffer p
  generalize hactions : (first++[Action.writeValue]).eraseDups = actions at hat hreads
  have hmem : .writeValue ∈ actions := by simp [← hactions]
  have hsub : actions ⊆ .writeValue :: quiet := by
    intro a ha
    rw [← hactions, List.mem_eraseDups] at ha
    exact (List.mem_append.mp ha).elim (fun ha => hfirst ha) fun ha => by simp_all
  have hcalls : (parser.enter buffer p cs actions).2 =
      [.httpField parser.fieldStart parser.fieldLen parser.mark p] := by
    have hone : actions.count .writeValue = 1 :=
      List.count_eq_one_of_mem (hactions ▸ nodup_eraseDups _) hmem
    rw [enter, runActions_calls hsub, hone, List.replicate_one]
  obtain ⟨q,actions',hat',hreads',-,hsub',hstart,hmark,hlen⟩ := hat.step_offsets
    moves_lineEnd_lf (show Line.lineEnd.step 10 = (.start,[]) by decide) (by decide)
    (List.nil_subset _) (by decide) (by decide) buffer (p+1)
  have hno {a : Action} (ha : a ∉ quiet) : a ∉ actions' := fun hmem => ha (hsub' hmem)
  have hno' {a : Action} (ha : a ∉ .writeValue :: quiet) : a ∉ actions := fun hmem =>
    ha (hsub hmem)
  rw [hcalls] at hreads
  refine ⟨q,hat',hreads.cons hreads',?_,?_,?_⟩
  · rw [hstart, if_neg (hno (by decide)), enter, runActions_fieldStart,
      if_neg (hno' (by decide))]
  · rw [hlen (hno (by decide)), if_neg (hno (by decide)), enter,
      runActions_fieldLen (hno' (by decide)), if_neg (hno' (by decide))]
  · rw [hmark, if_neg (not_or.mpr ⟨hno (by decide),hno (by decide)⟩), enter, runActions_mark,
      if_neg (not_or.mpr ⟨hno' (by decide),hno' (by decide)⟩)]

/-- The end of a line without a value. -/
theorem At.read_empty (h : parser.At .valueStart (· = .space)) (buffer : Bytes) (p : ℕ) :
    ∃ q, q.At .start (· = .space) ∧ Reads (byteStep buffer) p parser [13,10]
        [.httpField parser.fieldStart parser.fieldLen p p] q := by
  obtain ⟨cs,first,hat,hreads,hfirst⟩ := h.step moves_empty_cr
    (show Line.valueStart.step 13 = (.lineEnd,[.startValue,.writeValue]) by decide) (by decide)
    nofun (by decide) buffer p
  obtain rfl := List.subset_nil.mp hfirst
  obtain ⟨q,-,hat',hreads',-⟩ := hat.step_offsets moves_space_lf
    (show Line.lineEnd.step 10 = (.start,[]) by decide) (by decide) (List.nil_subset _)
    (by decide) (by decide) buffer (p+1)
  exact ⟨q,hat',hreads.cons hreads'⟩

/-- The callback for the line of a header at offset `p`. -/
def fieldCall (p : ℕ) (e : Bytes × Bytes) : Callback :=
  .httpField p e.1.length (p+e.1.length+2) (p+e.1.length+2+e.2.length)

/-- A line is called back with once, whatever alternatives its name and value fit. -/
theorem At.read_line (h : parser.At .start (· = .space)) {e : Bytes × Bytes} (hne : e.1 ≠ [])
    (hname : ∀ b ∈ e.1, isToken b) (hvalue : IsFieldValue e.2) (buffer : Bytes) (p : ℕ) :
    ∃ q, q.At .start (· = .space) ∧ Reads (byteStep buffer) p parser (fieldLine e) [fieldCall p e] q ∧
      (e.2 ≠ [] → q.At .start (fun _ => False) ∧ q.fieldStart = p ∧ q.fieldLen = e.1.length ∧
        q.mark = p+e.1.length+2) := by
  obtain ⟨name,value⟩ := e
  obtain ⟨b,bs,rfl⟩ := List.exists_cons_of_ne_nil hne
  obtain ⟨q₁,hat₁,hreads₁,hstart₁⟩ := h.read_start (hname b List.mem_cons_self) buffer p
  obtain ⟨q₂,hat₂,hreads₂,hstart₂⟩ :=
    hat₁.read_name (fun c hc => hname c (List.mem_cons_of_mem _ hc)) buffer (p+1)
  obtain ⟨q₃,hat₃,hreads₃,hstart₃,hlen₃⟩ := hat₂.read_colon buffer (p+1+bs.length)
  have hcolon : Reads (byteStep buffer) p parser (b :: bs++[58,32]) [] q₃ := by
    refine (hreads₁.cons hreads₂).trans ?_
    rwa [List.length_cons, ← Nat.add_assoc, Nat.add_right_comm]
  have hfieldLen : q₃.fieldLen = (b :: bs).length := by
    rw [hlen₃, hstart₂, hstart₁, List.length_cons]
    omega
  rw [hstart₂, hstart₁] at hstart₃
  have hlen : p+(b :: bs++[58,32]).length = p+(b :: bs).length+2 := by
    rw [List.length_append, Nat.add_assoc]
    rfl
  rw [fieldLine_eq]
  cases value with
  | nil =>
    obtain ⟨q,hat,hreads⟩ := hat₃.read_empty buffer (p+(b :: bs).length+2)
    refine ⟨q,hat,?_,fun h => absurd rfl h⟩
    rw [hstart₃, hfieldLen] at hreads
    rw [List.append_nil]
    exact hcolon.trans (by rwa [hlen])
  | cons c cs =>
    obtain ⟨hlf,hcr⟩ := hvalue.1 c List.mem_cons_self
    obtain ⟨q₄,hat₄,hreads₄,hstart₄,hlen₄,hmark₄⟩ :=
      hat₃.read_first hlf hcr (hvalue.2 c rfl) buffer (p+(b :: bs).length+2)
    obtain ⟨q₅,hat₅,hreads₅,hstart₅,hlen₅,hmark₅⟩ :=
      hat₄.read_value (fun d hd => hvalue.1 d (List.mem_cons_of_mem _ hd)) buffer
        (p+(b :: bs).length+2+1)
    obtain ⟨q,hat,hreads,hstart,hlen',hmark⟩ :=
      hat₅.read_end buffer (p+(b :: bs).length+2+(c :: cs).length)
    have hvalue' : Reads (byteStep buffer) (p+(b :: bs).length+2) q₃ (c :: cs) [] q₅ := hreads₄.cons hreads₅
    rw [hmark₅, hmark₄, hlen₅, hlen₄, hstart₅, hstart₄, hstart₃, hfieldLen] at hreads
    have hline := (hcolon.trans (by rwa [hlen])).trans
      (by rwa [List.length_append, ← Nat.add_assoc, hlen])
    refine ⟨q,hat.mono fun _ h => h.elim,hline,fun _ => ⟨hat,?_,?_,?_⟩⟩
    · rw [hstart, hstart₅, hstart₄, hstart₃]
    · rw [hlen', hlen₅, hlen₄, hfieldLen]
    · rw [hmark, hmark₅, hmark₄]

/-- The callbacks for the lines of headers from offset `p` on. -/
def fieldCalls : ℕ → List (Bytes × Bytes) → List Callback
  | _, [] => []
  | p, e :: es => fieldCall p e :: fieldCalls (p+(fieldLine e).length) es

theorem At.read_lines {es : List (Bytes × Bytes)} (hnames : ∀ e ∈ es, e.1 ≠ [])
    (htokens : ∀ e ∈ es, ∀ b ∈ e.1, isToken b) (hvalues : ∀ e ∈ es, IsFieldValue e.2)
    (buffer : Bytes) (p : ℕ) (h : parser.At .start (· = .space)) :
    ∃ q, q.At .start (· = .space) ∧
      Reads (byteStep buffer) p parser (es.flatMap fieldLine) (fieldCalls p es) q := by
  induction es generalizing parser p with
  | nil => exact ⟨parser,h,.refl _ _ _⟩
  | cons e es ih =>
    obtain ⟨q,hat,hreads,-⟩ := h.read_line (hnames e List.mem_cons_self)
      (htokens e List.mem_cons_self) (hvalues e List.mem_cons_self) buffer p
    obtain ⟨r,hat',hreads'⟩ := ih (fun d hd => hnames d (List.mem_cons_of_mem _ hd))
      (fun d hd => htokens d (List.mem_cons_of_mem _ hd))
      (fun d hd => hvalues d (List.mem_cons_of_mem _ hd)) (p+(fieldLine e).length) hat
    exact ⟨r,hat',hreads.trans hreads'⟩

theorem fieldCalls_concat (p : ℕ) (es : List (Bytes × Bytes)) (e : Bytes × Bytes) :
    fieldCalls p (es++[e]) = fieldCalls p es++[fieldCall (p+(es.flatMap fieldLine).length) e] := by
  induction es generalizing p with
  | nil => rfl
  | cons d es ih =>
    rw [List.cons_append, fieldCalls, ih, List.flatMap_cons, List.length_append, Nat.add_assoc]
    rfl

/-- Behind a last line with a value, the special alternatives are at their ends too. -/
theorem At.read_lines_concat {es : List (Bytes × Bytes)} {e : Bytes × Bytes}
    (hnames : ∀ d ∈ es++[e], d.1 ≠ []) (htokens : ∀ d ∈ es++[e], ∀ b ∈ d.1, isToken b)
    (hvalues : ∀ d ∈ es++[e], IsFieldValue d.2) (hlast : e.2 ≠ []) (buffer : Bytes) (p : ℕ)
    (h : parser.At .start (· = .space)) :
    ∃ q, q.At .start (fun _ => False) ∧ q.Checked (p+((es++[e]).flatMap fieldLine).length) ∧
      Reads (byteStep buffer) p parser ((es++[e]).flatMap fieldLine) (fieldCalls p (es++[e])) q := by
  have hmem {d : Bytes × Bytes} (hd : d ∈ es) : d ∈ es++[e] := List.mem_append_left _ hd
  have he : e ∈ es++[e] := List.mem_append_right _ List.mem_cons_self
  obtain ⟨q,hat,hreads⟩ := At.read_lines (fun d hd => hnames d (hmem hd))
    (fun d hd => htokens d (hmem hd)) (fun d hd => hvalues d (hmem hd)) buffer p h
  obtain ⟨r,-,hreads',hr⟩ := hat.read_line (hnames e he) (htokens e he) (hvalues e he) buffer
    (p+(es.flatMap fieldLine).length)
  obtain ⟨hat',hstart,hlen,hmark⟩ := hr hlast
  rw [fieldCalls_concat, List.flatMap_append, List.flatMap_singleton]
  refine ⟨r,hat',?_,hreads.trans hreads'⟩
  have hline : (fieldLine e).length = e.1.length+2+e.2.length+2 := by
    simp only [fieldLine_eq, List.length_append, List.length_cons, List.length_nil]
  rw [Checked, hstart, hlen, hmark, List.length_append, hline]
  omega

/-- What the callback for a line sets. -/
theorem callback_fieldCall {buffer post : Bytes} {p : ℕ} {e : Bytes × Bytes} (hne : e.1 ≠ [])
    (h : buffer.drop p = fieldLine e++post) :
    callback buffer (fieldCall p e) = .ok (.setHeader e.1 e.2) := by
  have hpos : e.1.length ≠ 0 := fun h => hne (List.length_eq_zero_iff.mp h)
  obtain ⟨hname,hvalue⟩ := slices_fieldLine h
  rw [fieldCall, callback, onResponseHttpField, if_neg hpos, hname, Nat.add_sub_cancel_left, hvalue]

theorem callbacks_fieldCalls {buffer post : Bytes} {p : ℕ} {es : List (Bytes × Bytes)}
    (hne : ∀ e ∈ es, e.1 ≠ []) (h : buffer.drop p = es.flatMap fieldLine++post) :
    List.Forall₂ (fun c u => callback buffer c = .ok u) (fieldCalls p es)
      (es.map fun e => .setHeader e.1 e.2) := by
  induction es generalizing p with
  | nil => exact .nil
  | cons e es ih =>
    rw [List.flatMap_cons, List.append_assoc] at h
    refine .cons (callback_fieldCall (hne e List.mem_cons_self) h) ?_
    refine ih (fun d hd => hne d (List.mem_cons_of_mem _ hd)) ?_
    rw [← List.drop_drop, h, List.drop_left]

end HttpclientParser

end CoroutineWebserve.Client
