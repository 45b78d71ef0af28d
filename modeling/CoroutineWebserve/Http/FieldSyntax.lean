import CoroutineWebserve.Http.Fields
import CoroutineWebserve.Ragel.Language

/-!
# The syntax of header fields

What the machine takes for the names and values of headers. `HTTP_CTL` has the bytes 0 and 127
only, so that a name may hold every other control character but the tab, and a value all but CR
and LF.
-/
namespace CoroutineWebserve.Http
open Ragel

/-! ### The text of the header lines -/

/-- Bytes that are taken for a name. An LF or a CR LF at the start of a line ends the head. -/
structure IsName (name : Bytes) : Prop where
  ne : name ≠ []
  token : ∀ b ∈ name, isToken b = true
  lf : name.head? ≠ some 10
  crlf : ¬[13,10] <+: name

/-- The text from the start of a header line on, and the fields that are called back with. -/
inductive HeaderText : Bytes → List (Bytes × Bytes) → Prop
  | lf (rest : Bytes) : HeaderText (10 :: rest) []
  | crlf (rest : Bytes) : HeaderText (13 :: 10 :: rest) []
  | line {name blank value eol rest : Bytes} {fields : List (Bytes × Bytes)} (hname : IsName name)
      (hblank : ∀ b ∈ blank, b = 9 ∨ b = 32) (hvalue : IsFieldValue value)
      (heol : eol = [10] ∨ eol = [13,10]) (h : HeaderText rest fields) :
      HeaderText (name++58 :: (blank++(value++(eol++rest)))) ((name,value) :: fields)

/-- The name and the value that a callback gets. -/
def Callback.field (buffer : Bytes) : Callback → Option (Bytes × Bytes)
  | .httpField fieldStart fieldLen mark stop =>
    some ((buffer.drop fieldStart).take fieldLen,slice buffer mark stop)
  | .element .. | .headerDone => none

/-- The fields that `http_field` is called with. -/
def fields (buffer : Bytes) (calls : List Callback) : List (Bytes × Bytes) :=
  calls.filterMap (·.field buffer)

namespace HttpParser
variable {parser last : HttpParser} {p q : ℕ} {bs : Bytes} {calls : List Callback}

theorem add_length_cons (p : ℕ) (b : UInt8) (w : Bytes) :
    p+(b :: w).length = p+1+w.length := by
  rw [List.length_cons, Nat.add_assoc, Nat.add_comm 1]

/-- One byte of a run that goes on behind it. -/
theorem exec_cons {b : UInt8} {cs : State} {actions : List Action}
    (hstep : step parser.uriRelaxed parser.cs b = (cs,actions)) (hcs : cs ≠ .error)
    (hdone : .done ∉ actions) (h : parser.exec p (b :: bs) = (last,q,calls)) :
    ∃ more, calls = (parser.enter p cs actions).2++more ∧
      (parser.enter p cs actions).1.exec (p+1) bs = (last,q,more) := by
  rw [exec, hstep] at h
  simp only [if_neg hcs, if_neg hdone] at h
  cases h
  exact ⟨_,rfl,rfl⟩

/-- A run that stops at once has not come to the end of a request. -/
theorem exec_error {b : UInt8} {actions : List Action}
    (hstep : step parser.uriRelaxed parser.cs b = (.error,actions))
    (h : parser.exec p (b :: bs) = (last,q,calls)) : last.cs ≠ .requestDone := by
  rw [exec, hstep] at h
  simp only [if_true] at h
  cases h
  exact State.noConfusion

theorem exec_nil (hcs : parser.cs ≠ .requestDone) (h : parser.exec p [] = (last,q,calls)) :
    last.cs ≠ .requestDone := by
  cases h
  exact hcs

/-- A run from a name on reads it to its colon. -/
theorem exec_fieldName (hcs : parser.cs = .fieldName) (h : parser.exec p bs = (last,q,calls))
    (hlast : last.cs = .requestDone) : ∃ name rest, bs = name++58 :: rest ∧
      (∀ b ∈ name, isToken b = true) ∧
      { parser with cs := .valueStart, fieldLen := p+name.length-parser.fieldStart }.exec
        (p+name.length+1) rest = (last,q,calls) := by
  induction bs generalizing p calls with
  | nil => exact absurd hlast (exec_nil (by simp [hcs]) h)
  | cons b bs ih =>
    by_cases htoken : isToken b = true
    · have hstep : step parser.uriRelaxed parser.cs b = (.fieldName,[]) := by
        simp [step, hcs, htoken]
      obtain ⟨more,rfl,hmore⟩ := exec_cons hstep (by simp) (by simp) h
      have hsame : (parser.enter p .fieldName []).1 = parser := by
        cases parser
        cases hcs
        rfl
      rw [hsame] at hmore
      obtain ⟨name,rest,rfl,hname,hrest⟩ := ih hmore
      refine ⟨b :: name,rest,rfl,List.forall_mem_cons.mpr ⟨htoken,hname⟩,?_⟩
      rw [add_length_cons]
      exact hrest
    · by_cases hcolon : b = 58
      · subst hcolon
        have hstep : step parser.uriRelaxed parser.cs 58 = (.valueStart,[.writeField]) := by
          simp only [step, hcs]
          rfl
        obtain ⟨more,rfl,hmore⟩ := exec_cons hstep (by simp) (by simp) h
        exact ⟨[],bs,rfl,by simp,hmore⟩
      · have hstep : step parser.uriRelaxed parser.cs b = (.error,[]) := by
          simp [step, hcs, htoken, hcolon]
        exact absurd hlast (exec_error hstep h)

theorem exec_lineEnd (hcs : parser.cs = .lineEnd) (h : parser.exec p bs = (last,q,calls))
    (hlast : last.cs = .requestDone) : ∃ rest, bs = 10 :: rest ∧
      { parser with cs := .headerStart }.exec (p+1) rest = (last,q,calls) := by
  cases bs with
  | nil => exact absurd hlast (exec_nil (by simp [hcs]) h)
  | cons b bs =>
    by_cases hlf : b = 10
    · subst hlf
      have hstep : step parser.uriRelaxed parser.cs 10 = (.headerStart,[]) := by
        simp only [step, hcs]
        rfl
      obtain ⟨more,rfl,hmore⟩ := exec_cons hstep (by simp) (by simp) h
      exact ⟨bs,rfl,hmore⟩
    · have hstep : step parser.uriRelaxed parser.cs b = (.error,[]) := by
        simp [step, hcs, hlf]
      exact absurd hlast (exec_error hstep h)

/-- A line ends with an LF or a CR LF. -/
theorem exec_eol {actions : List Action} (t : HttpParser) (made : List Callback)
    (hlf : step parser.uriRelaxed parser.cs 10 = (.headerStart,actions))
    (hcr : step parser.uriRelaxed parser.cs 13 = (.lineEnd,actions)) (hdone : .done ∉ actions)
    (hactions : ∀ cs, parser.enter p cs actions = ({ t with cs },made)) {b : UInt8}
    (hb : b = 10 ∨ b = 13) (h : parser.exec p (b :: bs) = (last,q,calls))
    (hlast : last.cs = .requestDone) : ∃ eol rest more, b :: bs = eol++rest ∧
      (eol = [10] ∨ eol = [13,10]) ∧ calls = made++more ∧
      { t with cs := .headerStart }.exec (p+eol.length) rest = (last,q,more) := by
  rcases hb with rfl | rfl
  · obtain ⟨more,rfl,hmore⟩ := exec_cons hlf (by simp) hdone h
    rw [hactions] at hmore ⊢
    exact ⟨[10],bs,more,rfl,.inl rfl,rfl,hmore⟩
  · obtain ⟨more,rfl,hmore⟩ := exec_cons hcr (by simp) hdone h
    rw [hactions] at hmore ⊢
    obtain ⟨rest,rfl,hrest⟩ := exec_lineEnd rfl hmore hlast
    exact ⟨[13,10],rest,more,rfl,.inr rfl,rfl,hrest⟩

/-- A run from inside a value on reads it to the end of its line. -/
theorem exec_value (hcs : parser.cs = .value) (h : parser.exec p bs = (last,q,calls))
    (hlast : last.cs = .requestDone) : ∃ value eol rest more, bs = value++(eol++rest) ∧
      (∀ b ∈ value, isContent b ∧ b ≠ 10 ∧ b ≠ 13) ∧ (eol = [10] ∨ eol = [13,10]) ∧
      calls = .httpField parser.fieldStart parser.fieldLen parser.mark (p+value.length) :: more ∧
      { parser with cs := .headerStart }.exec (p+value.length+eol.length) rest =
        (last,q,more) := by
  induction bs generalizing p calls with
  | nil => exact absurd hlast (exec_nil (by simp [hcs]) h)
  | cons b bs ih =>
    by_cases heol : b = 10 ∨ b = 13
    · have hlf : step parser.uriRelaxed parser.cs 10 = (.headerStart,[.writeValue]) := by
        simp only [step, hcs]
        rfl
      have hcr : step parser.uriRelaxed parser.cs 13 = (.lineEnd,[.writeValue]) := by
        simp only [step, hcs]
        rfl
      obtain ⟨eol,rest,more,heq,heol,rfl,hrest⟩ :=
        exec_eol parser [.httpField parser.fieldStart parser.fieldLen parser.mark p] hlf hcr
          (by simp) (fun _ => rfl) heol h hlast
      exact ⟨[],eol,rest,more,heq,by simp,heol,rfl,hrest⟩
    · by_cases hcontent : isContent b = true
      · rw [not_or] at heol
        have hstep : step parser.uriRelaxed parser.cs b = (.value,[]) := by
          simp [step, hcs, heol.1, heol.2, hcontent]
        obtain ⟨more,rfl,hmore⟩ := exec_cons hstep (by simp) (by simp) h
        have hsame : (parser.enter p .value []).1 = parser := by
          cases parser
          cases hcs
          rfl
        rw [hsame] at hmore
        obtain ⟨value,eol,rest,more,rfl,hvalue,heol',rfl,hrest⟩ := ih hmore
        refine ⟨b :: value,eol,rest,more,rfl,
          List.forall_mem_cons.mpr ⟨⟨hcontent,heol⟩,hvalue⟩,heol',?_⟩
        rw [add_length_cons]
        exact ⟨rfl,hrest⟩
      · rw [not_or] at heol
        have hstep : step parser.uriRelaxed parser.cs b = (.error,[]) := by
          simp [step, hcs, heol.1, heol.2, hcontent]
        exact absurd hlast (exec_error hstep h)

/-- Blanks before a value are left out. -/
theorem exec_valueStart (hcs : parser.cs = .valueStart) (h : parser.exec p bs = (last,q,calls))
    (hlast : last.cs = .requestDone) : ∃ blank value eol rest more,
      bs = blank++(value++(eol++rest)) ∧ (∀ b ∈ blank, b = 9 ∨ b = 32) ∧ IsFieldValue value ∧
      (eol = [10] ∨ eol = [13,10]) ∧
      calls = .httpField parser.fieldStart parser.fieldLen (p+blank.length)
        (p+blank.length+value.length) :: more ∧
      { parser with cs := .headerStart, mark := p+blank.length }.exec
        (p+blank.length+value.length+eol.length) rest = (last,q,more) := by
  induction bs generalizing parser p calls with
  | nil => exact absurd hlast (exec_nil (by simp [hcs]) h)
  | cons b bs ih =>
    by_cases heol : b = 10 ∨ b = 13
    · have hlf : step parser.uriRelaxed parser.cs 10 = (.headerStart,[.startValue,.writeValue]) := by
        simp only [step, hcs]
        rfl
      have hcr : step parser.uriRelaxed parser.cs 13 = (.lineEnd,[.startValue,.writeValue]) := by
        simp only [step, hcs]
        rfl
      obtain ⟨eol,rest,more,heq,heol,rfl,hrest⟩ :=
        exec_eol { parser with mark := p } [.httpField parser.fieldStart parser.fieldLen p p] hlf
          hcr (by simp) (fun _ => rfl) heol h hlast
      exact ⟨[],[],eol,rest,more,heq,by simp,⟨by simp,by simp⟩,heol,rfl,hrest⟩
    rw [not_or] at heol
    by_cases hblank : b = 9 ∨ b = 32
    · have hstep : step parser.uriRelaxed parser.cs b = (.valueStart,[.startValue]) := by
        simp only [step, hcs]
        rcases hblank with rfl | rfl <;> rfl
      obtain ⟨more,rfl,hmore⟩ := exec_cons hstep (by simp) (by simp) h
      obtain ⟨blank,value,eol,rest,more,rfl,hblank',hvalue,heol',rfl,hrest⟩ := ih rfl hmore
      refine ⟨b :: blank,value,eol,rest,more,rfl,
        List.forall_mem_cons.mpr ⟨hblank,hblank'⟩,hvalue,heol',?_⟩
      rw [add_length_cons]
      exact ⟨rfl,hrest⟩
    rw [not_or] at hblank
    by_cases hcontent : isContent b = true
    · have hstep : step parser.uriRelaxed parser.cs b = (.value,[.startValue]) := by
        simp [step, hcs, heol.1, heol.2, hblank.1, hblank.2, hcontent]
      obtain ⟨more,rfl,hmore⟩ := exec_cons hstep (by simp) (by simp) h
      obtain ⟨value,eol,rest,more,rfl,hvalue,heol',rfl,hrest⟩ := exec_value rfl hmore hlast
      refine ⟨[],b :: value,eol,rest,more,rfl,by simp,
        ⟨List.forall_mem_cons.mpr ⟨⟨hcontent,heol⟩,hvalue⟩,?_⟩,heol',?_⟩
      · rintro c ⟨⟩
        exact hblank
      · rw [List.length_nil, Nat.add_zero, add_length_cons]
        exact ⟨rfl,hrest⟩
    · have hstep : step parser.uriRelaxed parser.cs b = (.error,[]) := by
        simp [step, hcs, heol.1, heol.2, hblank.1, hblank.2, hcontent]
      exact absurd hlast (exec_error hstep h)

/-- The end of a head makes no field. -/
theorem fields_done {b : UInt8} {actions : List Action} (buffer : Bytes)
    (hstep : step parser.uriRelaxed parser.cs b = (.requestDone,actions))
    (hactions : actions = [.done] ∨ actions = [.startField,.done])
    (h : parser.exec p (b :: bs) = (last,q,calls)) : fields buffer calls = [] := by
  have hdone : .done ∈ actions := by rcases hactions with rfl | rfl <;> simp
  rw [exec, hstep] at h
  simp only [if_neg (show State.requestDone ≠ .error by decide), if_pos hdone] at h
  cases h
  by_cases hsent : (parser.xmlSent || parser.jsonSent) = true
  all_goals rcases hactions with rfl | rfl
  all_goals simp [enter, runActions, runAction, hsent, fields, Callback.field]

/-- A CR at the start of a line begins a name unless an LF follows. -/
theorem exec_headerCr {c : UInt8} (hcs : parser.cs = .headerCr) (hc : c ≠ 10) :
    parser.exec p (c :: bs) = { parser with cs := .fieldName }.exec p (c :: bs) := by
  simp only [exec, step, hcs, if_neg hc]
  rfl

/-- The first bytes of a line and the name behind them. -/
theorem exec_name (first : Bytes) (hcs : parser.cs = .fieldName) (hstart : parser.fieldStart = p)
    (h : parser.exec (p+first.length) bs = (last,q,calls)) (hlast : last.cs = .requestDone) :
    ∃ name rest, bs = name++58 :: rest ∧ (∀ b ∈ name, isToken b = true) ∧
      { parser with cs := .valueStart, fieldStart := p, fieldLen := (first++name).length }.exec
        (p+(first++name).length+1) rest = (last,q,calls) := by
  obtain ⟨name,rest,hsplit,hname,hrest⟩ := exec_fieldName hcs h hlast
  refine ⟨name,rest,hsplit,hname,?_⟩
  rw [hstart, Nat.add_assoc, Nat.add_sub_cancel_left, ← List.length_append] at hrest
  exact hstart ▸ hrest

/-- At the start of a header line the head ends, or a name begins. -/
theorem exec_lineStart (buffer : Bytes) (hcs : parser.cs = .headerStart)
    (h : parser.exec p bs = (last,q,calls)) (hlast : last.cs = .requestDone) :
    ((∃ rest, bs = 10 :: rest ∨ bs = 13 :: 10 :: rest) ∧ fields buffer calls = []) ∨
    ∃ name rest, bs = name++58 :: rest ∧ IsName name ∧
      { parser with cs := .valueStart, fieldStart := p, fieldLen := name.length }.exec
        (p+name.length+1) rest = (last,q,calls) := by
  cases bs with
  | nil => exact absurd hlast (exec_nil (by simp [hcs]) h)
  | cons b bs =>
    by_cases hlf : b = 10
    · subst hlf
      have hstep : step parser.uriRelaxed parser.cs 10 = (.requestDone,[.startField,.done]) := by
        simp only [step, hcs]
        rfl
      exact .inl ⟨⟨bs,.inl rfl⟩,fields_done buffer hstep (.inr rfl) h⟩
    by_cases hcr : b = 13
    · subst hcr
      have hstep : step parser.uriRelaxed parser.cs 13 = (.headerCr,[.startField]) := by
        simp only [step, hcs]
        rfl
      obtain ⟨more,rfl,hmore⟩ := exec_cons hstep (by simp) (by simp) h
      cases bs with
      | nil => exact absurd hlast (exec_nil State.noConfusion hmore)
      | cons c bs =>
        by_cases hlf : c = 10
        · subst hlf
          exact .inl ⟨⟨bs,.inr rfl⟩,fields_done buffer rfl (.inl rfl) hmore⟩
        · rw [exec_headerCr rfl hlf] at hmore
          obtain ⟨name,rest,hsplit,hname,hrest⟩ := exec_name [13] rfl rfl hmore hlast
          have hhead : name.head? ≠ some 10 := by
            intro hhead
            obtain ⟨w,rfl⟩ := List.head?_eq_some_iff.mp hhead
            exact hlf (List.cons.inj hsplit).1
          refine .inr ⟨13 :: name,rest,by rw [hsplit]; rfl,⟨by simp,
            List.forall_mem_cons.mpr ⟨by decide,hname⟩,by simp,fun hcrlf => hhead ?_⟩,hrest⟩
          obtain ⟨w,hw⟩ := hcrlf
          rw [← (List.cons.inj hw).2]
          rfl
    · by_cases htoken : isToken b = true
      · have hstep : step parser.uriRelaxed parser.cs b = (.fieldName,[.startField]) := by
          simp [step, hcs, hlf, hcr, htoken]
        obtain ⟨more,rfl,hmore⟩ := exec_cons hstep (by simp) (by simp) h
        obtain ⟨name,rest,rfl,hname,hrest⟩ := exec_name [b] rfl rfl hmore hlast
        refine .inr ⟨b :: name,rest,rfl,⟨by simp,List.forall_mem_cons.mpr ⟨htoken,hname⟩,
          by simpa using hlf,fun hcrlf => ?_⟩,hrest⟩
        obtain ⟨w,hw⟩ := hcrlf
        exact hcr (List.cons.inj hw).1.symm
      · have hstep : step parser.uriRelaxed parser.cs b = (.error,[]) := by
          simp [step, hcs, hlf, hcr, htoken]
        exact absurd hlast (exec_error hstep h)

/-- A run from the start of a header line on calls back with the fields of the text. -/
theorem exec_headerStart {buffer : Bytes} (hcs : parser.cs = .headerStart)
    (h : parser.exec p bs = (last,q,calls)) (hlast : last.cs = .requestDone)
    (hbuf : buffer.drop p = bs) : HeaderText bs (fields buffer calls) := by
  induction hn : bs.length using Nat.strong_induction_on generalizing parser p bs calls with
  | _ n ih =>
    rcases exec_lineStart buffer hcs h hlast with ⟨⟨rest,rfl | rfl⟩,hnone⟩ | ⟨name,_,rfl,hname,hline⟩
    · rw [hnone]
      exact .lf rest
    · rw [hnone]
      exact .crlf rest
    · obtain ⟨blank,value,eol,rest,more,rfl,hblank,hvalue,heol,rfl,hmore⟩ :=
        exec_valueStart rfl hline hlast
      have hbehind : buffer.drop (p+name.length+1+blank.length) = value++(eol++rest) := by
        rw [← List.drop_drop, ← List.drop_drop, ← List.drop_drop, hbuf, List.drop_left]
        simp
      have hrest : buffer.drop (p+name.length+1+blank.length+value.length+eol.length) = rest := by
        rw [← List.drop_drop, ← List.drop_drop, hbehind, List.drop_left, List.drop_left]
      have hfield : Callback.field buffer (.httpField p name.length
          (p+name.length+1+blank.length) (p+name.length+1+blank.length+value.length)) =
          some (name,value) := by
        rw [Callback.field, slice, hbuf, hbehind, List.take_left, Nat.add_sub_cancel_left,
          List.take_left]
      have hshorter : rest.length < n := by
        rw [← hn]
        simp only [List.length_append, List.length_cons]
        omega
      rw [fields, List.filterMap_cons_some hfield]
      exact .line hname hblank hvalue heol (ih _ hshorter rfl hmore hrest rfl)

end HttpParser

/-! ### The request line -/

/-- The states inside a request line. -/
def State.InLine : State → Prop
  | .start | .method _ | .queryStart | .fragmentStart | .versionStart | .version _ => True
  | .targetStart rest _ | .target rest _ | .query rest | .fragment rest => rest.avoids 10 = true
  | .error | .lineEnd | .headerStart | .headerCr | .fieldName | .valueStart | .value | .xmlName _
  | .xmlData | .xmlClose | .jsonStart _ | .jsonBrace | .jsonData | .jsonClose | .requestDone
  | .socketDone => False

/-- The states of messages in XML and JSON, and where no request goes on. -/
def State.Foreign : State → Prop
  | .error | .xmlName _ | .xmlData | .xmlClose | .jsonStart _ | .jsonBrace | .jsonData | .jsonClose
  | .socketDone => True
  | _ => False

theorem within_foreign {rest : Pattern} {state : Pattern → State} {actions : List Action}
    (h : ∀ p, (state p).Foreign) : (within rest state actions).1.Foreign := by
  unfold within
  split
  · trivial
  · exact h rest

theorem step_foreign (relaxed : Bool) {s : State} (h : s.Foreign) (b : UInt8) :
    (step relaxed s b).1.Foreign := by
  cases s <;> cases h
  case error | socketDone => trivial
  all_goals
    simp only [step]
    split_ifs <;> first | trivial | exact within_foreign fun _ => trivial

/-- What a step inside a request line does: the LF ends the line. -/
structure LineStep (b : UInt8) (t : State × List Action) : Prop where
  silent : .writeValue ∉ t.2
  going : .done ∉ t.2
  next : t.1.Foreign ∨ b = 10 ∧ t.1 = .headerStart ∨ b ≠ 10 ∧ (t.1.InLine ∨ t.1 = .lineEnd)

theorem LineStep.within {rest : Pattern} (state : Pattern → State) {actions : List Action}
    (havoids : rest.avoids 10 = true) (h : ∀ p : Pattern, p.avoids 10 = true → (state p).InLine)
    (hsilent : .writeValue ∉ actions) (hgoing : .done ∉ actions) (b : UInt8) :
    LineStep b (within (rest.after b) state actions) := by
  unfold Http.within
  split
  · exact ⟨by simp,by simp,.inl trivial⟩
  · next hne =>
    refine ⟨hsilent,hgoing,.inr (.inr ⟨?_,.inl (h _ (Pattern.avoids_after havoids b))⟩)⟩
    rintro rfl
    exact hne (Pattern.after_of_avoids havoids)

theorem grammar_avoids (relaxed : Bool) : (Grammar.relativePart relaxed).avoids 10 = true ∧
    (Grammar.hierPart relaxed).avoids 10 = true ∧ (Grammar.query relaxed).avoids 10 = true ∧
    (Grammar.fragment relaxed).avoids 10 = true := by
  cases relaxed <;> decide

theorem methodByte_ne (b : UInt8) : isMethodByte b = true → b ≠ 10 := by
  revert b
  exact forall_byte (by decide +kernel)

theorem versionByte_ne {n : ℕ} {b : UInt8} (h : isVersionByte n b = true) : b ≠ 10 := by
  unfold isVersionByte at h
  split at h
  · rintro rfl
    cases h
  · rintro rfl
    have hmem := List.mem_of_getElem? (of_decide_eq_true h)
    exact absurd hmem (by decide)

theorem step_inLine (relaxed : Bool) {s : State} (h : s.InLine ∨ s = .lineEnd) (b : UInt8) :
    LineStep b (step relaxed s b) := by
  obtain ⟨hrelative,hhier,hquery,hfragment⟩ := grammar_avoids relaxed
  have hstop : LineStep b (.error,[]) := ⟨by simp,by simp,.inl trivial⟩
  have hgo : ∀ {t : State} {actions : List Action}, b ≠ 10 → t.InLine → .writeValue ∉ actions →
      .done ∉ actions → LineStep b (t,actions) := fun hb ht hsilent hgoing =>
    ⟨hsilent,hgoing,.inr (.inr ⟨hb,.inl ht⟩)⟩
  rcases h with h | rfl
  · cases s with
    | error | lineEnd | headerStart | headerCr | fieldName | valueStart | value | xmlName
    | xmlData | xmlClose | jsonStart | jsonBrace | jsonData | jsonClose | requestDone
    | socketDone => cases h
    | start =>
      simp only [step]
      split_ifs with hmethod
      · exact hgo (methodByte_ne b hmethod) trivial (by simp) (by simp)
      · exact ⟨by simp,by simp,.inl trivial⟩
      · exact ⟨by simp,by simp,.inl trivial⟩
      · exact hstop
    | method n =>
      simp only [step]
      split_ifs with hblank hmethod
      · exact hgo (hblank ▸ by decide) hrelative (by simp) (by simp)
      · rw [Bool.and_eq_true] at hmethod
        exact hgo (methodByte_ne b hmethod.1) trivial (by simp) (by simp)
      · exact hstop
    | versionStart =>
      simp only [step]
      split_ifs with hversion
      · exact hgo (versionByte_ne hversion) trivial (by simp) (by simp)
      · exact hstop
    | version n =>
      simp only [step]
      split_ifs with hlf hcr hversion
      · rw [Bool.and_eq_true, decide_eq_true_eq, decide_eq_true_eq] at hlf
        exact ⟨by simp,by simp,.inr (.inl ⟨hlf.2,rfl⟩)⟩
      · rw [Bool.and_eq_true, decide_eq_true_eq, decide_eq_true_eq] at hcr
        exact ⟨by simp,by simp,.inr (.inr ⟨hcr.2 ▸ by decide,.inr rfl⟩)⟩
      · exact hgo (versionByte_ne hversion) trivial (by simp) (by simp)
      · exact hstop
    | targetStart part scheme =>
      simp only [step]
      split_ifs with hblank hhash hmark
      · exact hgo (hblank ▸ by decide) trivial (by simp) (by simp)
      · exact hgo (hhash ▸ by decide) trivial (by simp) (by simp)
      · exact hgo (hmark ▸ by decide) trivial (by simp) (by simp)
      · exact .within (.target · (scheme && isAlpha b)) h (fun _ h => h) (by simp) (by simp) b
    | target rest scheme =>
      simp only [step, Bool.and_eq_true, decide_eq_true_eq]
      split_ifs with hblank hhash hmark hcolon
      · exact hgo (hblank.2 ▸ by decide) trivial (by simp) (by simp)
      · exact hgo (hhash.2 ▸ by decide) trivial (by simp) (by simp)
      · exact hgo (hmark.2 ▸ by decide) trivial (by simp) (by simp)
      · exact hgo (hcolon.2 ▸ by decide) hhier (by simp) (by simp)
      · exact .within (.target · (scheme && isSchemeByte b)) h (fun _ h => h) (by simp) (by simp) b
    | queryStart =>
      simp only [step]
      split_ifs with hblank hhash
      · exact hgo (hblank ▸ by decide) trivial (by simp) (by simp)
      · exact hgo (hhash ▸ by decide) trivial (by simp) (by simp)
      · exact .within .query hquery (fun _ h => h) (by simp) (by simp) b
    | query rest =>
      simp only [step, Bool.and_eq_true, decide_eq_true_eq]
      split_ifs with hblank hhash
      · exact hgo (hblank.2 ▸ by decide) trivial (by simp) (by simp)
      · exact hgo (hhash.2 ▸ by decide) trivial (by simp) (by simp)
      · exact .within .query h (fun _ h => h) (by simp) (by simp) b
    | fragmentStart =>
      simp only [step]
      split_ifs with hblank
      · exact hgo (hblank ▸ by decide) trivial (by simp) (by simp)
      · exact .within .fragment hfragment (fun _ h => h) (by simp) (by simp) b
    | fragment rest =>
      simp only [step, Bool.and_eq_true, decide_eq_true_eq]
      split_ifs with hblank
      · exact hgo (hblank.2 ▸ by decide) trivial (by simp) (by simp)
      · exact .within .fragment h (fun _ h => h) (by simp) (by simp) b
  · simp only [step]
    split_ifs with hb
    · exact ⟨by simp,by simp,.inr (.inl ⟨hb,rfl⟩)⟩
    · exact hstop

namespace HttpParser
variable {parser last : HttpParser} {p q : ℕ} {bs : Bytes} {calls : List Callback}

theorem exec_foreign (h : parser.cs.Foreign) : (parser.exec p bs).1.cs.Foreign := by
  induction bs generalizing parser p with
  | nil => exact h
  | cons b bs ih =>
    have hstep := step_foreign parser.uriRelaxed h b
    simp only [exec]
    generalize step parser.uriRelaxed parser.cs b = t at hstep
    obtain ⟨cs,actions⟩ := t
    dsimp only at hstep ⊢
    split_ifs
    · exact hstep
    · rw [enter_cs]
      exact hstep
    · exact ih (by rwa [enter_cs])

/-- Without `write_value` there is no call of `http_field`. -/
theorem fields_runActions (buffer : Bytes) (parser : HttpParser) {actions : List Action}
    (h : .writeValue ∉ actions) : fields buffer (parser.runActions p actions).2 = [] := by
  induction actions generalizing parser with
  | nil => rfl
  | cons a actions ih =>
    rw [List.mem_cons, not_or] at h
    have hhere : fields buffer (parser.runAction p a).2 = [] := by
      cases a with
      | writeValue => exact absurd rfl h.1
      | done =>
        rw [runAction]
        split_ifs <;> rfl
      | _ => rfl
    have hrest := ih (parser.runAction p a).1 h.2
    rw [fields, runActions, List.filterMap_append]
    exact List.append_eq_nil_iff.mpr ⟨hhere,hrest⟩

/-- A run from inside the request line on reads it to its LF. -/
theorem exec_inLine (buffer : Bytes) (hcs : parser.cs.InLine ∨ parser.cs = .lineEnd)
    (h : parser.exec p bs = (last,q,calls)) (hlast : last.cs = .requestDone) :
    ∃ (line rest : Bytes) (next : HttpParser) (more : List Callback), bs = line++10 :: rest ∧
      10 ∉ line ∧ next.cs = .headerStart ∧
      next.exec (p+line.length+1) rest = (last,q,more) ∧
      fields buffer calls = fields buffer more := by
  induction bs generalizing parser p calls with
  | nil =>
    refine absurd hlast (exec_nil ?_ h)
    rcases hcs with hcs | hcs
    · intro hdone
      rw [hdone] at hcs
      exact hcs
    · rw [hcs]
      exact State.noConfusion
  | cons b bs ih =>
    obtain ⟨hsilent,hgoing,hnext⟩ := step_inLine parser.uriRelaxed hcs b
    generalize hstep : step parser.uriRelaxed parser.cs b = t at hsilent hgoing hnext
    obtain ⟨cs,actions⟩ := t
    by_cases herror : cs = .error
    · subst herror
      exact absurd hlast (exec_error hstep h)
    obtain ⟨more,rfl,hmore⟩ := exec_cons hstep herror hgoing h
    have hfields : fields buffer ((parser.enter p cs actions).2++more) = fields buffer more := by
      have hnone := fields_runActions (p := p) buffer { parser with cs } hsilent
      rw [fields, List.filterMap_append]
      exact congrArg (·++_) hnone
    rw [hfields]
    rcases hnext with hforeign | ⟨rfl,hheader⟩ | ⟨hne,hline⟩
    · have hend : ((parser.enter p cs actions).1.exec (p+1) bs).1.cs.Foreign :=
        exec_foreign (by rwa [enter_cs])
      rw [hmore, hlast] at hend
      exact hend.elim
    · exact ⟨[],bs,_,more,rfl,by simp,(enter_cs ..).trans hheader,hmore,rfl⟩
    · obtain ⟨line,rest,next,more,rfl,hlf,hnext,hrest,heq⟩ :=
        ih (by rwa [enter_cs]) hmore
      refine ⟨b :: line,rest,next,more,rfl,?_,hnext,?_,heq⟩
      · rw [List.mem_cons, not_or]
        exact ⟨hne.symm,hlf⟩
      · rw [add_length_cons]
        exact hrest

end HttpParser
/-! ### Clean fields and clean lines -/

/-- A name of token characters, and a value without control characters but the tab. -/
structure CleanField (field : Bytes × Bytes) : Prop where
  ne : field.1 ≠ []
  tchar : ∀ b ∈ field.1, isTchar b = true
  value : ∀ b ∈ field.2, b = 9 ∨ 32 ≤ b ∧ b ≠ 127

/-- The line without a CR at its end. -/
def trimCr (line : Bytes) : Bytes := if line.getLast? = some 13 then line.dropLast else line

/-- A line with a colon, and without control characters but tabs and a CR at its end. -/
def CleanLine (line : Bytes) : Prop := 58 ∈ line ∧ ∀ b ∈ trimCr line, b = 9 ∨ 32 ≤ b

instance : DecidablePred CleanLine := fun line =>
  inferInstanceAs (Decidable (_ ∧ ∀ b ∈ trimCr line, _))

/-- The lines up to an empty one. -/
def linesOf (text : Bytes) : List Bytes :=
  (text.splitOn 10).takeWhile fun line => line ≠ [] ∧ line ≠ [13]

/-- The lines between the first line and the empty line. -/
def headerLines (buffer : Bytes) : List Bytes := linesOf ((buffer.dropWhile (· ≠ 10)).drop 1)

theorem linesOf_cons {line : Bytes} (hlf : 10 ∉ line) (hne : line ≠ []) (hcr : line ≠ [13])
    (rest : Bytes) : linesOf (line++10 :: rest) = line :: linesOf rest := by
  rw [linesOf, List.splitOn_append_cons_self_of_not_mem hlf, List.takeWhile_cons_of_pos (by simp [hne, hcr])]
  rfl

theorem linesOf_empty {line : Bytes} (h : line = [] ∨ line = [13]) (rest : Bytes) :
    linesOf (line++10 :: rest) = [] := by
  have hlf : 10 ∉ line := by rcases h with rfl | rfl <;> decide
  rw [linesOf, List.splitOn_append_cons_self_of_not_mem hlf]
  exact List.takeWhile_cons_of_neg (by rcases h with rfl | rfl <;> simp)

theorem headerLines_append {line : Bytes} (h : 10 ∉ line) (rest : Bytes) :
    headerLines (line++10 :: rest) = linesOf rest := by
  have hdrop : (line++10 :: rest).dropWhile (· ≠ 10) = 10 :: rest := by
    have hline : ∀ b ∈ line, decide (b ≠ 10) = true := by
      intro b hb
      rw [decide_eq_true_eq]
      rintro rfl
      exact h hb
    rw [List.dropWhile_append_of_pos hline]
    exact List.dropWhile_cons_of_neg (by simp)
  rw [headerLines, hdrop]
  rfl

theorem token_facts (b : UInt8) : isToken b = true →
    (isTchar b = true ↔ b = 9 ∨ 32 ≤ b) ∧ b ≠ 58 := by
  revert b
  exact forall_byte (by decide +kernel)

theorem trimCr_cr (line : Bytes) : trimCr (line++[13]) = line := by
  rw [trimCr, List.getLast?_concat, if_pos rfl, List.dropLast_concat]

theorem trimCr_append {line : Bytes} {b : UInt8} {w : Bytes} (h : 13 ∉ b :: w) :
    trimCr (line++b :: w) = line++b :: w := by
  rw [trimCr, List.getLast?_append_of_ne_nil _ (List.cons_ne_nil b w), if_neg]
  exact fun hlast => h (List.mem_of_getLast? hlast)

/-- A line is clean if its name and its value are. -/
theorem cleanLine_iff {name blank value cr : Bytes} (hname : IsName name)
    (hblank : ∀ b ∈ blank, b = 9 ∨ b = 32) (hvalue : IsFieldValue value)
    (hcr : cr = [] ∨ cr = [13]) :
    CleanLine (name++58 :: (blank++(value++cr))) ↔ CleanField (name,value) := by
  have htrim : trimCr (name++58 :: (blank++(value++cr))) = name++58 :: (blank++value) := by
    rcases hcr with rfl | rfl
    · rw [List.append_nil]
      refine trimCr_append fun hmem => ?_
      rw [List.mem_cons, List.mem_append] at hmem
      rcases hmem with hmem | hmem | hmem
      · exact absurd hmem (by decide)
      · exact absurd (hblank 13 hmem) (by decide)
      · exact (hvalue.1 13 hmem).2.2 rfl
    · rw [← trimCr_cr (name++58 :: (blank++value))]
      simp
  rw [CleanLine, htrim, and_iff_right (by simp)]
  constructor
  · intro h
    refine ⟨hname.ne,fun b hb => ?_,fun b hb => ?_⟩
    · exact (token_facts b (hname.token b hb)).1.mpr (h b (List.mem_append_left _ hb))
    · have hcontent := (hvalue.1 b hb).1
      rw [isContent, Bool.and_eq_true, decide_eq_true_eq, decide_eq_true_eq] at hcontent
      exact (h b (by simp [hb])).imp_right fun hle => ⟨hle,hcontent.2⟩
  · intro h b hb
    rw [List.mem_append, List.mem_cons, List.mem_append] at hb
    rcases hb with hb | rfl | hb | hb
    · exact (token_facts b (hname.token b hb)).1.mp (h.tchar b hb)
    · exact .inr (by decide)
    · rcases hblank b hb with rfl | rfl
      · exact .inl rfl
      · exact .inr (by decide)
    · exact (h.value b hb).imp_right And.left

/-- All fields of a text are clean if its lines are. -/
theorem HeaderText.clean_iff {text : Bytes} {fields : List (Bytes × Bytes)}
    (h : HeaderText text fields) :
    (∀ field ∈ fields, CleanField field) ↔ ∀ line ∈ linesOf text, CleanLine line := by
  induction h with
  | lf rest =>
    rw [show linesOf (10 :: rest) = [] from linesOf_empty (.inl rfl) rest]
    simp
  | crlf rest =>
    rw [show linesOf (13 :: 10 :: rest) = [] from linesOf_empty (.inr rfl) rest]
    simp
  | @line name blank value eol rest fields hname hblank hvalue heol h ih =>
    by_cases hlf : 10 ∈ name
    · -- the first line is a part of the name
      obtain ⟨x,y,rfl,hx⟩ := List.eq_append_cons_of_mem hlf
      refine iff_of_false (fun hclean => ?_) fun hclean => ?_
      · have htchar := (hclean _ List.mem_cons_self).tchar 10 hlf
        exact absurd htchar (by decide)
      · have hne : x ≠ [] := by
          rintro rfl
          exact hname.lf rfl
        have hcr : x ≠ [13] := by
          rintro rfl
          exact hname.crlf ⟨y,rfl⟩
        rw [List.append_assoc, List.cons_append, linesOf_cons hx hne hcr] at hclean
        have hcolon := (hclean x List.mem_cons_self).1
        exact (token_facts 58 (hname.token 58 (List.mem_append_left _ hcolon))).2 rfl
    · obtain ⟨cr,hcr,rfl⟩ : ∃ cr : Bytes, (cr = [] ∨ cr = [13]) ∧ eol = cr++[10] := by
        rcases heol with rfl | rfl
        · exact ⟨[],.inl rfl,rfl⟩
        · exact ⟨[13],.inr rfl,rfl⟩
      have hsplit : name++58 :: (blank++(value++(cr++[10]++rest))) =
          name++58 :: (blank++(value++cr))++10 :: rest := by simp
      have hline : 10 ∉ name++58 :: (blank++(value++cr)) := by
        simp only [List.mem_append, List.mem_cons, not_or]
        refine ⟨hlf,by decide,fun hb => ?_,fun hb => (hvalue.1 10 hb).2.1 rfl,?_⟩
        · exact absurd (hblank 10 hb) (by decide)
        · rcases hcr with rfl | rfl <;> decide
      have hne : name++58 :: (blank++(value++cr)) ≠ [13] := by
        intro heq
        have hmem : (58 : UInt8) ∈ ([13] : Bytes) := heq ▸ by simp
        exact absurd hmem (by decide)
      rw [hsplit, linesOf_cons hline (by simp) hne, List.forall_mem_cons, List.forall_mem_cons, ih,
        cleanLine_iff hname hblank hvalue hcr]

/-- One call of `execute` takes the buffer for a request. -/
def AcceptsRequest (u : Uninit) (buffer : Bytes) : Prop :=
  ∃ q n left, (HttpRequestParser.new u).execute buffer = .ok (q,n,left) ∧ ¬q.HasError ∧
    q.parser.cs = .requestDone

/-- The calls of `http_field` of a new parser. -/
def requestFields (u : Uninit) (buffer : Bytes) : List (Bytes × Bytes) :=
  fields buffer ((HttpParser.init u).execute buffer).2.2

/-- The fields are clean if every header line has a colon and no further control characters than
tabs and the CR at its end. -/
theorem fields_clean_iff {u : Uninit} {buffer : Bytes} (h : AcceptsRequest u buffer) :
    (∀ field ∈ requestFields u buffer, CleanField field) ↔
      ∀ line ∈ headerLines buffer, CleanLine line := by
  obtain ⟨q,n,left,hexecute,-,hlast⟩ := h
  obtain ⟨us,-,heq⟩ := HttpRequestParser.execute_eq_ok.mp hexecute
  have hcs : ((HttpParser.init u).execute buffer).1.cs = .requestDone := by
    cases heq
    exact hlast
  have hne : buffer ≠ [] := by
    rintro rfl
    exact State.noConfusion hcs
  rw [HttpParser.execute, if_neg hne] at hcs
  rw [requestFields, HttpParser.execute, if_neg hne]
  have hstart : (HttpParser.init u).reset.cs.InLine := trivial
  obtain ⟨line,rest,next,more,hsplit,hlf,hnext,hmore,hfields⟩ :=
    HttpParser.exec_inLine buffer (.inl hstart) rfl hcs
  have hdrop : buffer.drop (0+line.length+1) = rest := by
    rw [hsplit, Nat.zero_add, ← List.drop_drop, List.drop_left]
    rfl
  have htext := HttpParser.exec_headerStart hnext hmore hcs hdrop
  rw [hfields, htext.clean_iff]
  exact hsplit ▸ headerLines_append hlf rest ▸ Iff.rfl

/-- A request whose header line is clean. -/
theorem fields_clean_host : ∃ buffer, AcceptsRequest ⟨0,false⟩ buffer ∧
    requestFields ⟨0,false⟩ buffer = [(bytes "Host",bytes "a\tb")] ∧
    ((∀ field ∈ requestFields ⟨0,false⟩ buffer, CleanField field) ↔
      ∀ line ∈ headerLines buffer, CleanLine line) := by
  have haccepts : AcceptsRequest ⟨0,false⟩ (bytes "GET / HTTP/1.1\r\nHost: a\tb\r\n\r\n") :=
    ⟨_,_,_,rfl,by decide,by decide⟩
  exact ⟨_,haccepts,by decide,fields_clean_iff haccepts⟩

/-- The second line has no colon, so that the name of the header is `a\r\nb`. -/
theorem not_fields_clean : ¬∀ u buffer, AcceptsRequest u buffer →
    ∀ field ∈ requestFields u buffer, CleanField field := by
  intro h
  have haccepts : AcceptsRequest ⟨0,false⟩ (bytes "GET / HTTP/1.1\r\na\r\nb: c\r\n\r\n") :=
    ⟨_,_,_,rfl,by decide,by decide⟩
  have hfields : requestFields ⟨0,false⟩ (bytes "GET / HTTP/1.1\r\na\r\nb: c\r\n\r\n") =
      [(bytes "a\r\nb",bytes "c")] := by decide
  have hclean := (h _ _ haccepts _ (hfields ▸ List.mem_cons_self)).tchar 13 (by decide)
  exact absurd hclean (by decide)

end CoroutineWebserve.Http
