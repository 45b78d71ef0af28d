import CoroutineWebserve.Http.Receive

/-!
# The start line of a request

The machine accepts requests, and messages in XML and JSON. Only those begin with `<` or `@`,
so that every other stream that is accepted had a request line.
-/
namespace CoroutineWebserve.Http

/-- The callback for this part has been made. -/
def Made (e : Element) (calls : List Callback) : Prop := e ∈ calls.filterMap Callback.kind

theorem made_append {e : Element} {calls more : List Callback} :
    Made e (calls++more) ↔ Made e calls ∨ Made e more := by
  simp only [Made, List.filterMap_append, List.mem_append]

/-- The first byte of an XML or JSON message. -/
def IsSocketByte (b : UInt8) : Prop := b = 60 ∨ b = 64

/-- Which callbacks have been made, or how the stream begins, when the machine is in this
state. -/
def State.Passed (first : UInt8) (calls : List Callback) : State → Prop
  | .error | .method _ => True
  | .start => False
  | .targetStart .. | .target .. | .queryStart | .query _ | .fragmentStart | .fragment _
  | .versionStart | .version _ => Made .requestMethod calls
  | .lineEnd | .headerStart | .headerCr | .fieldName | .valueStart | .value | .requestDone =>
    Made .requestMethod calls ∧ Made .httpVersion calls
  | .xmlName _ | .xmlData | .xmlClose | .jsonStart _ | .jsonBrace | .jsonData | .jsonClose
  | .socketDone => IsSocketByte first

namespace HttpParser

theorem made_enter {parser : HttpParser} {p : ℕ} {cs : State} {actions : List Action}
    {e : Element} : Made e (parser.enter p cs actions).2 ↔ e ∈ actions.filterMap Action.element := by
  rw [Made, enter, runActions_kind]

/-- The first byte leads to a method, or to a message without a request line. -/
theorem step_start_passed (parser : HttpParser) (p : ℕ) (b : UInt8) (calls : List Callback) :
    let t := step parser.uriRelaxed .start b
    t.1.Passed b (calls++(parser.enter p t.1 t.2).2) := by
  simp only [step]
  split_ifs with h₁ h₂ h₃
  · trivial
  · exact .inl h₂
  · exact .inr h₃
  · trivial

theorem step_passed (parser : HttpParser) (p : ℕ) {s : State} {first : UInt8}
    {calls : List Callback} (h : s.Passed first calls) (b : UInt8) :
    let t := step parser.uriRelaxed s b
    t.1.Passed first (calls++(parser.enter p t.1 t.2).2) := by
  cases s with
  | start => cases h
  | error | socketDone => trivial
  | _ =>
    simp only [step, within]
    split_ifs
    all_goals simp_all [State.Passed, made_append, made_enter, Action.element]

/-- What a run has made is what its states stand for. -/
theorem exec_passed (parser : HttpParser) {first : UInt8} {calls : List Callback}
    (h : parser.cs.Passed first calls) (p : ℕ) (bs : Bytes) :
    (parser.exec p bs).1.cs.Passed first (calls++(parser.exec p bs).2.2) := by
  induction bs generalizing parser p calls with
  | nil => simpa [exec] using h
  | cons b bs ih =>
    have hstep := step_passed parser p h b
    simp only [exec]
    generalize step parser.uriRelaxed parser.cs b = t at hstep
    obtain ⟨cs,actions⟩ := t
    dsimp only at hstep ⊢
    split
    · next hcs => rw [hcs]; trivial
    split
    · rwa [enter_cs]
    · rw [← List.append_assoc]
      exact ih _ (by rwa [enter_cs]) (p+1)

/-- The run of the first read. -/
theorem exec_start_passed (parser : HttpParser) (h : parser.cs = .start) (p : ℕ) (b : UInt8)
    (bs : Bytes) :
    (parser.exec p (b :: bs)).1.cs.Passed b (parser.exec p (b :: bs)).2.2 := by
  have hstep := step_start_passed parser p b []
  simp only [exec, h]
  generalize step parser.uriRelaxed .start b = t at hstep
  obtain ⟨cs,actions⟩ := t
  dsimp only [List.nil_append] at hstep ⊢
  split
  · next hcs => rw [hcs]; trivial
  split
  · rwa [enter_cs]
  · exact exec_passed _ (by rwa [enter_cs]) (p+1) bs

end HttpParser

namespace HttpSession

/-- The callbacks that the parser makes in the loop of `recvRequest`. -/
def headCalls (buffSize : ℕ) : HttpRequestParser → Bytes → List Bytes → List Callback
  | _, _, [] => []
  | parser, data, piece :: reads =>
    (parser.parser.execute (data++piece)).2.2++
      match parser.execute (data++piece) with
      | .error _ => []
      | .ok (parser,_,data) =>
        if parser.HasError ∨ parser.IsFinished then [] else headCalls buffSize parser data reads

theorem parser_of_execute {r q : HttpRequestParser} {data left : Bytes} {n : ℕ}
    (h : r.execute data = .ok (q,n,left)) : q.parser = (r.parser.execute data).1 := by
  obtain ⟨us,-,hq⟩ := HttpRequestParser.execute_eq_ok.mp h
  cases hq
  rfl

/-- The parser is at work, or is to get the first byte. -/
def Ready (first : UInt8) (calls : List Callback) (parser : HttpParser) (stream : Bytes) : Prop :=
  parser.cs.Passed first calls ∨ parser.cs = .start ∧ calls = [] ∧ stream.head? = some first

theorem Ready.execute {first : UInt8} {calls : List Callback} {parser : HttpParser}
    {buffer more : Bytes} (h : Ready first calls parser (buffer++more)) (hne : buffer ≠ []) :
    (parser.execute buffer).1.cs.Passed first (calls++(parser.execute buffer).2.2) := by
  rw [HttpParser.execute, if_neg hne]
  rcases h with h | ⟨hcs,rfl,hfirst⟩
  · exact HttpParser.exec_passed parser.reset h 0 buffer
  · obtain ⟨b,bs,rfl⟩ := List.exists_cons_of_ne_nil hne
    obtain rfl : b = first := Option.some.inj hfirst
    exact HttpParser.exec_start_passed parser.reset hcs 0 b bs

/-- What the loop has made when it ends with a head. -/
theorem recvHead_passed {buffSize : ℕ} {r q : HttpRequestParser} {data left : Bytes}
    {reads rest : List Bytes} {first : UInt8} {calls : List Callback}
    (h : Ready first calls r.parser (data++reads.flatten))
    (hrun : recvHead buffSize r data reads = .ok (some (q,left),rest)) :
    q.parser.cs.Passed first (calls++headCalls buffSize r data reads) ∧ q.IsFinished := by
  induction reads generalizing r data calls with
  | nil => cases hrun
  | cons piece reads ih =>
    obtain ⟨hpiece,y,n,d,hexecute,herror,-,hnext⟩ := recvHead_cons_some hrun
    rw [List.flatten_cons, ← List.append_assoc] at h
    have hpassed := h.execute (by simp [hpiece])
    rw [← parser_of_execute hexecute] at hpassed
    rw [headCalls, hexecute]
    dsimp only
    split_ifs at hnext with hfinished
    · obtain ⟨rfl,rfl,rfl⟩ := hnext
      rw [if_pos (.inr hfinished), List.append_nil]
      exact ⟨hpassed,hfinished⟩
    · rw [if_neg (not_or.mpr ⟨herror,hfinished⟩), ← List.append_assoc]
      exact ih (.inl hpassed) hnext

/-- A request that is received had a method and a version, or the stream is no request. -/
theorem made_of_recvRequest {c : Config} {u : Uninit} {reads rest : List Bytes}
    {req : HttpRequest} (h : recvRequest c u reads = .ok (some req,rest)) :
    Made .requestMethod (headCalls c.buffSize (.new u) [] reads) ∧
      Made .httpVersion (headCalls c.buffSize (.new u) [] reads) ∨
    ∃ b ∈ reads.flatten.head?, IsSocketByte b := by
  cases hhead : recvHead c.buffSize (.new u) [] reads with
  | error e =>
    rw [recvRequest_of_error hhead] at h
    cases h
  | ok x =>
    obtain ⟨_ | ⟨q,left⟩,rest'⟩ := x
    · rw [recvRequest_of_none hhead] at h
      cases h
    have hlt := (lt_of_recvHead (r := .new u) id hhead).1
    cases hfirst : reads.flatten.head? with
    | none =>
      rw [List.head?_eq_none_iff] at hfirst
      rw [hfirst] at hlt
      cases hlt
    | some first =>
      have hready : Ready first [] (HttpRequestParser.new u).parser ([]++reads.flatten) :=
        .inr ⟨rfl,rfl,hfirst⟩
      obtain ⟨hpassed,hfinished⟩ := recvHead_passed hready hhead
      rw [HttpRequestParser.IsFinished] at hfinished
      cases hcs : q.parser.cs <;> rw [hcs] at hfinished hpassed <;> cases hfinished
      · exact .inl hpassed
      · exact .inr ⟨first,rfl,hpassed⟩

end HttpSession
end CoroutineWebserve.Http
