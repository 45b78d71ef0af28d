import CoroutineWebserve.Client.ChunkLine
import CoroutineWebserve.Http.StartLine

/-!
# The start line of a response

The machine accepts responses and the lines before chunks. Only those begin with a
hexadecimal digit, so that every other head that is accepted had a status line.
-/
namespace CoroutineWebserve.Client
open Http

/-- The callback for this part has been made. -/
def Made (e : Element) (calls : List Callback) : Prop :=
  ∃ start stop, .element e start stop ∈ calls

theorem Made.append_left {e : Element} {calls : List Callback} (h : Made e calls)
    (more : List Callback) : Made e (calls++more) := by
  obtain ⟨start,stop,hmem⟩ := h
  exact ⟨start,stop,List.mem_append_left _ hmem⟩

/-- Whether the status has been called back with, or how the stream begins, when the machine
is in this state. -/
def State.Passed (first : UInt8) (calls : List Callback) : State → Prop
  | .error | .protocol _ | .major | .minorStart | .minor | .statusStart | .status => True
  | .start => False
  | .chunkSize | .extensionStart | .extensionName | .extensionValueStart | .extensionValue =>
    isXdigit first
  | .reasonStart | .reason => Made .statusCode calls
  | .header .. => Made .statusCode calls ∨ isXdigit first

namespace HttpclientParser

/-- The first byte leads to a status line, or to the line before a chunk. -/
theorem step_start_passed (b : UInt8) (calls : List Callback) :
    (step .start b).1.Passed b calls := by
  simp only [step]
  split_ifs with hx
  · exact hx
  · trivial
  · trivial

theorem headerStep_passed {line : Line} {closing : Bool} {specials : List (Special × Place)}
    {first : UInt8} {calls : List Callback}
    (h : Made .statusCode calls ∨ isXdigit first) (b : UInt8) :
    (headerStep line closing specials b).1.Passed first calls := by
  unfold headerStep
  extract_lets moved ended next places
  split
  · trivial
  · exact h

theorem step_passed (buffer : Bytes) (parser : HttpclientParser) (p : ℕ) {s : State}
    {first : UInt8} {calls : List Callback} (h : s.Passed first calls) (b : UInt8) :
    let t := step s b
    t.1.Passed first (calls++(parser.enter buffer p t.1 t.2).2) := by
  cases s with
  | start => cases h
  | error => trivial
  | header line closing specials =>
    exact headerStep_passed (h.imp_left fun hmade => hmade.append_left _) b
  | status =>
    simp only [step]
    split_ifs
    · exact ⟨_,_,List.mem_append_right _ List.mem_cons_self⟩
    all_goals trivial
  | reasonStart | reason =>
    have hmore (more : List Callback) : Made .statusCode (calls++more) := Made.append_left h more
    simp only [step]
    split_ifs
    all_goals simp [State.Passed, hmore]
  | _ =>
    simp only [step]
    split_ifs
    all_goals simp_all [State.Passed, State.firstFinal]

/-- What a run has made is what its states stand for. -/
theorem exec_passed {buffer : Bytes} (parser : HttpclientParser) {first : UInt8}
    {calls : List Callback} (h : parser.cs.Passed first calls) (p : ℕ) (bs : Bytes) :
    (parser.exec buffer p bs).1.cs.Passed first (calls++(parser.exec buffer p bs).2.2) := by
  induction bs generalizing parser p calls with
  | nil => simpa [exec] using h
  | cons b bs ih =>
    have hstep := step_passed buffer parser p h b
    simp only [exec]
    generalize step parser.cs b = t at hstep
    obtain ⟨cs,actions⟩ := t
    dsimp only at hstep ⊢
    split
    · next hcs => rw [hcs]; trivial
    split
    · rwa [enter_cs]
    · rw [← List.append_assoc]
      exact ih _ (by rwa [enter_cs]) (p+1)

/-- The run of the first read. -/
theorem exec_start_passed {buffer : Bytes} (parser : HttpclientParser) (h : parser.cs = .start)
    (p : ℕ) (b : UInt8) (bs : Bytes) :
    (parser.exec buffer p (b :: bs)).1.cs.Passed b (parser.exec buffer p (b :: bs)).2.2 := by
  have hstep := step_start_passed b
  simp only [exec, h]
  generalize step .start b = t at hstep
  obtain ⟨cs,actions⟩ := t
  dsimp only at hstep ⊢
  split
  · next hcs => rw [hcs]; trivial
  split
  · rw [enter_cs]
    exact hstep _
  · exact exec_passed _ (by rw [enter_cs]; exact hstep _) (p+1) bs

end HttpclientParser

namespace HttpConnection

/-- The callbacks that the parser makes in the first loop of `recvResponse`. -/
def headCalls (buffSize : ℕ) : HttpResponseParser → Bytes → List Bytes → List Callback
  | _, _, [] => []
  | parser, data, piece :: reads =>
    (parser.parser.execute (data++piece)).2.2++
      match parser.execute (data++piece) false with
      | .error _ => []
      | .ok (parser,_,data) =>
        if parser.HasError ∨ parser.IsFinished then [] else headCalls buffSize parser data reads

theorem parser_of_execute {r q : HttpResponseParser} {data left : Bytes} {n : ℕ}
    (h : r.execute data false = .ok (q,n,left)) : q.parser = (r.parser.execute data).1 := by
  obtain ⟨us,rfl,-⟩ := exists_of_execute h
  rfl

/-- The parser is at work, or is to get the first byte. -/
def Ready (first : UInt8) (calls : List Callback) (parser : HttpclientParser) (stream : Bytes) :
    Prop :=
  parser.cs.Passed first calls ∨ parser.cs = .start ∧ calls = [] ∧ stream.head? = some first

theorem Ready.execute {first : UInt8} {calls : List Callback} {parser : HttpclientParser}
    {buffer more : Bytes} (h : Ready first calls parser (buffer++more)) (hne : buffer ≠ []) :
    (parser.execute buffer).1.cs.Passed first (calls++(parser.execute buffer).2.2) := by
  rcases h with h | ⟨hcs,rfl,hfirst⟩
  · exact HttpclientParser.exec_passed parser.reset h 0 buffer
  · obtain ⟨b,bs,rfl⟩ := List.exists_cons_of_ne_nil hne
    obtain rfl : b = first := Option.some.inj hfirst
    exact HttpclientParser.exec_start_passed parser.reset hcs 0 b bs

/-- What the loop has made when it ends with a head. -/
theorem recvHead_passed {buffSize : ℕ} {r q : HttpResponseParser} {data left : Bytes}
    {reads rest : List Bytes} {first : UInt8} {calls : List Callback}
    (h : Ready first calls r.parser (data++reads.flatten))
    (hrun : recvHead buffSize r data reads = .ok (some (q,left),rest)) :
    q.parser.cs.Passed first (calls++headCalls buffSize r data reads) ∧ q.IsFinished := by
  induction reads generalizing r data calls with
  | nil => cases hrun
  | cons piece reads ih =>
    obtain ⟨hpiece,-,y,n,d,hexecute,herror,hnext⟩ := recvHead_cons_some hrun
    rw [List.flatten_cons, ← List.append_assoc] at h
    have hpassed := h.execute (by simp [hpiece])
    rw [← parser_of_execute hexecute] at hpassed
    rw [headCalls, hexecute]
    dsimp only
    split_ifs at hnext with hfinished
    · obtain ⟨rfl,rfl,rfl⟩ := hnext
      rw [if_pos (.inr hfinished), List.append_nil]
      exact ⟨hpassed,hfinished⟩
    · rw [if_neg (not_or.mpr ⟨herror,hfinished⟩), ← List.append_assoc]
      exact ih (.inl hpassed) hnext

theorem flatten_ne_of_recvHead {buffSize : ℕ} {r : HttpResponseParser} {data : Bytes}
    {reads rest : List Bytes} {x : HttpResponseParser × Bytes}
    (hrun : recvHead buffSize r data reads = .ok (some x,rest)) : reads.flatten ≠ [] := by
  intro hflatten
  cases reads with
  | nil => cases hrun
  | cons piece reads =>
    exact (recvHead_cons_some hrun).1 (List.flatten_eq_nil_iff.mp hflatten _ List.mem_cons_self)

/-- A head that is received had a status, or it is the line before a chunk. -/
theorem made_of_recvHead {buffSize : ℕ} {reads rest : List Bytes} {parser : HttpResponseParser}
    {data : Bytes} (h : recvHead buffSize .new [] reads = .ok (some (parser,data),rest)) :
    Made .statusCode (headCalls buffSize .new [] reads) ∨
    ∃ b ∈ reads.flatten.head?, isXdigit b := by
  obtain ⟨first,bs,hfirst⟩ := List.exists_cons_of_ne_nil (flatten_ne_of_recvHead h)
  have hready : Ready first [] HttpResponseParser.new.parser ([]++reads.flatten) :=
    .inr ⟨rfl,rfl,by rw [List.nil_append, hfirst]; rfl⟩
  obtain ⟨hpassed,hfinished⟩ := recvHead_passed hready h
  rw [HttpResponseParser.IsFinished] at hfinished
  rw [hfinished] at hpassed
  exact hpassed.imp_right fun hx => ⟨first,by rw [hfirst]; rfl,hx⟩

end HttpConnection

/-- What is accepted has a start line, unless it begins as a message in XML or JSON does, or
as the line before a chunk. -/
theorem accepted_start_line (c : Config) (u : Uninit) (reads replies : List Bytes) :
    (∀ req rest, HttpSession.recvRequest c u reads = .ok (some req,rest) →
      Http.Made .requestMethod (HttpSession.headCalls c.buffSize (.new u) [] reads) ∧
        Http.Made .httpVersion (HttpSession.headCalls c.buffSize (.new u) [] reads) ∨
      ∃ b ∈ reads.flatten.head?, IsSocketByte b) ∧
    ∀ parser data rest,
      HttpConnection.recvHead c.buffSize .new [] replies = .ok (some (parser,data),rest) →
      Made .statusCode (HttpConnection.headCalls c.buffSize .new [] replies) ∨
      ∃ b ∈ replies.flatten.head?, isXdigit b :=
  ⟨fun _ _ h => HttpSession.made_of_recvRequest h,
    fun _ _ _ h => HttpConnection.made_of_recvHead h⟩

/-- A request and a response, each in one read. -/
theorem accepted_start_line_plain :
    (Http.Made .requestMethod (HttpSession.headCalls 4096 (.new ⟨0,false⟩) []
        [bytes "GET / HTTP/1.1\r\n\r\n"]) ∧
      Http.Made .httpVersion (HttpSession.headCalls 4096 (.new ⟨0,false⟩) []
        [bytes "GET / HTTP/1.1\r\n\r\n"]) ∨
      ∃ b ∈ [bytes "GET / HTTP/1.1\r\n\r\n"].flatten.head?, IsSocketByte b) ∧
    (Made .statusCode (HttpConnection.headCalls 4096 .new []
        [bytes "HTTP/1.1 200 OK\r\n\r\n"]) ∨
      ∃ b ∈ [bytes "HTTP/1.1 200 OK\r\n\r\n"].flatten.head?, isXdigit b) := by
  have h := accepted_start_line ⟨4096,lexicalCast⟩ ⟨0,false⟩ [bytes "GET / HTTP/1.1\r\n\r\n"]
    [bytes "HTTP/1.1 200 OK\r\n\r\n"]
  exact ⟨h.1 HttpRequest.new [] (by decide),
    h.2 ⟨⟨.firstFinal,19,-1,false,false,false,13,0,0⟩,0,{ HttpResponse.new with
      reason := bytes "OK" }⟩ [] [] (by decide +kernel)⟩

/-- An XML message is taken for a request, and the line before a chunk for a response. -/
theorem accepted_of_no_start_line :
    (¬∀ (c : Config) (u : Uninit) (reads rest : List Bytes) (req : HttpRequest),
      HttpSession.recvRequest c u reads = .ok (some req,rest) →
      Http.Made .requestMethod (HttpSession.headCalls c.buffSize (.new u) [] reads) ∧
        Http.Made .httpVersion (HttpSession.headCalls c.buffSize (.new u) [] reads)) ∧
    ¬∀ (c : Config) (replies rest : List Bytes) (parser : HttpResponseParser) (data : Bytes),
      HttpConnection.recvHead c.buffSize .new [] replies = .ok (some (parser,data),rest) →
      Made .statusCode (HttpConnection.headCalls c.buffSize .new [] replies) := by
  constructor
  · intro h
    have hmade := (h ⟨4096,lexicalCast⟩ ⟨0,false⟩ [bytes "<a/>"++[0]] []
      { HttpRequest.new with path := bytes "<a" } (by decide)).1
    revert hmade
    unfold Http.Made
    decide
  · intro h
    obtain ⟨start,stop,hmem⟩ := h ⟨4096,lexicalCast⟩ [bytes "0\r\n"] []
      ⟨.afterLine 1 0,0,.new⟩ [] (by decide)
    have hcalls : HttpConnection.headCalls 4096 .new [] [bytes "0\r\n"] =
        [.element .lastChunk 0 1,.headerDone] := by decide
    rw [hcalls] at hmem
    simp at hmem

end CoroutineWebserve.Client
