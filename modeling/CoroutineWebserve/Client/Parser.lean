import CoroutineWebserve.Client.Message
import CoroutineWebserve.Http.Parser

/-!
# `HttpResponseParser`

`httpclient_parser_execute` runs the machine over a buffer, and `execute` starts the machine
anew when it is given the line before a chunk.
-/
namespace CoroutineWebserve.Client
open Http

/-- The conversion of a `long` to `int`. -/
def intOf (n : ℤ) : ℤ := Int.bmod n (2^32)

/-- `httpclient_parser` without `status`, which is written and never read. -/
structure HttpclientParser where
  cs : State
  bodyStart : ℕ
  contentLen : ℤ
  chunked : Bool
  chunksDone : Bool
  close : Bool
  mark : ℕ
  fieldStart : ℕ
  fieldLen : ℕ
deriving Repr, DecidableEq

/-- The callbacks that get one part of the message. -/
inductive Element
  | reasonPhrase | statusCode | httpVersion | chunkSize | lastChunk
deriving Repr, DecidableEq

/-- A callback with its offsets. -/
inductive Callback
  | element (e : Element) (start stop : ℕ)
  | httpField (fieldStart fieldLen mark stop : ℕ)
  | headerDone
deriving Repr, DecidableEq

namespace HttpclientParser

/-- `httpclient_parser_init`. -/
def init : HttpclientParser where
  cs := .start
  bodyStart := 0
  contentLen := -1
  chunked := false
  chunksDone := false
  close := false
  mark := 0
  fieldStart := 0
  fieldLen := 0

/-- One action, with `fpc` at offset `p`. -/
def runAction (buffer : Bytes) (p : ℕ) (parser : HttpclientParser) :
    Action → HttpclientParser × List Callback
  | .mark | .startValue => ({ parser with mark := p },[])
  | .startField => ({ parser with fieldStart := p },[])
  | .writeField => ({ parser with fieldLen := p-parser.fieldStart },[])
  | .writeContentLen =>
    ({ parser with contentLen := intOf (strtol 10 (buffer.drop parser.mark)) },[])
  | .writeConnectionClose => ({ parser with close := true },[])
  | .writeValue => (parser,[.httpField parser.fieldStart parser.fieldLen parser.mark p])
  | .reasonPhrase => (parser,[.element .reasonPhrase parser.mark p])
  | .statusCode => (parser,[.element .statusCode parser.mark p])
  | .httpVersion => (parser,[.element .httpVersion parser.mark p])
  | .chunkSize =>
    let contentLen := intOf (strtol 16 (buffer.drop parser.mark))
    ({ parser with chunked := true, contentLen, chunksDone := contentLen ≤ 0 },
      [.element (if contentLen ≤ 0 then .lastChunk else .chunkSize) parser.mark p])
  | .transChunked => ({ parser with chunked := true },[])
  | .done => ({ parser with bodyStart := p+1 },[.headerDone])

def runActions (buffer : Bytes) (p : ℕ) :
    HttpclientParser → List Action → HttpclientParser × List Callback
  | parser, [] => (parser,[])
  | parser, a :: actions =>
    let (parser,calls) := parser.runAction buffer p a
    let (parser,more) := runActions buffer p parser actions
    (parser,calls++more)

/-- The step to `cs` with its actions. -/
def enter (buffer : Bytes) (parser : HttpclientParser) (p : ℕ) (cs : State)
    (actions : List Action) : HttpclientParser × List Callback :=
  runActions buffer p { parser with cs } actions

theorem runActions_cs (buffer : Bytes) (p : ℕ) (parser : HttpclientParser)
    (actions : List Action) : (runActions buffer p parser actions).1.cs = parser.cs := by
  induction actions generalizing parser with
  | nil => rfl
  | cons a actions ih =>
    simp only [runActions, ih]
    cases a <;> rfl

@[simp] theorem enter_cs (buffer : Bytes) (parser : HttpclientParser) (p : ℕ) (cs : State)
    (actions : List Action) : (parser.enter buffer p cs actions).1.cs = cs := runActions_cs ..

/-- `write exec`, from offset `p` on: the parser, the offset at which it stops, and the
callbacks it has made. -/
def exec (buffer : Bytes) (parser : HttpclientParser) (p : ℕ) :
    Bytes → HttpclientParser × ℕ × List Callback
  | [] => (parser,p,[])
  | b :: rest =>
    let (cs,actions) := step parser.cs b
    if cs = .error then ({ parser with cs },p,[])
    else
      let (parser,calls) := parser.enter buffer p cs actions
      if .done ∈ actions then (parser,p+1,calls)
      else
        let (parser,q,more) := exec buffer parser (p+1) rest
        (parser,q,calls++more)

/-- A step that does not end the run. -/
theorem exec_cons {buffer : Bytes} {parser : HttpclientParser} {p : ℕ} {b : UInt8} {cs : State}
    {actions : List Action} (hstep : step parser.cs b = (cs,actions)) (hcs : cs ≠ .error)
    (hdone : .done ∉ actions) (rest : Bytes) :
    parser.exec buffer p (b :: rest) =
      let next := (parser.enter buffer p cs actions).1.exec buffer (p+1) rest
      (next.1,next.2.1,(parser.enter buffer p cs actions).2++next.2.2) := by
  simp only [exec, hstep, if_neg hcs, if_neg hdone]

/-- The step that ends the run. -/
theorem exec_done {buffer : Bytes} {parser : HttpclientParser} {p : ℕ} {b : UInt8} {cs : State}
    {actions : List Action} (hstep : step parser.cs b = (cs,actions)) (hcs : cs ≠ .error)
    (hdone : .done ∈ actions) (rest : Bytes) :
    parser.exec buffer p (b :: rest) =
      ((parser.enter buffer p cs actions).1,p+1,(parser.enter buffer p cs actions).2) := by
  simp only [exec, hstep, if_neg hcs, if_pos hdone]

/-- Bytes on which the machine stays where it is and does nothing. -/
theorem exec_loop {buffer : Bytes} (parser : HttpclientParser) {bs : Bytes}
    (hstep : ∀ b ∈ bs, step parser.cs b = (parser.cs,[])) (hcs : parser.cs ≠ .error) (p : ℕ)
    (rest : Bytes) :
    parser.exec buffer p (bs++rest) = parser.exec buffer (p+bs.length) rest := by
  induction bs generalizing p with
  | nil => rfl
  | cons b bs ih =>
    have hloop := ih (fun c hc => hstep c (List.mem_cons_of_mem _ hc)) (p+1)
    rw [List.cons_append, exec_cons (hstep b List.mem_cons_self) hcs List.not_mem_nil]
    simp only [enter, runActions, List.nil_append, hloop, List.length_cons]
    rw [show p+1+bs.length = p+(bs.length+1) by omega]

/-- What `httpclient_parser_execute` does first. -/
def reset (parser : HttpclientParser) : HttpclientParser :=
  { parser with mark := 0, fieldLen := 0, fieldStart := 0 }

/-- The checks of `httpclient_parser_execute`. -/
def Checked (parser : HttpclientParser) (len : ℕ) : Prop :=
  parser.mark < len ∧ parser.fieldLen ≤ len ∧ parser.fieldStart < len

instance (parser : HttpclientParser) (len : ℕ) : Decidable (parser.Checked len) :=
  inferInstanceAs (Decidable (_ ∧ _ ∧ _))

/-- `httpclient_parser_execute(parser, buffer, len, 0)`; `none` is the result -1. -/
def execute (parser : HttpclientParser) (buffer : Bytes) :
    HttpclientParser × Option ℕ × List Callback :=
  let (parser,nread,calls) := parser.reset.exec buffer 0 buffer
  (parser,if parser.Checked buffer.length then some nread else none,calls)

theorem execute_eq {parser q : HttpclientParser} {buffer : Bytes} {n : ℕ}
    {calls : List Callback} (hexec : parser.reset.exec buffer 0 buffer = (q,n,calls))
    (hchecked : q.Checked buffer.length) : parser.execute buffer = (q,some n,calls) := by
  simp only [execute, hexec, if_pos hchecked]

end HttpclientParser

/-- The one thing a callback does to the parser or its response. -/
inductive Update
  | none
  | setReason (v : Bytes)
  | setStatus (v : UInt32)
  | setVersion (v : UInt8)
  | setHeader (key val : Bytes)
  | setError (v : ℕ)
deriving Repr, DecidableEq

/-- `on_response_status`: `atoi` is `strtol` in base 10, converted to `int`. -/
def onResponseStatus (at_ : Bytes) : Update := .setStatus (UInt32.ofInt (strtol 10 at_))

def onResponseVersion (at_ : Bytes) (length : ℕ) : Update :=
  if strncmpEq at_ (bytes "HTTP/1.1") length then .setVersion 0x11
  else if strncmpEq at_ (bytes "HTTP/1.0") length then .setVersion 0x10
  else .setError 1001

def onResponseHttpField (field : Bytes) (flen : ℕ) (value : Bytes) (vlen : ℕ) : Update :=
  if flen = 0 then .none else .setHeader (field.take flen) (value.take vlen)

/-- The callbacks that `HttpResponseParser` registers. -/
def callback (buffer : Bytes) : Callback → Except Fault Update
  | .element .reasonPhrase start stop => (stdString buffer start stop).map .setReason
  | .element .statusCode start _ => .ok (onResponseStatus (buffer.drop start))
  | .element .httpVersion start stop =>
    .ok (onResponseVersion (buffer.drop start) (stop-start))
  | .element .chunkSize _ _ | .element .lastChunk _ _ | .headerDone => .ok .none
  | .httpField fieldStart fieldLen mark stop =>
    .ok (onResponseHttpField (buffer.drop fieldStart) fieldLen (buffer.drop mark) (stop-mark))

/-- `HttpResponseParser`. -/
structure HttpResponseParser where
  parser : HttpclientParser
  error : ℕ
  data : HttpResponse
deriving Repr, DecidableEq

namespace HttpResponseParser

def new : HttpResponseParser := ⟨.init,0,.new⟩

/-- A callback's effect. -/
def update (r : HttpResponseParser) : Update → HttpResponseParser
  | .none => r
  | .setReason reason => { r with data := { r.data with reason } }
  | .setStatus status => { r with data := { r.data with status } }
  | .setVersion version => { r with data := { r.data with version } }
  | .setHeader key val => { r with data := r.data.setHeader key val }
  | .setError error => { r with error }

/-- `execute(data, len, chunck)`: the number of bytes it has consumed, and what `memmove`
leaves. The result -1 of the parser becomes the largest `size_t`. -/
def execute (r : HttpResponseParser) (data : Bytes) (chunck : Bool) :
    Except Fault (HttpResponseParser × ℕ × Bytes) := do
  let (parser,nread,calls) := (if chunck then .init else r.parser).execute data
  let updates ← calls.mapM (callback data)
  match nread with
  | none => .error .lengthError
  | some offset => return ({ updates.foldl update r with parser },offset,data.drop offset)

/-- `hasError()`. -/
def HasError (r : HttpResponseParser) : Prop := r.error ≠ 0 ∨ r.parser.cs = .error

/-- `isFinished() == 1`. -/
def IsFinished (r : HttpResponseParser) : Prop := r.parser.cs = .firstFinal

instance (r : HttpResponseParser) : Decidable r.HasError := inferInstanceAs (Decidable (_ ∨ _))
instance (r : HttpResponseParser) : Decidable r.IsFinished :=
  inferInstanceAs (Decidable (_ = _))

/-- `getContentLength()`. -/
def getContentLength (lexicalCast : Bytes → Option UInt64) (r : HttpResponseParser) : UInt64 :=
  r.data.getHeaderAs lexicalCast (bytes "content-length") 0

end HttpResponseParser
end CoroutineWebserve.Client
