import CoroutineWebserve.Http.Machine

/-!
# `HttpRequestParser`

`http_parser_execute` runs the machine over a buffer. Its actions keep offsets into that
buffer and call back with them; the callbacks fill in the request.
-/
namespace CoroutineWebserve.Http
open Ragel

/-- How receiving can fail other than by an error of the parser: `std::string` is given a
length that has wrapped around, or a socket delivers more than it was asked for. -/
inductive Fault
  | lengthError
  | overrun
deriving Repr, DecidableEq

/-- `http_parser`; `cs` is the state, the offsets count from the start of the buffer. -/
structure HttpParser where
  cs : State
  bodyStart : ℕ
  contentLen : ℕ
  mark : ℕ
  fieldStart : ℕ
  fieldLen : ℕ
  queryStart : ℕ
  xmlSent : Bool
  jsonSent : Bool
  uriRelaxed : Bool
deriving Repr, DecidableEq

/-- What the fields of a new `http_parser` hold that nothing initialises. -/
structure Uninit where
  queryStart : ℕ
  uriRelaxed : Bool
deriving Repr, DecidableEq

/-- The callbacks that get one part of the message. -/
inductive Element
  | requestMethod | requestPath | queryString | requestUri | fragment | httpVersion
deriving Repr, DecidableEq

/-- A callback with its offsets: the part from `start` to `stop`, a header field, or the end
of the head. -/
inductive Callback
  | element (e : Element) (start stop : ℕ)
  | httpField (fieldStart fieldLen mark stop : ℕ)
  | headerDone
deriving Repr, DecidableEq

namespace HttpParser

/-- `http_parser_init` on a new parser. -/
def init (u : Uninit) : HttpParser where
  cs := .start
  bodyStart := 0
  contentLen := 0
  mark := 0
  fieldStart := 0
  fieldLen := 0
  queryStart := u.queryStart
  xmlSent := false
  jsonSent := false
  uriRelaxed := u.uriRelaxed

/-- One action, with `fpc` at offset `p`. -/
def runAction (p : ℕ) (parser : HttpParser) : Action → HttpParser × List Callback
  | .mark | .startValue => ({ parser with mark := p },[])
  | .startField => ({ parser with fieldStart := p },[])
  | .writeField => ({ parser with fieldLen := p-parser.fieldStart },[])
  | .writeValue => (parser,[.httpField parser.fieldStart parser.fieldLen parser.mark p])
  | .requestMethod => (parser,[.element .requestMethod parser.mark p])
  | .requestUri => (parser,[.element .requestUri parser.mark p])
  | .fragment => (parser,[.element .fragment parser.mark p])
  | .startQuery => ({ parser with queryStart := p },[])
  | .queryString => (parser,[.element .queryString parser.queryStart p])
  | .httpVersion => (parser,[.element .httpVersion parser.mark p])
  | .requestPath => (parser,[.element .requestPath parser.mark p])
  | .done =>
    if parser.xmlSent || parser.jsonSent then
      ({ parser with bodyStart := parser.mark, contentLen := p-parser.mark+1 },[])
    else ({ parser with bodyStart := p+1 },[.headerDone])
  | .xml => ({ parser with xmlSent := true },[])
  | .json => ({ parser with jsonSent := true },[])

def runActions (p : ℕ) : HttpParser → List Action → HttpParser × List Callback
  | parser, [] => (parser,[])
  | parser, a :: actions =>
    let (parser,calls) := parser.runAction p a
    let (parser,more) := parser.runActions p actions
    (parser,calls++more)

/-- The step to `cs` with its actions. -/
def enter (parser : HttpParser) (p : ℕ) (cs : State) (actions : List Action) :
    HttpParser × List Callback :=
  { parser with cs }.runActions p actions

/-- `write exec`: the parser, the offset at which it stops, and the callbacks it has made.
An error stops it before the byte, and `done` behind it. -/
def exec (parser : HttpParser) (p : ℕ) : Bytes → HttpParser × ℕ × List Callback
  | [] => (parser,p,[])
  | b :: rest =>
    let (cs,actions) := step parser.uriRelaxed parser.cs b
    if cs = .error then ({ parser with cs },p,[])
    else
      let (parser,calls) := parser.enter p cs actions
      if .done ∈ actions then (parser,p+1,calls)
      else
        let (parser,q,more) := parser.exec (p+1) rest
        (parser,q,calls++more)

/-- What `http_parser_execute` does first. -/
def reset (parser : HttpParser) : HttpParser :=
  { parser with mark := 0, fieldLen := 0, fieldStart := 0 }

/-- `http_parser_execute(parser, buffer, len, 0)`. -/
def execute (parser : HttpParser) (buffer : Bytes) : HttpParser × ℕ × List Callback :=
  if buffer = [] then (parser,0,[]) else parser.reset.exec 0 buffer

end HttpParser

/-- The one thing a callback does to the parser or its request. -/
inductive Update
  | none
  | setMethod (v : HttpMethod)
  | setPath (v : Bytes)
  | setQuery (v : Bytes)
  | setFragment (v : Bytes)
  | setVersion (v : UInt8)
  | setHeader (key val : Bytes)
  | setError (v : ℕ)
deriving Repr, DecidableEq

/-- The bytes from `start` to `stop`. -/
def slice (s : Bytes) (start stop : ℕ) : Bytes := (s.drop start).take (stop-start)

/-- `std::string(at, length)`: a negative length is a huge `size_t`. -/
def stdString (buffer : Bytes) (start stop : ℕ) : Except Fault Bytes :=
  if start ≤ stop then .ok (slice buffer start stop) else .error .lengthError

/-- `on_request_method`; the length is not looked at. -/
def onRequestMethod (at_ : Bytes) : Update :=
  match charsToHttpMethod at_ with
  | .INVALID_METHOD => .setError 1000
  | m => .setMethod m

def onRequestVersion (at_ : Bytes) (length : ℕ) : Update :=
  if strncmpEq at_ (bytes "HTTP/1.1") length then .setVersion 0x11
  else if strncmpEq at_ (bytes "HTTP/1.0") length then .setVersion 0x10
  else .setError 1001

def onRequestHttpField (field : Bytes) (flen : ℕ) (value : Bytes) (vlen : ℕ) : Update :=
  if flen = 0 then .none else .setHeader (field.take flen) (value.take vlen)

/-- The callbacks that `HttpRequestParser` registers. -/
def callback (buffer : Bytes) : Callback → Except Fault Update
  | .element .requestMethod start _ => .ok (onRequestMethod (buffer.drop start))
  | .element .requestUri _ _ => .ok .none
  | .element .fragment start stop => (stdString buffer start stop).map .setFragment
  | .element .requestPath start stop => (stdString buffer start stop).map .setPath
  | .element .queryString start stop => (stdString buffer start stop).map .setQuery
  | .element .httpVersion start stop => .ok (onRequestVersion (buffer.drop start) (stop-start))
  | .httpField fieldStart fieldLen mark stop =>
    .ok (onRequestHttpField (buffer.drop fieldStart) fieldLen (buffer.drop mark) (stop-mark))
  | .headerDone => .ok .none

/-- `HttpRequestParser`. -/
structure HttpRequestParser where
  parser : HttpParser
  error : ℕ
  data : HttpRequest
deriving Repr, DecidableEq

namespace HttpRequestParser

def new (u : Uninit) : HttpRequestParser := ⟨.init u,0,.new⟩

/-- A callback's effect. -/
def update (r : HttpRequestParser) : Update → HttpRequestParser
  | .none => r
  | .setMethod method => { r with data := { r.data with method } }
  | .setPath path => { r with data := { r.data with path } }
  | .setQuery query => { r with data := { r.data with query } }
  | .setFragment fragment => { r with data := { r.data with fragment } }
  | .setVersion version => { r with data := { r.data with version } }
  | .setHeader key val => { r with data := r.data.setHeader key val }
  | .setError error => { r with error }

/-- `execute(data, len)`: the number of bytes it has consumed, and what `memmove` leaves. -/
def execute (r : HttpRequestParser) (data : Bytes) :
    Except Fault (HttpRequestParser × ℕ × Bytes) := do
  let (parser,offset,calls) := r.parser.execute data
  let updates ← calls.mapM (callback data)
  return ({ updates.foldl update r with parser },offset,data.drop offset)

/-- `hasError()`. -/
def HasError (r : HttpRequestParser) : Prop := r.error ≠ 0 ∨ r.parser.cs = .error

/-- `isFinished() == 1`. -/
def IsFinished (r : HttpRequestParser) : Prop := r.parser.cs.Final

instance (r : HttpRequestParser) : Decidable r.HasError := inferInstanceAs (Decidable (_ ∨ _))
instance (r : HttpRequestParser) : Decidable r.IsFinished :=
  inferInstanceAs (Decidable (State.Final _))

/-- `getContentLength()`. -/
def getContentLength (lexicalCast : Bytes → Option UInt64) (r : HttpRequestParser) : UInt64 :=
  r.data.getHeaderAs lexicalCast (bytes "content-length") 0

end HttpRequestParser
end CoroutineWebserve.Http
