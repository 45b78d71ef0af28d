import CoroutineWebserve.Http.Grammar
import CoroutineWebserve.Http.Message

/-!
# The machine of `http11_parser.rl`

The states of the automaton that Ragel makes from `main`, and the actions of each step in
the order in which it runs them. Inside a target, query or fragment the state is the pattern
that is left; method and version count their bytes.
-/
namespace CoroutineWebserve.Http
open Ragel

/-- The actions of the machine. -/
inductive Action
  | mark | startField | writeField | startValue | writeValue | requestMethod | requestUri
  | fragment | startQuery | queryString | httpVersion | requestPath | done | xml | json
deriving Repr, DecidableEq

/-- The value of `cs`. -/
inductive State
  | error
  | start
  /-- Inside the method; `n` bytes of it have been read. -/
  | method (n : ℕ)
  /-- Before the path; `scheme` when a scheme may still come first. -/
  | targetStart (part : Pattern) (scheme : Bool)
  | target (rest : Pattern) (scheme : Bool)
  | queryStart
  | query (rest : Pattern)
  | fragmentStart
  | fragment (rest : Pattern)
  | versionStart
  /-- Inside the version; `n` bytes of it have been read. -/
  | version (n : ℕ)
  /-- After the CR of a line. -/
  | lineEnd
  /-- At the start of a line. -/
  | headerStart
  /-- After a CR at the start of a line. -/
  | headerCr
  | fieldName
  | valueStart
  | value
  | xmlName (first : Bool)
  | xmlData
  | xmlClose
  | jsonStart (rest : Pattern)
  | jsonBrace
  | jsonData
  | jsonClose
  /-- The final state of a request. -/
  | requestDone
  /-- The final state of XML and JSON messages. -/
  | socketDone
deriving Repr, DecidableEq

namespace State

/-- `cs >= http_parser_first_final`. -/
def Final : State → Prop
  | requestDone | socketDone => True
  | _ => False

instance : DecidablePred Final := fun s => by cases s <;> unfold Final <;> infer_instance

end State

/-- `upper | digit`. -/
def isMethodByte (b : UInt8) : Bool := inRanges [(65,90),(48,57)] b

def isAlpha (b : UInt8) : Bool := inRanges [(65,90),(97,122)] b

/-- Bytes of a scheme after its first. -/
def isSchemeByte (b : UInt8) : Bool := isAlpha b || inRanges [(48,57),(43,43),(45,46)] b

/-- `HTTP_separator`. -/
def isSeparator (b : UInt8) : Bool := (bytes "()<>@,;:\\\"/[]?=\x7b\x7d \t").contains b

/-- `token`. Of the control characters `HTTP_CTL` names only 0 and 127, since `0 - 31` is
the byte 0 without the byte 31. -/
def isToken (b : UInt8) : Bool := b < 127 && b ≠ 0 && !isSeparator b

/-- Bytes of `content`. -/
def isContent (b : UInt8) : Bool := b ≠ 0 && b ≠ 127

/-- Bytes of an XML name. -/
def isXmlNameByte (b : UInt8) : Bool := isAlpha b || inRanges [(48,57),(45,46)] b

/-- `"/" | space | ">"`. -/
def isXmlNameEnd (b : UInt8) : Bool := inRanges [(9,13),(32,32),(47,47),(62,62)] b

/-- The byte `b` follows `n` bytes of `HTTP_Version`. -/
def isVersionByte (n : ℕ) (b : UInt8) : Bool :=
  if n = 7 then b = 48 || b = 49 else (bytes "HTTP/1.")[n]? = some b

/-- A step inside a pattern. -/
def within (rest : Pattern) (state : Pattern → State) (actions : List Action) :
    State × List Action :=
  if rest = .none then (.error,[]) else (state rest,actions)

/-- The transition of `cs` on `b`, and its actions. Where there is none the state is `error`. -/
def step (relaxed : Bool) (cs : State) (b : UInt8) : State × List Action :=
  match cs with
  | .error => (.error,[])
  | .start =>
    if isMethodByte b then (.method 1,[.mark])
    else if b = 60 then (.xmlName true,[.mark])
    else if b = 64 then (.jsonStart (Grammar.relativePart relaxed),[.mark])
    else (.error,[])
  | .method n =>
    if b = 32 then (.targetStart (Grammar.relativePart relaxed) true,[.requestMethod])
    else if isMethodByte b && n < 20 then (.method (n+1),[])
    else (.error,[])
  | .targetStart part scheme =>
    if b = 32 then (.versionStart,[.mark,.requestPath,.requestUri])
    else if b = 35 then (.fragmentStart,[.mark,.requestPath,.requestUri])
    else if b = 63 then (.queryStart,[.mark,.requestPath])
    else within (part.after b) (.target · (scheme && isAlpha b)) [.mark]
  | .target rest scheme =>
    if rest.nullable && b = 32 then (.versionStart,[.requestPath,.requestUri])
    else if rest.nullable && b = 35 then (.fragmentStart,[.requestPath,.requestUri])
    else if rest.nullable && b = 63 then (.queryStart,[.requestPath])
    else if scheme && b = 58 then (.targetStart (Grammar.hierPart relaxed) false,[])
    else within (rest.after b) (.target · (scheme && isSchemeByte b)) []
  | .queryStart =>
    if b = 32 then (.versionStart,[.startQuery,.queryString,.requestUri])
    else if b = 35 then (.fragmentStart,[.startQuery,.queryString,.requestUri])
    else within ((Grammar.query relaxed).after b) .query [.startQuery]
  | .query rest =>
    if rest.nullable && b = 32 then (.versionStart,[.queryString,.requestUri])
    else if rest.nullable && b = 35 then (.fragmentStart,[.queryString,.requestUri])
    else within (rest.after b) .query []
  | .fragmentStart =>
    if b = 32 then (.versionStart,[.mark,.fragment])
    else within ((Grammar.fragment relaxed).after b) .fragment [.mark]
  | .fragment rest =>
    if rest.nullable && b = 32 then (.versionStart,[.fragment])
    else within (rest.after b) .fragment []
  | .versionStart => if isVersionByte 0 b then (.version 1,[.mark]) else (.error,[])
  | .version n =>
    if n = 8 && b = 10 then (.headerStart,[.httpVersion])
    else if n = 8 && b = 13 then (.lineEnd,[.httpVersion])
    else if isVersionByte n b then (.version (n+1),[])
    else (.error,[])
  | .lineEnd => if b = 10 then (.headerStart,[]) else (.error,[])
  | .headerStart =>
    -- CR and LF are bytes of `token` too
    if b = 10 then (.requestDone,[.startField,.done])
    else if b = 13 then (.headerCr,[.startField])
    else if isToken b then (.fieldName,[.startField])
    else (.error,[])
  | .headerCr =>
    if b = 10 then (.requestDone,[.done])
    else if isToken b then (.fieldName,[])
    else if b = 58 then (.valueStart,[.writeField])
    else (.error,[])
  | .fieldName | .requestDone =>
    if isToken b then (.fieldName,[])
    else if b = 58 then (.valueStart,[.writeField])
    else (.error,[])
  | .valueStart =>
    if b = 10 then (.headerStart,[.startValue,.writeValue])
    else if b = 13 then (.lineEnd,[.startValue,.writeValue])
    else if b = 9 || b = 32 then (.valueStart,[.startValue])
    else if isContent b then (.value,[.startValue])
    else (.error,[])
  | .value =>
    if b = 10 then (.headerStart,[.writeValue])
    else if b = 13 then (.lineEnd,[.writeValue])
    else if isContent b then (.value,[])
    else (.error,[])
  | .xmlName first =>
    if isXmlNameByte b then (.xmlName false,[])
    else if !first && isXmlNameEnd b then (.xmlData,[.requestPath])
    else (.error,[])
  | .xmlData => if b = 62 then (.xmlClose,[]) else (.xmlData,[])
  | .xmlClose =>
    if b = 0 then (.socketDone,[.xml,.done])
    else if b = 62 then (.xmlClose,[])
    else (.xmlData,[])
  | .jsonStart rest =>
    if rest.nullable && b = 32 then (.jsonBrace,[.requestPath])
    else within (rest.after b) .jsonStart []
  | .jsonBrace => if b = 123 then (.jsonData,[.mark]) else (.error,[])
  | .jsonData => if b = 125 then (.jsonClose,[]) else (.jsonData,[])
  | .jsonClose =>
    if b = 0 then (.socketDone,[.json,.done])
    else if b = 125 then (.jsonClose,[])
    else (.jsonData,[])
  | .socketDone => (.error,[])

end CoroutineWebserve.Http
