import CoroutineWebserve.Http.Message
import CoroutineWebserve.Ragel.Pattern

/-!
# The machine of `httpclient_parser.rl`

`main` reads the head of a response or the line before a chunk. A header is read by `fields`
and by those of the three special alternatives that its bytes still fit, all at once; the
state keeps the place in each of them. The special alternatives go on over line ends where
`fields` has already begun a new line.
-/
namespace CoroutineWebserve.Client
open Http Ragel

/-- The actions of the machine. -/
inductive Action
  | mark | startField | writeField | startValue | writeContentLen | writeConnectionClose
  | writeValue | reasonPhrase | statusCode | httpVersion | chunkSize | transChunked | done
deriving Repr, DecidableEq

/-- The alternatives of `message_header` other than `fields`. -/
inductive Special
  | transferEncodingChunked | connClose | contentLength
deriving Repr, DecidableEq

/-- A place in a special alternative. -/
inductive Place
  /-- `n` bytes of the name have been read. -/
  | name (n : ℕ)
  /-- In the blanks behind the colon. -/
  | space
  /-- `n` bytes of the value have been read, or at least one digit. -/
  | value (n : ℕ)
  /-- After the CR behind the value. -/
  | lineEnd
deriving Repr, DecidableEq

/-- The place in `fields`, in the line ends behind it, or in the end of the head. -/
inductive Line
  | none
  | start
  | name
  | valueStart
  | value
  /-- After the CR of a line. -/
  | lineEnd
  /-- After the CR of the empty line, or of the line before a chunk. -/
  | headEnd
  | done
deriving Repr, DecidableEq

/-- The value of `cs`. -/
inductive State
  | error
  | start
  | chunkSize
  | extensionStart
  | extensionName
  | extensionValueStart
  | extensionValue
  /-- Inside `"HTTP/"`; `n` bytes of it have been read. -/
  | protocol (n : ℕ)
  | major
  | minorStart
  | minor
  | statusStart
  | status
  | reasonStart
  | reason
  /-- In the headers. `closing`: a header `Connection: close` ends here. -/
  | header (line : Line) (closing : Bool) (specials : List (Special × Place))
deriving Repr, DecidableEq

namespace State

/-- `httpclient_parser_first_final`; other final states still read a special header. -/
def firstFinal : State := .header .done false []

end State

/-- `digit`. -/
def isDigit (b : UInt8) : Bool := inRanges [(48,57)] b

/-- `xdigit`. -/
def isXdigit (b : UInt8) : Bool := inRanges [(48,57),(65,70),(97,102)] b

/-- `space`. -/
def isSpace (b : UInt8) : Bool := inRanges [(9,13),(32,32)] b

/-- `tspecials`. -/
def isTspecial (b : UInt8) : Bool := (bytes "()<>@,;:\\\"/[]?=\x7b\x7d \t").contains b

/-- `token`. -/
def isToken (b : UInt8) : Bool := 32 ≤ b && b < 127 && !isTspecial b

namespace Special

/-- The name, which is read in either case. -/
def name : Special → Bytes
  | transferEncodingChunked => bytes "transfer-encoding"
  | connClose => bytes "connection"
  | contentLength => bytes "content-length"

/-- The `n`-th byte of the value. -/
def IsValueByte : Special → ℕ → UInt8 → Prop
  | transferEncodingChunked, n, b => (bytes "chunked")[n]? = some (tolower b)
  | connClose, n, b => (bytes "close")[n]? = some (tolower b)
  | contentLength, _, b => isDigit b

/-- The value is whole. -/
def IsValue : Special → ℕ → Prop
  | transferEncodingChunked, n => n = 7
  | connClose, n => n = 5
  | contentLength, n => n ≠ 0

instance (k : Special) (n : ℕ) (b : UInt8) : Decidable (k.IsValueByte n b) := by
  cases k <;> unfold IsValueByte <;> infer_instance

instance (k : Special) (n : ℕ) : Decidable (k.IsValue n) := by
  cases k <;> unfold IsValue <;> infer_instance

/-- The actions at the first byte of the name. -/
def nameActions : Special → List Action
  | connClose => []
  | _ => [.startField]

/-- The actions behind the name. -/
def nameEndActions : Special → List Action
  | connClose => []
  | _ => [.writeField]

/-- The actions at the first byte of the value. -/
def valueActions : Special → List Action
  | connClose => []
  | _ => [.startValue]

/-- The actions behind the value. -/
def valueEndActions : Special → List Action
  | transferEncodingChunked => [.writeValue]
  | connClose => []
  | contentLength => [.writeContentLen,.writeValue]

/-- The actions at the end of the line. -/
def lineActions : Special → List Action
  | transferEncodingChunked => [.transChunked]
  | _ => []

/-- Where an alternative goes: to another place, or to its end. -/
inductive Move
  | to (place : Place)
  | ends
deriving Repr, DecidableEq

/-- The transition of an alternative on `b`. -/
def step (k : Special) (place : Place) (b : UInt8) : Option (Move × List Action) :=
  match place with
  | .name n =>
    if k.name[n]? = some (tolower b) then
      some (.to (.name (n+1)),if n = 0 then k.nameActions else [])
    else if n = k.name.length ∧ b = 58 then some (.to .space,k.nameEndActions)
    else none
  | .space =>
    if isSpace b then some (.to .space,[])
    else if k.IsValueByte 0 b then some (.to (.value 1),k.valueActions)
    else none
  | .value n =>
    if k.IsValue n ∧ b = 10 then some (.ends,k.valueEndActions++k.lineActions)
    else if k.IsValue n ∧ b = 13 then some (.to .lineEnd,k.valueEndActions)
    else if k.IsValueByte n b then some (.to (.value (if k = contentLength then n else n+1)),[])
    else none
  | .lineEnd => if b = 10 then some (.ends,k.lineActions) else none

end Special

/-- The transition in `fields` and in the lines around it. -/
def Line.step (line : Line) (b : UInt8) : Line × List Action :=
  match line with
  | .start =>
    if b = 10 then (.done,[.done])
    else if b = 13 then (.headEnd,[])
    else if isToken b then (.name,[.startField])
    else (.none,[])
  | .name =>
    if isToken b then (.name,[])
    else if b = 58 then (.valueStart,[.writeField])
    else (.none,[])
  | .valueStart =>
    if b = 10 then (.start,[.startValue,.writeValue])
    else if b = 13 then (.lineEnd,[.startValue,.writeValue])
    else if isSpace b then (.valueStart,[.startValue])
    else (.value,[.startValue])
  | .value =>
    if b = 10 then (.start,[.writeValue])
    else if b = 13 then (.lineEnd,[.writeValue])
    else (.value,[])
  | .lineEnd => if b = 10 then (.start,[]) else (.none,[])
  | .headEnd => if b = 10 then (.done,[.done]) else (.none,[])
  | .none | .done => (.none,[])

/-- The places of the special alternatives; at the start of a line all of them begin. -/
def openSpecials (line : Line) (specials : List (Special × Place)) : List (Special × Place) :=
  specials++if line = .start then
    [(.transferEncodingChunked,.name 0),(.connClose,.name 0),(.contentLength,.name 0)] else []

/-- The transitions of the special alternatives on `b`. -/
def moves (specials : List (Special × Place)) (b : UInt8) :
    List (Special × Special.Move × List Action) :=
  specials.filterMap fun s => (s.1.step s.2 b).map (s.1,·)

/-- The transition of `cs` on `b` in the headers. -/
def headerStep (line : Line) (closing : Bool) (specials : List (Special × Place)) (b : UInt8) :
    State × List Action :=
  let moved := moves (openSpecials line specials) b
  let ended := moved.filter (·.2.1 = .ends)
  let next := if ended = [] then (line.step b).1 else .start
  let places := moved.filterMap fun m =>
    match m.2.1 with | .to place => some (m.1,place) | .ends => none
  if next = .none ∧ places = [] then (.error,[])
  else
    -- an action of several alternatives runs once
    (.header next (ended.any (·.1 = .connClose)) places,
      ((if closing then [Action.writeConnectionClose] else [])
        ++moved.flatMap (·.2.2)++(line.step b).2).eraseDups)

/-- The transition of `cs` on `b`, and its actions. Where there is none the state is `error`. -/
def step (cs : State) (b : UInt8) : State × List Action :=
  match cs with
  | .error => (.error,[])
  | .start =>
    if isXdigit b then (.chunkSize,[.mark])
    else if b = 72 then (.protocol 1,[.mark])
    else (.error,[])
  | .chunkSize =>
    if b = 10 then (.firstFinal,[.chunkSize,.done])
    else if b = 13 then (.header .headEnd false [],[.chunkSize])
    else if isXdigit b then (.chunkSize,[])
    else if b = 59 then (.extensionStart,[.chunkSize])
    else (.error,[])
  | .extensionStart => if isToken b then (.extensionName,[.startField]) else (.error,[])
  | .extensionName =>
    if b = 10 then (.firstFinal,[.writeField,.startValue,.writeValue,.done])
    else if b = 13 then (.header .headEnd false [],[.writeField,.startValue,.writeValue])
    else if isToken b then (.extensionName,[])
    else if b = 59 then (.extensionStart,[.writeField,.startValue,.writeValue])
    else if b = 61 then (.extensionValueStart,[.writeField,.startValue])
    else (.error,[])
  | .extensionValueStart => if isToken b then (.extensionValue,[.startValue]) else (.error,[])
  | .extensionValue =>
    if b = 10 then (.firstFinal,[.writeValue,.done])
    else if b = 13 then (.header .headEnd false [],[.writeValue])
    else if isToken b then (.extensionValue,[])
    else if b = 59 then (.extensionStart,[.writeValue])
    else (.error,[])
  | .protocol n =>
    if (bytes "HTTP/")[n]? = some b then (.protocol (n+1),[])
    else if n = 5 ∧ isDigit b then (.major,[])
    else (.error,[])
  | .major =>
    if b = 46 then (.minorStart,[])
    else if isDigit b then (.major,[])
    else (.error,[])
  | .minorStart => if isDigit b then (.minor,[]) else (.error,[])
  | .minor =>
    if b = 32 then (.statusStart,[.httpVersion])
    else if isDigit b then (.minor,[])
    else (.error,[])
  | .statusStart => if isDigit b then (.status,[.mark]) else (.error,[])
  | .status =>
    if b = 32 then (.reasonStart,[.statusCode])
    else if isDigit b then (.status,[])
    else (.error,[])
  | .reasonStart => if b = 10 then (.error,[]) else (.reason,[.mark])
  | .reason =>
    if b = 10 then (.header .start false [],[.reasonPhrase])
    else if b = 13 then (.header .lineEnd false [],[.reasonPhrase])
    else (.reason,[])
  | .header line closing specials => headerStep line closing specials b

end CoroutineWebserve.Client
