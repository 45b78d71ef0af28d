import CoroutineWebserve.Uri.Machine
import CoroutineWebserve.Ragel.Run
import CoroutineWebserve.Http.Dump
import Mathlib.Data.Int.Notation

/-!
# `Uri`

`Create` runs the machine over a string. Its actions keep one offset, `mark`, and set the parts
of the URI with the text from there on. `toString` prints the parts.
-/
namespace CoroutineWebserve
open Http (Bytes bytes)

structure Uri where
  scheme : Bytes
  userinfo : Bytes
  host : Bytes
  path : Bytes
  query : Bytes
  fragment : Bytes
  port : Int32
deriving Repr, DecidableEq

namespace Uri
open Ragel

/-! ### Parsing -/

/-- `uri_parser`: the state, and the offset of `mark` if it is not `NULL`. -/
structure Parser where
  cs : State
  mark : Option ℕ
deriving Repr, DecidableEq

/-- The parts that actions set. -/
inductive Part
  | scheme | userinfo | host | port | path | query | fragment
deriving Repr, DecidableEq

/-- A part that is set, with `mark` and `fpc`. -/
structure Setter where
  part : Part
  mark : Option ℕ
  stop : ℕ
deriving Repr, DecidableEq

/-- What is thrown when a `std::string` is made from `NULL`. -/
inductive LogicError
  | constructionFromNull
deriving Repr, DecidableEq

/-- One action, with `fpc` at offset `p`. -/
def Parser.runAction (p : ℕ) (s : Parser) : Action → Parser × List Setter
  | .marku | .markh => ({ s with mark := some p },[])
  | .saveScheme => ({ s with mark := none },[⟨.scheme,s.mark,p⟩])
  | .savePort =>
    ({ s with mark := none },if s.mark = some p then [] else [⟨.port,s.mark,p⟩])
  | .saveUserinfo =>
    ({ s with mark := none },if s.mark = none then [] else [⟨.userinfo,s.mark,p⟩])
  | .saveHost => (s,if s.mark = none then [] else [⟨.host,s.mark,p⟩])
  | .savePath => ({ s with mark := none },[⟨.path,s.mark,p⟩])
  | .saveQuery => ({ s with mark := none },[⟨.query,s.mark,p⟩])
  | .saveFragment => ({ s with mark := none },[⟨.fragment,s.mark,p⟩])

def Parser.runActions (p : ℕ) : Parser → List Action → Parser × List Setter
  | s, [] => (s,[])
  | s, a :: actions =>
    let (s,calls) := s.runAction p a
    let (s,more) := s.runActions p actions
    (s,calls++more)

/-- What the machine does with a byte; without a transition it stops. -/
def Parser.byteStep (s : Parser) (p : ℕ) (b : UInt8) : Outcome Parser Setter :=
  let (cs,actions) := step s.cs b
  if cs = .error then .stop { s with cs }
  else
    let (s,calls) := Parser.runActions p { s with cs } actions
    .go s calls

/-- `isspace` in the C locale. -/
def isSpace (b : UInt8) : Bool := inRanges [(9,13),(32,32)] b

/-- `strtol(s, NULL, 10)`: blanks, a sign, and digits; a number that does not fit into a `long`
is the nearest that does. -/
def strtol (s : Bytes) : ℤ :=
  let s := s.dropWhile isSpace
  let value (s : Bytes) : ℤ := Http.decimalValue (s.takeWhile isDigit)
  let n := match s with
    | 45 :: s => -value s
    | 43 :: s => value s
    | s => value s
  max (-2^63) (min n (2^63-1))

/-- `atoi(s)`, which is `(int)strtol(s, NULL, 10)`. -/
def atoi (s : Bytes) : Int32 := Int32.ofInt (strtol s)

/-- `Uri()`. -/
def new : Uri := ⟨[],[],[],[],[],[],0⟩

/-- `setScheme(v)` and the like; the port is read from where `mark` points to. -/
def put (u : Uri) (v mark : Bytes) : Part → Uri
  | .scheme => { u with scheme := v }
  | .userinfo => { u with userinfo := v }
  | .host => { u with host := v }
  | .port => { u with port := atoi mark }
  | .path => { u with path := v }
  | .query => { u with query := v }
  | .fragment => { u with fragment := v }

/-- A part is set to `std::string(mark, fpc - mark)`. -/
def set (text : Bytes) (u : Uri) (c : Setter) : Except LogicError Uri :=
  match c.mark with
  | none => .error .constructionFromNull
  | some mark => .ok (u.put ((text.drop mark).take (c.stop-mark)) (text.drop mark) c.part)

/-- `Uri::Create(uristr)`: the URI, or no URI for a string that the machine does not accept. The
actions at the end of the string are made in final states only. -/
def Create (text : Bytes) : Except LogicError (Option Uri) := do
  let (s,p,calls) := run Parser.byteStep ⟨.start,none⟩ 0 text
  if s.cs.Final then
    return some (← (calls++(s.runActions p (eof s.cs)).2).foldlM (set text) new)
  else
    let _ ← calls.foldlM (set text) new
    return none

/-! ### Printing -/

def isDefaultPort (u : Uri) : Bool :=
  if u.port = 0 then true
  else if u.scheme = bytes "http" || u.scheme = bytes "ws" then u.port = 80
  else if u.scheme = bytes "https" || u.scheme = bytes "wss" then u.port = 443
  else false

def getPath (u : Uri) : Bytes := if u.path = [] then bytes "/" else u.path

def getPort (u : Uri) : Int32 :=
  if u.port ≠ 0 then u.port
  else if u.scheme = bytes "http" || u.scheme = bytes "ws" then 80
  else if u.scheme = bytes "https" || u.scheme = bytes "wss" then 443
  else u.port

/-- `std::to_string(v)`. -/
def decimal (v : Int32) : Bytes :=
  (if v.toInt < 0 then bytes "-" else [])++Http.decimal v.toInt.natAbs

/-- `toString()`, which is what `dump` prints. -/
def toString (u : Uri) : Bytes :=
  u.scheme++bytes "://"
    ++u.userinfo++(if u.userinfo = [] then [] else bytes "@")
    ++u.host
    ++(if u.isDefaultPort then [] else bytes ":"++decimal u.port)
    ++u.getPath
    ++(if u.query = [] then [] else bytes "?")++u.query
    ++(if u.fragment = [] then [] else bytes "#")++u.fragment

end Uri
end CoroutineWebserve
