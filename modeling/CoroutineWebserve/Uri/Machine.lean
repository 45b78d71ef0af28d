import CoroutineWebserve.Uri.Grammar

/-!
# The machine of `uri.rl`

The states of the automaton that Ragel makes from `main`, and the actions of each step in the
order in which it runs them. Inside a part of the URI the state is the pattern that is left. A
userinfo cannot be told from a host and a port before its `@`, so both are read at a time.
-/
namespace CoroutineWebserve.Uri
open Ragel

/-- The actions of the machine. -/
inductive Action
  | marku | markh | saveScheme | savePort | saveUserinfo | saveHost | savePath | saveQuery
  | saveFragment
deriving Repr, DecidableEq

/-- Where the machine stands in `host (":" port)?`, if what it has read may be one. -/
inductive Server
  | none
  | hostStart
  | host (rest : Pattern)
  | portStart
  | port
deriving Repr, DecidableEq

/-- The value of `cs`. -/
inductive State
  | error
  | start
  /-- A path that no action saves; `scheme` when it may turn out to be a scheme. -/
  | plain (rest : Pattern) (scheme : Bool)
  /-- Behind the first `/`; `hier` when a scheme has been read. -/
  | slash (hier : Bool)
  /-- Behind the `:` of the scheme. -/
  | hierStart
  /-- In the authority; `info` is what is left of its userinfo. -/
  | authority (hier : Bool) (info : Pattern) (server : Server)
  | path (rest : Pattern)
  | queryStart
  | query (rest : Pattern)
  | fragmentStart
  | fragment (rest : Pattern)
deriving Repr, DecidableEq

def isAlpha (b : UInt8) : Bool := inRanges [(65,90),(97,122)] b
def isDigit (b : UInt8) : Bool := inRanges [(48,57)] b

/-- Bytes of a scheme after its first. -/
def isSchemeByte (b : UInt8) : Bool := isAlpha b || isDigit b || inRanges [(43,43),(45,46)] b

namespace Server

/-- The host and the port may end here. -/
def Final : Server → Prop
  | hostStart | portStart | port => True
  | host rest => rest.nullable
  | none => False

instance : DecidablePred Final := fun s => by cases s <;> unfold Final <;> infer_instance

/-- The host may end here. -/
def HostEnds : Server → Prop
  | hostStart => True
  | host rest => rest.nullable
  | none | portStart | port => False

instance : DecidablePred HostEnds := fun s => by cases s <;> unfold HostEnds <;> infer_instance

/-- The actions that leave the host or the port. -/
def leave : Server → List Action
  | none => []
  | hostStart => [.markh,.saveHost]
  | host _ => [.saveHost]
  | portStart => [.markh,.savePort]
  | port => [.savePort]

def ofPattern (rest : Pattern) : Server := if rest = .none then none else host rest

/-- A byte inside the host or the port. -/
def after (b : UInt8) : Server → Server
  | none => none
  | hostStart => ofPattern (Grammar.host.after b)
  | host rest => ofPattern (rest.after b)
  | portStart | port => if isDigit b then port else none

/-- The actions on such a byte. -/
def enter (b : UInt8) : Server → List Action
  | hostStart => [.markh]
  | portStart => if isDigit b then [.markh] else []
  | none | host _ | port => []

/-- The actions that leave the authority for a path; an action that is there already is not
made again. -/
def leavePath (hier : Bool) (s : Server) : List Action :=
  if hier && .markh ∉ s.leave then s.leave++[.markh] else s.leave

end Server

namespace State

/-- `cs >= uri_parser_first_final`. -/
def Final : State → Prop
  | error => False
  | start | slash _ | hierStart | queryStart | fragmentStart => True
  | plain rest _ | path rest | query rest | fragment rest => rest.nullable
  | authority _ _ server => server.Final

instance : DecidablePred Final := fun s => by cases s <;> unfold Final <;> infer_instance

end State

/-- A step inside a pattern. -/
def within (rest : Pattern) (state : Pattern → State) (actions : List Action) :
    State × List Action :=
  if rest = .none then (.error,[]) else (state rest,actions)

/-- What is left of `path_absolute` behind its `/`. -/
def absoluteRest : Pattern :=
  (Grammar.segmentNz ++ (Pattern.char '/' ++ Grammar.segment).star).opt

/-- The transition inside an authority. -/
def authorityStep (hier : Bool) (info : Pattern) (server : Server) (b : UInt8) :
    State × List Action :=
  if info.nullable && b = 64 then
    (.authority hier .none .hostStart,
      (if server = .hostStart then [.markh] else [])++[.saveUserinfo])
  else if server.HostEnds ∧ b = 58 then
    (.authority hier (info.after b) .portStart,server.leave)
  else if server.Final ∧ b = 47 then
    let rest := Grammar.pathAbempty.after b
    (if hier then .path rest else .plain rest false,server.leavePath hier)
  else if server.Final ∧ b = 63 then
    (.queryStart,server.leavePath hier++if hier then [.savePath] else [])
  else if server.Final ∧ b = 35 then
    (.fragmentStart,server.leavePath hier++if hier then [.savePath] else [])
  else if info.after b = .none ∧ server.after b = .none then (.error,[])
  else (.authority hier (info.after b) (server.after b),server.enter b)

/-- The transition of `cs` on `b`, and its actions. Where there is none the state is `error`. -/
def step (cs : State) (b : UInt8) : State × List Action :=
  match cs with
  | .error => (.error,[])
  | .start =>
    if b = 47 then (.slash false,[])
    else if b = 63 then (.queryStart,[])
    else if b = 35 then (.fragmentStart,[])
    else within (Grammar.pathNoscheme.after b) (.plain · (isAlpha b))
      (if isAlpha b then [.marku] else [])
  | .plain rest scheme =>
    if rest.nullable && b = 63 then (.queryStart,[])
    else if rest.nullable && b = 35 then (.fragmentStart,[])
    else if scheme && b = 58 then (.hierStart,[.saveScheme])
    else within (rest.after b) (.plain · (scheme && isSchemeByte b)) []
  | .slash hier =>
    if b = 47 then (.authority hier Grammar.userinfo .hostStart,[])
    else if b = 63 then (.queryStart,[])
    else if b = 35 then (.fragmentStart,[])
    else within (absoluteRest.after b) (.plain · false) []
  | .hierStart =>
    if b = 47 then (.slash true,[])
    else if b = 63 then (.queryStart,[])
    else if b = 35 then (.fragmentStart,[])
    else within (Grammar.pathRootless.after b) (.plain · false) []
  | .authority hier info server => authorityStep hier info server b
  | .path rest =>
    if rest.nullable && b = 63 then (.queryStart,[.savePath])
    else if rest.nullable && b = 35 then (.fragmentStart,[.savePath])
    else within (rest.after b) .path []
  | .queryStart =>
    if b = 35 then (.fragmentStart,[.marku,.saveQuery])
    else within (Grammar.query.after b) .query [.marku]
  | .query rest =>
    if rest.nullable && b = 35 then (.fragmentStart,[.saveQuery])
    else within (rest.after b) .query []
  | .fragmentStart => within (Grammar.fragment.after b) .fragment [.marku]
  | .fragment rest => within (rest.after b) .fragment []

/-- The actions at the end of the string. -/
def eof : State → List Action
  | .authority hier _ server => server.leavePath hier++if hier then [.savePath] else []
  | .path _ => [.savePath]
  | .queryStart => [.marku,.saveQuery]
  | .query _ => [.saveQuery]
  | .fragmentStart => [.marku,.saveFragment]
  | .fragment _ => [.saveFragment]
  | .error | .start | .plain .. | .slash _ | .hierStart => []

end CoroutineWebserve.Uri
