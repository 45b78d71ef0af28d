import CoroutineWebserve.Http.Parser

/-!
# What the machine's actions rely on

Every transition ends the run exactly when it enters a final state, calls back with each
part of a message once, and reads no offset that it has not set before.
-/
namespace CoroutineWebserve.Http
open Ragel

/-- The part of the message that an action calls back with. -/
def Action.element : Action → Option Element
  | .requestMethod => some .requestMethod
  | .requestPath => some .requestPath
  | .queryString => some .queryString
  | .requestUri => some .requestUri
  | .fragment => some .fragment
  | .httpVersion => some .httpVersion
  | .mark | .startField | .writeField | .startValue | .writeValue | .startQuery | .done | .xml
  | .json => none

/-- The parts that may still come from this state on, in their order. -/
def State.pending : State → List Element
  | .start | .method _ =>
    [.requestMethod,.requestPath,.queryString,.requestUri,.fragment,.httpVersion]
  | .targetStart .. | .target .. =>
    [.requestPath,.queryString,.requestUri,.fragment,.httpVersion]
  | .queryStart | .query _ => [.queryString,.requestUri,.fragment,.httpVersion]
  | .fragmentStart | .fragment _ => [.fragment,.httpVersion]
  | .versionStart | .version _ => [.httpVersion]
  | .xmlName _ | .jsonStart _ => [.requestPath]
  | .error | .lineEnd | .headerStart | .headerCr | .fieldName | .valueStart | .value
  | .xmlData | .xmlClose | .jsonBrace | .jsonData | .jsonClose | .requestDone | .socketDone => []

/-- Which offsets are those of the part being read: the start of a query, the end of a
field's name. -/
structure Known where
  query : Bool
  field : Bool
deriving DecidableEq

namespace Known

/-- The offsets of a state. -/
def of : State → Known
  | .query _ => ⟨true,false⟩
  | .valueStart | .value => ⟨false,true⟩
  | _ => ⟨false,false⟩

def after (k : Known) : Action → Known
  | .startQuery => { k with query := true }
  | .writeField => { k with field := true }
  | .startField => { k with field := false }
  | _ => k

/-- The action reads no other offsets. -/
def Ready (k : Known) : Action → Prop
  | .queryString => k.query
  | .writeValue => k.field
  | _ => True

/-- Every action finds the offsets it reads, and those of `next` are known behind them. -/
def Serves (next : State) : Known → List Action → Prop
  | k, [] => ((of next).query → k.query) ∧ ((of next).field → k.field)
  | k, a :: actions => k.Ready a ∧ Serves next (k.after a) actions

end Known

/-- What holds of every transition. -/
structure Transition (s : State) (b : UInt8) (next : State) (actions : List Action) :
    Prop where
  final : .done ∈ actions ↔ next.Final
  method : .requestMethod ∈ actions → b = 32
  serves : (Known.of s).Serves next actions
  pending : (actions.filterMap Action.element++next.pending).Sublist s.pending
  version : ∀ n, next = .version n → n = 1 ∧ actions = [.mark] ∨
    actions = [] ∧ ∃ k, s = .version k ∧ n = k+1
  httpVersion : .httpVersion ∈ actions → s = .version 8 ∧ actions = [.httpVersion]

theorem Transition.stop (s : State) (b : UInt8) : Transition s b .error [] where
  final := by simp [State.Final]
  method h := nomatch h
  serves := by simp [Known.Serves, Known.of]
  pending := List.nil_sublist _
  version n h := nomatch h
  httpVersion h := nomatch h

theorem Transition.within {s : State} {b : UInt8} {state : Pattern → State}
    {actions : List Action} (rest : Pattern) (h : ∀ p, Transition s b (state p) actions) :
    Transition s b (within rest state actions).1 (within rest state actions).2 := by
  unfold Http.within
  split
  · exact .stop s b
  · exact h rest

theorem step_transition (relaxed : Bool) (s : State) (b : UInt8) :
    Transition s b (step relaxed s b).1 (step relaxed s b).2 := by
  cases s with
  | error | socketDone => exact .stop _ b
  | _ =>
    simp only [step]
    -- no transition, a step inside a pattern, or a step to a state that is named
    split_ifs <;> first | exact .stop _ b | refine .within _ fun p => ?_ | skip
    all_goals
      refine ⟨?_,?_,?_,by simp only [State.pending]; decide,?_,?_⟩
      · simp [State.Final]
      · simp_all
      · simp [Known.Serves, Known.Ready, Known.of, Known.after]
      · simp
      · simp_all

end CoroutineWebserve.Http
