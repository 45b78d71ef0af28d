import CoroutineWebserve.Fibers.Program
import CoroutineWebserve.Scheduler.Model

/-!
# The fibers of the thread that owns a `Scheduler`

A `Scheduler(1, true)` starts no thread: `stop` switches from the thread's own fiber to
`m_rootFiber`, which executes `run`, and `run` switches to the fibers of the tasks and to the
idle fiber. A step goes from one place in a stack to the next; `swapcontext` saves the place where
it returns in one context and goes on at the place that another has saved. A context that was
loaded holds nothing of use until it is saved again.
-/
namespace CoroutineWebserve.Fibers
open Scheduler (State)

/-- The fiber objects: `t_threadFiber`, `m_rootFiber`, `idle_fiber`, and those made for callbacks. -/
inductive Name
  | thread
  | root
  | idle
  | callback (i : ℕ)
deriving DecidableEq

/-- What `m_cb` is bound to. -/
inductive Callback (N S : Type*)
  | run
  | idle
  | user (p : Program N S)

/-- Where a function that `m_cb` is bound to stands. `run` keeps `cb_fiber`, and after `swapIn`
the fiber that it handles. -/
inductive Code (N S : Type*)
  | loop (cb_fiber : Option Name)
  | swappedFiber (cb_fiber : Option Name) (f : Name)
  | swappedCb (cb_fiber : Name)
  | swappedIdle (cb_fiber : Option Name)
  | idle
  | user (p : Program N S)
  | neverReach

/-- Where a stack stands: in `stop` before and behind `m_rootFiber->call()`, behind `stop`, at
the start of `MainFunc` or `CallerMainFunc`, or inside, where `cur` is its local variable. -/
inductive Stack (N S : Type*)
  | stop
  | called
  | returned
  | start (caller : Bool)
  | inside (cur : Name) (caller : Bool) (code : Code N S)

/-- `ctx` is `none` where `m_ctx` was loaded and has not been saved since. -/
structure Fiber (N S : Type*) where
  state : State
  ctx : Option (Stack N S)
  cb : Option (Callback N S)

/-- `Fiber(cb)`. -/
def Fiber.new {N S : Type*} (cb : Callback N S) : Fiber N S := ⟨.INIT,some (.start false),some cb⟩

/-- `FiberAndThread`. There is one thread, so no task is pinned to another. -/
inductive Task (N S : Type*)
  | fiber (f : Name)
  | cb (p : Program N S)

/-- The thread, with its thread locals `t_fiber` and `t_scheduler_fiber` (which is `m_rootFiber`
throughout), the members of the scheduler, and what the callbacks share. -/
structure Thread (N S : Type*) where
  fibers : Name → Fiber N S
  created : ℕ
  t_fiber : Name
  stack : Stack N S
  m_fibers : List (Task N S)
  m_activeThreadCount : ℕ
  m_autoStop : Bool
  m_stopping : Bool
  parked : List (N × Name)
  shared : S

variable {N S : Type*} [DecidableEq N]

namespace Thread

/-- Change one fiber object. -/
def modify (m : Thread N S) (f : Name) (g : Fiber N S → Fiber N S) : Thread N S :=
  { m with fibers := Function.update m.fibers f (g (m.fibers f)) }

def setState (m : Thread N S) (f : Name) (s : State) : Thread N S :=
  m.modify f fun x => { x with state := s }

/-! ### `Fiber` -/

/-- `swapcontext(&src->m_ctx, &dst->m_ctx)`; `here` is where it returns in the stack of `src`. -/
def swapcontext (m : Thread N S) (src dst : Name) (here : Stack N S) : Option (Thread N S) :=
  let m := m.modify src fun x => { x with ctx := some here }
  (m.fibers dst).ctx.map fun s =>
    { m.modify dst fun x => { x with ctx := none } with stack := s }

def call (m : Thread N S) (f : Name) (here : Stack N S) : Option (Thread N S) :=
  ({ m with t_fiber := f }.setState f .EXEC).swapcontext .thread f here

def back (m : Thread N S) (f : Name) (here : Stack N S) : Option (Thread N S) :=
  { m with t_fiber := .thread }.swapcontext f .thread here

def swapIn (m : Thread N S) (f : Name) (here : Stack N S) : Option (Thread N S) :=
  if (m.fibers f).state ≠ .EXEC then
    ({ m with t_fiber := f }.setState f .EXEC).swapcontext .root f here
  else none

def swapOut (m : Thread N S) (f : Name) (here : Stack N S) : Option (Thread N S) :=
  { m with t_fiber := .root }.swapcontext f .root here

/-- `YieldToReady` and `YieldToHold`, with the state that they set. -/
def yieldTo (m : Thread N S) (s : State) (here : Stack N S) : Option (Thread N S) :=
  if (m.fibers m.t_fiber).state = .EXEC then (m.setState m.t_fiber s).swapOut m.t_fiber here
  else none

def reset (m : Thread N S) (f : Name) (cb : Option (Callback N S)) : Option (Thread N S) :=
  if (m.fibers f).state = .TERM ∨ (m.fibers f).state = .EXCEPT ∨ (m.fibers f).state = .INIT then
    some (m.modify f fun _ => ⟨.INIT,some (.start false),cb⟩)
  else none

/-- The end of `MainFunc` and `CallerMainFunc`, behind the call of `m_cb`. -/
def finish (m : Thread N S) (cur : Name) (caller threw : Bool) : Option (Thread N S) :=
  let m := if threw then m.setState cur .EXCEPT
    else m.modify cur fun x => { x with cb := none, state := .TERM }
  if caller then m.back cur (.inside cur caller .neverReach)
  else m.swapOut cur (.inside cur caller .neverReach)

/-! ### `Scheduler` -/

def schedule (m : Thread N S) (t : Task N S) : Thread N S :=
  { m with m_fibers := m.m_fibers++[t] }

def stopping (m : Thread N S) : Bool :=
  m.m_autoStop && m.m_stopping && m.m_fibers.isEmpty && m.m_activeThreadCount = 0

/-- The first task whose fiber is not executing, and the queue without it. -/
def takeTask (m : Thread N S) : List (Task N S) → Option (Task N S × List (Task N S))
  | [] => none
  | .cb p :: l => some (.cb p,l)
  | .fiber f :: l =>
    if (m.fibers f).state = .EXEC then (takeTask m l).map fun r => (r.1,.fiber f :: r.2)
    else some (.fiber f,l)

/-- One iteration of `run`, as far as the switch to a fiber. -/
def loop (m : Thread N S) (cur : Name) (caller : Bool) (cb_fiber : Option Name) :
    Option (Thread N S) :=
  match m.takeTask m.m_fibers with
  | some (t,l) =>
    let m := { m with m_fibers := l, m_activeThreadCount := m.m_activeThreadCount+1 }
    match t with
    | .fiber f =>
      if (m.fibers f).state ≠ .TERM ∧ (m.fibers f).state ≠ .EXCEPT then
        m.swapIn f (.inside cur caller (.swappedFiber cb_fiber f))
      else some { m with
        m_activeThreadCount := m.m_activeThreadCount-1
        stack := .inside cur caller (.loop cb_fiber) }
    | .cb p =>
      match cb_fiber with
      | some f =>
        (m.reset f (some (.user p))).bind fun m =>
          m.swapIn f (.inside cur caller (.swappedCb f))
      | none =>
        let f := Name.callback m.created
        { m.modify f fun _ => Fiber.new (.user p) with created := m.created+1 }.swapIn f
          (.inside cur caller (.swappedCb f))
  | none =>
    if (m.fibers .idle).state = .TERM then m.finish cur caller false
    else m.swapIn .idle (.inside cur caller (.swappedIdle cb_fiber))

/-- What `run` does with a fiber that has switched back: `schedule` it, keep it, or hold it. -/
def swapped (m : Thread N S) (f : Name) : Thread N S :=
  let m := { m with m_activeThreadCount := m.m_activeThreadCount-1 }
  match (m.fibers f).state with
  | .READY => m.schedule (.fiber f)
  | .TERM => m
  | .EXCEPT => m
  | _ => m.setState f .HOLD

/-- `run` behind `cb_fiber->swapIn()`: a fiber whose callback has ended is used again. -/
def swappedCb (m : Thread N S) (f : Name) : Option (Thread N S × Option Name) :=
  if (m.fibers f).state = .TERM ∨ (m.fibers f).state = .EXCEPT then
    ((m.swapped f).reset f none).map fun m => (m,some f)
  else some (m.swapped f,none)

/-- `run` behind `idle_fiber->swapIn()`. -/
def swappedIdle (m : Thread N S) : Thread N S :=
  if (m.fibers .idle).state ≠ .TERM ∧ (m.fibers .idle).state ≠ .EXCEPT then m.setState .idle .HOLD
  else m

/-- `wake` of a callback: the fiber that was parked first is scheduled. -/
def wake (m : Thread N S) (n : N) : Thread N S :=
  match takeFirst n m.parked with
  | none => m
  | some (f,l) => { m with parked := l }.schedule (.fiber f)

/-- The next statement of a callback. -/
def user (m : Thread N S) (cur : Name) (caller : Bool) (p : Program N S) : Option (Thread N S) :=
  let go next : Stack N S := .inside cur caller (.user next)
  match p with
  | .done => m.finish cur caller false
  | .throw => m.finish cur caller true
  | .act f next => some { m with shared := f m.shared, stack := go (next m.shared) }
  | .schedule cb next => some { m.schedule (.cb cb) with stack := go next }
  | .yieldToReady next => m.yieldTo .READY (go next)
  | .reschedule next => (m.schedule (.fiber m.t_fiber)).yieldTo .HOLD (go next)
  | .park n next => { m with parked := m.parked++[(n,m.t_fiber)] }.yieldTo .HOLD (go next)
  | .wake n next => some { m.wake n with stack := go next }

/-- `stop` as far as `m_rootFiber->call()`; `m_threadCount` is 0. -/
def stop (m : Thread N S) : Option (Thread N S) :=
  let m := { m with m_autoStop := true, m_stopping := true }
  if m.stopping then some { m with stack := .returned } else m.call .root .called

/-- One step; there is none behind `stop`, and none where an assertion fails or a context is
loaded that holds nothing. -/
def step (m : Thread N S) : Option (Thread N S) :=
  match m.stack with
  | .stop => m.stop
  | .called => some { m with stack := .returned }
  | .returned => none
  | .start caller =>
    -- `cur` is what `GetThis` answers, and a null `m_cb` throws
    match (m.fibers m.t_fiber).cb with
    | none => m.finish m.t_fiber caller true
    | some .run => some { m.modify .idle fun _ => Fiber.new .idle with
        stack := .inside m.t_fiber caller (.loop none) }
    | some .idle => some { m with stack := .inside m.t_fiber caller .idle }
    | some (.user p) => some { m with stack := .inside m.t_fiber caller (.user p) }
  | .inside cur caller code =>
    match code with
    | .loop cb_fiber => m.loop cur caller cb_fiber
    | .swappedFiber cb_fiber f =>
      some { m.swapped f with stack := .inside cur caller (.loop cb_fiber) }
    | .swappedCb f => (m.swappedCb f).map fun r =>
        { r.1 with stack := .inside cur caller (.loop r.2) }
    | .swappedIdle cb_fiber =>
      some { m.swappedIdle with stack := .inside cur caller (.loop cb_fiber) }
    | .idle =>
      if m.stopping then m.finish cur caller false
      else m.yieldTo .HOLD (.inside cur caller .idle)
    | .user p => m.user cur caller p
    | .neverReach => none

/-- The steps from one state to another. -/
def Steps : Thread N S → Thread N S → Prop := Relation.ReflTransGen fun m m' => m.step = some m'

/-- The thread stops at a failed assertion, or without a place to go on. -/
def Aborts (m : Thread N S) : Prop := ∃ m', m.Steps m' ∧ m'.step = none ∧ m'.stack ≠ .returned

/-- The thread before `stop`, where these callbacks have been scheduled. -/
def start (tasks : List (Program N S)) (shared : S) : Thread N S where
  fibers
    | .thread => ⟨.EXEC,none,none⟩
    | .root => ⟨.INIT,some (.start true),some .run⟩
    | _ => ⟨.INIT,none,none⟩
  created := 0
  t_fiber := .thread
  stack := .stop
  m_fibers := tasks.map .cb
  m_activeThreadCount := 0
  m_autoStop := false
  m_stopping := false
  parked := []
  shared := shared

/-- The thread calls `stop` again, behind more calls of `schedule`. -/
def again (m : Thread N S) (tasks : List (Program N S)) : Thread N S :=
  { m with stack := .stop, m_fibers := m.m_fibers++tasks.map .cb }

end Thread
end CoroutineWebserve.Fibers
