import CoroutineWebserve.Transition.Machine
import Mathlib.Data.Finset.Basic
import Mathlib.Data.Finset.SDiff
import Mathlib.Data.Fintype.Basic
import Mathlib.Logic.Function.Basic

/-!
# Event registrations of the `IOManager`

Every operation locks the mutex of one `FdContext`, tests its events, asks `epoll_ctl` for
the new mask and then runs a few statements. The statements that follow a successful
`epoll_ctl` are a program which its thread executes one at a time, so the other threads and
the counter `m_pendingEventCount` are seen in between.
-/
namespace CoroutineWebserve.IOManager

inductive Event
  | READ
  | WRITE
deriving DecidableEq, Repr

instance : Fintype Event := ⟨{.READ,.WRITE},fun e => by cases e <;> decide⟩

/-- What `addEvent` stores: its callback, or the running fiber and whether it is `EXEC`. -/
inductive Task
  | cb (id : ℕ)
  | fiber (id : ℕ) (exec : Bool)
deriving DecidableEq

/-- The state test of `addEvent`, which only a fiber has to pass. -/
def Task.exec : Task → Bool
  | .cb _ => true
  | .fiber _ exec => exec

/-- A stored task, marked with the number of the `addEvent` on its descriptor that stored it. -/
structure Handle where
  serial : ℕ
  task : Task
deriving DecidableEq

/-- `IOManager::FdContext::EventContext`. -/
structure EventContext where
  scheduler : Option ℕ
  fiber : Option Handle
  cb : Option Handle
deriving DecidableEq

namespace EventContext

def empty : EventContext := ⟨none,none,none⟩

/-- What `triggerEvent` hands to `schedule`: the callback when there is one. -/
def held (c : EventContext) : Option Handle := c.cb <|> c.fiber

/-- The context of a registered event: a scheduler and exactly one of fiber and callback. -/
def Registered (c : EventContext) : Prop := c.scheduler.isSome ∧ c.fiber.isSome ≠ c.cb.isSome

/-- `event_ctx.scheduler = Scheduler::GetThis()` and the assignment of the task. -/
def fill (scheduler : Option ℕ) (h : Handle) : EventContext :=
  match h.task with
  | .cb _ => ⟨scheduler,none,some h⟩
  | .fiber .. => ⟨scheduler,some h,none⟩

/-- `schedule(&ctx.cb)` or `schedule(&ctx.fiber)`, which swaps the task out. -/
def swapOut (c : EventContext) : EventContext :=
  if c.cb.isSome then { c with cb := none } else { c with fiber := none }

end EventContext

/-- `IOManager::FdContext`; `context` is `getContext`. -/
structure FdContext where
  context : Event → EventContext
  events : Finset Event

/-! ### Ghost records -/

/-- How a registration ended. -/
inductive Removal
  | delEvent
  | cancelEvent
  | cancelAll
  | idle
deriving DecidableEq

/-- A successful `addEvent`, and what removed its event. -/
structure Registration where
  event : Event
  task : Task
  removed : Option Removal
deriving DecidableEq

/-- One descriptor: its context, the mask the kernel watches, and ghost records of its
registrations, of what was scheduled for it and of its part of the pending counter. -/
structure Slot where
  ctx : FdContext
  mask : Finset Event
  registrations : List Registration
  scheduled : List Handle
  counted : ℤ

namespace Slot

def empty : Slot := ⟨⟨fun _ => .empty,∅⟩,∅,[],[],0⟩

def setContext (s : Slot) (e : Event) (c : EventContext) : Slot :=
  { s with ctx.context := Function.update s.ctx.context e c }

/-- Clear the bit of an event, and record what removed its registration. -/
def clearBit (s : Slot) (e : Event) (by' : Removal) : Slot :=
  { s with
    ctx.events := s.ctx.events.erase e
    registrations := (s.ctx.context e).held.elim s.registrations fun h =>
      s.registrations.modify h.serial fun r => { r with removed := some by' } }

end Slot

inductive CtlOp
  | EPOLL_CTL_ADD
  | EPOLL_CTL_MOD
  | EPOLL_CTL_DEL
deriving DecidableEq

/-- A successful `epoll_ctl` installs the mask it is given. -/
def epollCtl (op : CtlOp) (mask : Finset Event) (s : Slot) : Slot :=
  { s with mask := if op = .EPOLL_CTL_DEL then ∅ else mask }

/-! ### Statements -/

/-- A statement behind `epoll_ctl`. `triggerEvent` is `assertBit`, `takeBit`, `schedule` and
`dropScheduler`. -/
inductive Stmt
  | incPending
  | decPending
  | orEvents (e : Event)
  | fill (e : Event) (scheduler : Option ℕ) (task : Task)
  | andNotEvents (e : Event)
  | resetContext (e : Event)
  | assertBit (e : Event)
  | takeBit (e : Event) (by' : Removal)
  | schedule (e : Event)
  | dropScheduler (e : Event)
  | assertNone
deriving DecidableEq

/-- The change a statement makes to `m_pendingEventCount`. -/
def Stmt.pending : Stmt → ℤ
  | .incPending => 1
  | .decPending => -1
  | _ => 0

/-- The effect of a statement on its descriptor; `none` when an assertion fails or a null
scheduler is called. -/
def Stmt.run (s : Slot) : Stmt → Option Slot
  | .incPending => some { s with counted := s.counted+1 }
  | .decPending => some { s with counted := s.counted-1 }
  | .orEvents e => some { s with ctx.events := insert e s.ctx.events }
  | .fill e scheduler task =>
    if s.ctx.context e ≠ .empty ∨ !task.exec then none else
    some { s.setContext e (.fill scheduler ⟨s.registrations.length,task⟩) with
      registrations := s.registrations++[⟨e,task,none⟩] }
  | .andNotEvents e => some (s.clearBit e .delEvent)
  | .resetContext e => some (s.setContext e .empty)
  | .assertBit e => if e ∈ s.ctx.events then some s else none
  | .takeBit e by' => some (s.clearBit e by')
  | .schedule e =>
    if (s.ctx.context e).scheduler = none then none else
    some { s.setContext e (s.ctx.context e).swapOut with
      scheduled := s.scheduled++(s.ctx.context e).held.toList }
  | .dropScheduler e => some (s.setContext e { s.ctx.context e with scheduler := none })
  | .assertNone => if s.ctx.events = ∅ then some s else none

def runAll : List Stmt → Slot → Option Slot
  | [], s => some s
  | p :: prog, s => (p.run s).bind (runAll prog)

def triggerEvent (e : Event) (by' : Removal) : List Stmt :=
  [.assertBit e,.takeBit e by',.schedule e,.dropScheduler e]

/-! ### Operations -/

/-- The events of an `epoll_event`. -/
structure Revents where
  EPOLLIN : Bool
  EPOLLOUT : Bool
  EPOLLERR : Bool
  EPOLLHUP : Bool
deriving DecidableEq

/-- The reported `EPOLLIN` and `EPOLLOUT`. -/
def Revents.plain (r : Revents) : Finset Event :=
  (if r.EPOLLIN then {.READ} else ∅) ∪ if r.EPOLLOUT then {.WRITE} else ∅

/-- An error or a hang-up stands for every registered event. -/
def realEvents (r : Revents) (events : Finset Event) : Finset Event :=
  if r.EPOLLERR || r.EPOLLHUP then r.plain ∪ events else r.plain

/-- What a thread does once it holds the mutex of a descriptor. -/
inductive Call
  | addEvent (e : Event) (scheduler : Option ℕ) (task : Task)
  | delEvent (e : Event)
  | cancelEvent (e : Event)
  | cancelAll
  | dispatch (r : Revents)
deriving DecidableEq

def modOrDel (events : Finset Event) : CtlOp :=
  if events = ∅ then .EPOLL_CTL_DEL else .EPOLL_CTL_MOD

/-- Trigger an event of a mask and count it off. -/
def triggerIn (mask : Finset Event) (by' : Removal) (e : Event) : List Stmt :=
  if e ∈ mask then triggerEvent e by'++[.decPending] else []

/-- The part of a call up to `epoll_ctl`, whose success is `ctl`: the value the call returns
and the statements that are left. `none` is the failed assertion of `addEvent`. -/
def Call.enter (s : Slot) (ctl : Bool) : Call → Option (Slot × List Stmt × Bool)
  | .addEvent e scheduler task =>
    if e ∈ s.ctx.events then none else
    if !ctl then some (s,[],false) else
    let op := if s.ctx.events = ∅ then .EPOLL_CTL_ADD else .EPOLL_CTL_MOD
    some (epollCtl op (insert e s.ctx.events) s,
      [.incPending,.orEvents e,.fill e scheduler task],true)
  | .delEvent e =>
    if e ∉ s.ctx.events ∨ !ctl then some (s,[],false) else
    let new_events := s.ctx.events.erase e
    some (epollCtl (modOrDel new_events) new_events s,
      [.decPending,.andNotEvents e,.resetContext e],true)
  | .cancelEvent e =>
    if e ∉ s.ctx.events ∨ !ctl then some (s,[],false) else
    let new_events := s.ctx.events.erase e
    some (epollCtl (modOrDel new_events) new_events s,
      triggerEvent e .cancelEvent++[.decPending],true)
  | .cancelAll =>
    if s.ctx.events = ∅ ∨ !ctl then some (s,[],false) else
    some (epollCtl .EPOLL_CTL_DEL ∅ s,
      triggerIn s.ctx.events .cancelAll .READ++triggerIn s.ctx.events .cancelAll .WRITE++
        [.assertNone],true)
  | .dispatch r =>
    let real_events := realEvents r s.ctx.events
    if s.ctx.events ∩ real_events = ∅ ∨ !ctl then some (s,[],false) else
    let left_events := s.ctx.events \ real_events
    some (epollCtl (modOrDel left_events) left_events s,
      triggerIn real_events .idle .READ++triggerIn real_events .idle .WRITE,true)

/-! ### Threads -/

/-- Where a thread stands that holds the mutex of a descriptor. -/
inductive Critical
  | entered (c : Call)
  | body (prog : List Stmt)
deriving DecidableEq

/-- A thread: the descriptor it has locked, the entries `epoll_wait` gave it that are not
dispatched yet, and what its last call returned. -/
structure Thread (F : Type*) where
  critical : Option (F × Critical)
  batch : List (F × Revents)
  result : Bool
deriving DecidableEq

end IOManager

/-- The event table of an `IOManager` with descriptors `F` and threads `T`. `failed` is the
abort on a failed assertion. -/
structure IOManager (F T : Type*) where
  fds : F → IOManager.Slot
  owner : F → Option T
  pendingEventCount : ℤ
  threads : T → IOManager.Thread F
  failed : Bool

namespace IOManager
variable {F T : Type*} [DecidableEq F] [DecidableEq T]

/-- The steps of a thread; `ctl` is the success of `epoll_ctl`. -/
inductive Step (F T : Type*)
  | call (t : T) (fd : F) (c : Call)
  | epollWait (t : T) (batch : List (F × Revents))
  | dispatch (t : T)
  | enter (t : T) (ctl : Bool)
  | stmt (t : T)
  | unlock (t : T)

def initial : IOManager F T where
  fds _ := .empty
  owner _ := none
  pendingEventCount := 0
  threads _ := ⟨none,[],false⟩
  failed := false

/-- `epoll_wait` reports an entry only for a watched descriptor, and of `EPOLLIN` and
`EPOLLOUT` only what is watched. -/
def Reportable (m : IOManager F T) (batch : List (F × Revents)) : Prop :=
  (batch.map Prod.fst).Nodup ∧ batch.length ≤ 256 ∧
    ∀ p ∈ batch, (m.fds p.1).mask ≠ ∅ ∧ p.2.plain ⊆ (m.fds p.1).mask

instance (m : IOManager F T) (batch : List (F × Revents)) : Decidable (m.Reportable batch) :=
  inferInstanceAs (Decidable (_ ∧ _ ∧ _))

def setThread (m : IOManager F T) (t : T) (th : Thread F) : IOManager F T :=
  { m with threads := Function.update m.threads t th }

/-- Lock the mutex of a descriptor. -/
def lock (m : IOManager F T) (t : T) (fd : F) (c : Call) (batch : List (F × Revents)) :
    Option (IOManager F T) :=
  if m.owner fd = none then
    some { m.setThread t { m.threads t with critical := some (fd,.entered c), batch } with
      owner := Function.update m.owner fd (some t) }
  else none

def step (m : IOManager F T) (i : Step F T) : Option (IOManager F T) :=
  if m.failed then none else
  match i with
  | .call t fd c =>
    match c with
    | .dispatch _ => none
    | _ => if (m.threads t).critical = none ∧ (m.threads t).batch = [] then m.lock t fd c []
        else none
  | .epollWait t batch =>
    if (m.threads t).critical = none ∧ (m.threads t).batch = [] ∧ m.Reportable batch then
      some (m.setThread t { m.threads t with batch })
    else none
  | .dispatch t =>
    if (m.threads t).critical = none then
      match (m.threads t).batch with
      | [] => none
      | (fd,r) :: rest => m.lock t fd (.dispatch r) rest
    else none
  | .enter t ctl =>
    match (m.threads t).critical with
    | some (fd,.entered c) =>
      match c.enter (m.fds fd) ctl with
      | none => some { m with failed := true }
      | some (s,prog,result) =>
        some { m.setThread t { m.threads t with critical := some (fd,.body prog), result } with
          fds := Function.update m.fds fd s }
    | _ => none
  | .stmt t =>
    match (m.threads t).critical with
    | some (fd,.body (p :: prog)) =>
      match p.run (m.fds fd) with
      | none => some { m with failed := true }
      | some s =>
        some { m.setThread t { m.threads t with critical := some (fd,.body prog) } with
          fds := Function.update m.fds fd s
          pendingEventCount := m.pendingEventCount+p.pending }
    | _ => none
  | .unlock t =>
    match (m.threads t).critical with
    | some (fd,.body []) =>
      some { m.setThread t { m.threads t with critical := none } with
        owner := Function.update m.owner fd none }
    | _ => none

variable (F T) in
/-- Any number of threads that call the operations and run the loop of `idle`. -/
def machine : Transition.Machine (IOManager F T) (Step F T) where
  init m := m = initial
  step := step

end IOManager
end CoroutineWebserve
