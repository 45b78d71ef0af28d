import CoroutineWebserve.Transition.Machine
import Mathlib.Logic.Function.Basic

/-!
# The workers of the `Scheduler`

Worker threads run `Scheduler::run` over one task queue, other threads only schedule. A
step is one statement that another thread can tell apart: an access to the queue under its
mutex, an assignment of `m_state`, a context saved or loaded, a change of the idle counter,
a byte in the tickle pipe. The workers are those of an `IOManager`, and `stop` is never
called, so `stopping` answers false.
-/
namespace CoroutineWebserve.Scheduler

/-- `Fiber::State`. -/
inductive State
  | INIT
  | HOLD
  | EXEC
  | TERM
  | READY
  | EXCEPT
deriving DecidableEq

/-- What `m_ctx` of a fiber holds: the start of its function, the place of its last
`swapOut`, or nothing of use, since the fiber was loaded and has not been saved again. -/
inductive Context
  | fresh
  | saved
  | live
deriving DecidableEq

structure Fiber where
  state : State
  ctx : Context
deriving DecidableEq

def Fiber.new : Fiber := ⟨.INIT,.fresh⟩

/-- The thread a task asks for: any, a worker, or one that does not run the scheduler. -/
inductive Pin (W : Type*)
  | any
  | worker (w : W)
  | outside
deriving DecidableEq

inductive Item
  | fiber (f : ℕ)
  | cb
deriving DecidableEq

/-- `FiberAndThread`. -/
structure Task (W : Type*) where
  item : Item
  thread : Pin W
deriving DecidableEq

/-- A thread that calls `schedule`. -/
inductive Actor (W E : Type*)
  | worker (w : W)
  | caller (e : E)
deriving DecidableEq

/-- Where a thread stands in a call of `tickle`: outside, before the test of the idle
counter, before the write to the pipe. -/
inductive Stage
  | done
  | check
  | write
deriving DecidableEq

/-- Where a worker stands in `run`, with the fiber it handles and whether it is `cb_fiber`. -/
inductive Pc
  | top
  | scan (i : ℕ) (tickle_me : Bool)
  | scanned (item : Option Item)
  | swapIn (f : ℕ) (cb : Bool)
  | switch (f : ℕ) (cb : Bool)
  | running (f : ℕ) (cb : Bool)
  | swapOut (f : ℕ) (cb : Bool)
  | swapped (f : ℕ) (cb : Bool)
  | hold (f : ℕ) (cb : Bool)
  | repush (f : ℕ)
  | stopping
  | epollWait
  | woken
deriving DecidableEq

end Scheduler

/-- `created` counts the fibers made so far, `pipe` the bytes in the tickle pipe; `failed`
is the abort on a failed assertion. -/
structure Scheduler (W E : Type*) where
  fibers : ℕ → Scheduler.Fiber
  created : ℕ
  queue : List (Scheduler.Task W)
  lock : Option W
  pc : W → Scheduler.Pc
  cb_fiber : W → Option ℕ
  stage : Scheduler.Actor W E → Scheduler.Stage
  idleThreadCount : ℕ
  pipe : ℕ
  failed : Bool

namespace Scheduler
variable {W E : Type*}

def initial : Scheduler W E where
  fibers _ := .new
  created := 0
  queue := []
  lock := none
  pc _ := .top
  cb_fiber _ := none
  stage _ := .done
  idleThreadCount := 0
  pipe := 0
  failed := false

/-- The task may run on the worker as far as its thread is concerned. -/
def Task.Here (t : Task W) (w : W) : Prop := t.thread = .any ∨ t.thread = .worker w

/-- The test of a queue element: a fiber that is executing is passed over. -/
def Item.Executing (fibers : ℕ → Fiber) : Item → Prop
  | .fiber f => (fibers f).state = .EXEC
  | .cb => False

/-- The states in which `Fiber::reset` may be called. -/
def State.Resettable (s : State) : Prop := s = .TERM ∨ s = .EXCEPT ∨ s = .INIT

instance [DecidableEq W] (t : Task W) (w : W) : Decidable (t.Here w) :=
  inferInstanceAs (Decidable (_ ∨ _))

instance (fibers : ℕ → Fiber) : ∀ t, Decidable (Item.Executing fibers t)
  | .fiber f => inferInstanceAs (Decidable ((fibers f).state = .EXEC))
  | .cb => isFalse id

instance (s : State) : Decidable s.Resettable := inferInstanceAs (Decidable (_ ∨ _))

variable [DecidableEq W] [DecidableEq E]

def goto (m : Scheduler W E) (w : W) (pc : Pc) : Scheduler W E :=
  { m with pc := Function.update m.pc w pc }

def setStage (m : Scheduler W E) (a : Actor W E) (s : Stage) : Scheduler W E :=
  { m with stage := Function.update m.stage a s }

def setFiber (m : Scheduler W E) (f : ℕ) (x : Fiber) : Scheduler W E :=
  { m with fibers := Function.update m.fibers f x }

def setState (m : Scheduler W E) (f : ℕ) (s : State) : Scheduler W E :=
  m.setFiber f { m.fibers f with state := s }

def setCb (m : Scheduler W E) (w : W) (f : Option ℕ) : Scheduler W E :=
  { m with cb_fiber := Function.update m.cb_fiber w f }

def fail (m : Scheduler W E) : Scheduler W E := { m with failed := true }

/-- `schedule`: push under the mutex; the thread calls `tickle` when the queue was empty. A
range is pushed before its one call of `tickle`. -/
def push (m : Scheduler W E) (a : Actor W E) (t : Task W) : Scheduler W E :=
  { m.setStage a (if m.queue = [] then .check else m.stage a) with queue := m.queue++[t] }

/-- Give the mutex back behind the scan, and call `tickle` next when there is reason to. -/
def endScan (m : Scheduler W E) (w : W) (item : Option Item) (tickle_me : Bool) :
    Scheduler W E :=
  { (m.goto w (.scanned item)).setStage (.worker w) (if tickle_me then .check else .done) with
    lock := none }

/-- One round of the loop over `m_fibers`. -/
def examine (m : Scheduler W E) (w : W) (i : ℕ) (tickle_me : Bool) : Scheduler W E :=
  match m.queue[i]? with
  | none => m.endScan w none tickle_me
  | some t =>
    if ¬t.Here w then m.goto w (.scan (i+1) true) else
    if t.item.Executing m.fibers then m.goto w (.scan (i+1) tickle_me) else
    let m := { m with queue := m.queue.eraseIdx i }
    m.endScan w (some t.item) (tickle_me || i < m.queue.length)

/-- What `run` does with the task it has taken. -/
def dispatch (m : Scheduler W E) (w : W) : Item → Scheduler W E
  | .fiber f =>
    if (m.fibers f).state = .TERM ∨ (m.fibers f).state = .EXCEPT then m.goto w .top
    else m.goto w (.swapIn f false)
  | .cb =>
    match m.cb_fiber w with
    | some f =>
      if (m.fibers f).state.Resettable then (m.setFiber f .new).goto w (.swapIn f true) else m.fail
    | none =>
      { ((m.setFiber m.created .new).setCb w (some m.created)).goto w (.swapIn m.created true) with
        created := m.created+1 }

/-- The test of the state behind `swapIn`. -/
def swapped (m : Scheduler W E) (w : W) (f : ℕ) (cb : Bool) : Scheduler W E :=
  match (m.fibers f).state with
  | .READY => (if cb then m.setCb w none else m).goto w (.repush f)
  | .TERM | .EXCEPT => (if cb then m.setFiber f .new else m).goto w .top
  | .INIT | .HOLD | .EXEC => m.goto w (.hold f cb)

/-- The next statement of a worker in `run`, where there is only one. -/
def next (m : Scheduler W E) (w : W) : Option (Scheduler W E) :=
  match m.pc w with
  | .top => if m.lock = none then some { m.goto w (.scan 0 false) with lock := some w } else none
  | .scan i tickle_me => some (m.examine w i tickle_me)
  | .scanned (some item) => some (m.dispatch w item)
  | .scanned none =>
    some { m.goto w .stopping with idleThreadCount := m.idleThreadCount+1 }
  | .swapIn f cb =>
    if (m.fibers f).state = .EXEC then some m.fail
    else some ((m.setState f .EXEC).goto w (.switch f cb))
  | .switch f cb =>
    some ((m.setFiber f { m.fibers f with ctx := .live }).goto w (.running f cb))
  | .running _ _ => none
  | .swapOut f cb =>
    some ((m.setFiber f { m.fibers f with ctx := .saved }).goto w (.swapped f cb))
  | .swapped f cb => some (m.swapped w f cb)
  | .hold f cb =>
    some (((if cb then m.setCb w none else m).setState f .HOLD).goto w .top)
  | .repush f =>
    if m.lock = none then some ((m.push (.worker w) ⟨.fiber f,.any⟩).goto w .top) else none
  | .stopping => some (m.goto w .epollWait)
  | .epollWait => some (m.goto w .woken)
  | .woken => some { m.goto w .top with idleThreadCount := m.idleThreadCount-1 }

/-- The ways a fiber gives up its thread. -/
inductive Leave
  | YieldToHold
  | YieldToReady
  | term
  | except
deriving DecidableEq

/-- The state each of them assigns. -/
def Leave.state : Leave → State
  | .YieldToHold => .HOLD
  | .YieldToReady => .READY
  | .term => .TERM
  | .except => .EXCEPT

/-- The assertion of the two `Yield` functions; `MainFunc` has none. -/
def Leave.Allowed (l : Leave) (s : State) : Prop := l = .term ∨ l = .except ∨ s = .EXEC

instance (l : Leave) (s : State) : Decidable (l.Allowed s) :=
  inferInstanceAs (Decidable (_ ∨ _ ∨ _))

/-- Threads schedule from outside, from a running fiber, and from the event loop. -/
def MaySchedule (m : Scheduler W E) : Actor W E → Prop
  | .caller _ => True
  | .worker w => m.pc w = .woken ∨ ∃ f cb, m.pc w = .running f cb

instance (m : Scheduler W E) : ∀ a, Decidable (m.MaySchedule a)
  | .caller _ => isTrue trivial
  | .worker w => match h : m.pc w with
    | .woken => isTrue (.inl h)
    | .running f cb => isTrue (.inr ⟨f,cb,h⟩)
    | .top | .scan .. | .scanned _ | .swapIn .. | .switch .. | .swapOut .. | .swapped ..
    | .hold .. | .repush _ | .stopping | .epollWait => isFalse (by simp [MaySchedule, h])

/-- A scheduled fiber exists. -/
def Item.Valid (created : ℕ) : Item → Prop
  | .fiber f => f < created
  | .cb => True

instance (created : ℕ) : ∀ t, Decidable (Item.Valid created t)
  | .fiber f => inferInstanceAs (Decidable (f < created))
  | .cb => isTrue trivial

inductive Step (W E : Type*)
  | create
  | schedule (a : Actor W E) (t : Task W)
  | tickle (a : Actor W E)
  | write (a : Actor W E)
  | next (w : W)
  | leave (w : W) (l : Leave)
  | drain (w : W)

def step (m : Scheduler W E) (i : Step W E) : Option (Scheduler W E) :=
  if m.failed then none else
  match i with
  | .create => some { m.setFiber m.created .new with created := m.created+1 }
  | .schedule a t =>
    if m.lock = none ∧ m.stage a ≠ .write ∧ m.MaySchedule a ∧ t.item.Valid m.created then
      some (m.push a t)
    else none
  | .tickle a =>
    if m.stage a = .check then
      some (m.setStage a (if m.idleThreadCount > 0 then .write else .done))
    else none
  | .write a =>
    if m.stage a = .write then some { m.setStage a .done with pipe := m.pipe+1 } else none
  | .next w => if m.stage (.worker w) = .done then m.next w else none
  | .leave w l =>
    match m.pc w with
    | .running f cb =>
      if m.stage (.worker w) = .done then
        if l.Allowed (m.fibers f).state then
          some ((m.setState f l.state).goto w (.swapOut f cb))
        else some m.fail
      else none
    | _ => none
  | .drain w => if m.pc w = .woken ∧ m.stage (.worker w) = .done then some { m with pipe := 0 }
    else none

variable (W E) in
/-- Workers `W` and other scheduling threads `E`, any number of each. -/
def machine : Transition.Machine (Scheduler W E) (Step W E) where
  init m := m = initial
  step := step

/-- What one step does, the guards of `step` included. -/
inductive Moves (m : Scheduler W E) : Step W E → Scheduler W E → Prop
  | failed {i} : Moves m i m.fail
  | create : Moves m .create { m.setFiber m.created .new with created := m.created+1 }
  | schedule {a t} (hl : m.lock = none) (hs : m.stage a ≠ .write) (ha : m.MaySchedule a)
      (hv : t.item.Valid m.created) : Moves m (.schedule a t) (m.push a t)
  | tickle {a} (hs : m.stage a = .check) : Moves m (.tickle a)
      (m.setStage a (if m.idleThreadCount > 0 then .write else .done))
  | write {a} (hs : m.stage a = .write) :
      Moves m (.write a) { m.setStage a .done with pipe := m.pipe+1 }
  | lock {w} (hs : m.stage (.worker w) = .done) (hp : m.pc w = .top) (hl : m.lock = none) :
      Moves m (.next w) { m.goto w (.scan 0 false) with lock := some w }
  | examine {w i tickle_me} (hs : m.stage (.worker w) = .done) (hp : m.pc w = .scan i tickle_me) :
      Moves m (.next w) (m.examine w i tickle_me)
  | dispatch {w item} (hs : m.stage (.worker w) = .done) (hp : m.pc w = .scanned (some item)) :
      Moves m (.next w) (m.dispatch w item)
  | enterIdle {w} (hs : m.stage (.worker w) = .done) (hp : m.pc w = .scanned none) :
      Moves m (.next w) { m.goto w .stopping with idleThreadCount := m.idleThreadCount+1 }
  | swapIn {w f cb} (hp : m.pc w = .swapIn f cb) (he : (m.fibers f).state ≠ .EXEC) :
      Moves m (.next w) ((m.setState f .EXEC).goto w (.switch f cb))
  | switch {w f cb} (hp : m.pc w = .switch f cb) : Moves m (.next w)
      ((m.setFiber f { m.fibers f with ctx := .live }).goto w (.running f cb))
  | swapOut {w f cb} (hp : m.pc w = .swapOut f cb) : Moves m (.next w)
      ((m.setFiber f { m.fibers f with ctx := .saved }).goto w (.swapped f cb))
  | swapped {w f cb} (hp : m.pc w = .swapped f cb) : Moves m (.next w) (m.swapped w f cb)
  | hold {w f cb} (hp : m.pc w = .hold f cb) : Moves m (.next w)
      (((if cb then m.setCb w none else m).setState f .HOLD).goto w .top)
  | repush {w f} (hs : m.stage (.worker w) = .done) (hp : m.pc w = .repush f)
      (hl : m.lock = none) :
      Moves m (.next w) ((m.push (.worker w) ⟨.fiber f,.any⟩).goto w .top)
  | stopping {w} (hp : m.pc w = .stopping) : Moves m (.next w) (m.goto w .epollWait)
  | epollWait {w} (hp : m.pc w = .epollWait) : Moves m (.next w) (m.goto w .woken)
  | leaveIdle {w} (hp : m.pc w = .woken) : Moves m (.next w)
      { m.goto w .top with idleThreadCount := m.idleThreadCount-1 }
  | leave {w l f cb} (hp : m.pc w = .running f cb) (hl : l.Allowed (m.fibers f).state) :
      Moves m (.leave w l) ((m.setState f l.state).goto w (.swapOut f cb))
  | drain {w} (hp : m.pc w = .woken) : Moves m (.drain w) { m with pipe := 0 }

theorem next_moves {m m' : Scheduler W E} {w : W} (hs : m.stage (.worker w) = .done)
    (h : m.next w = some m') : Moves m (.next w) m' := by
  unfold next at h
  split at h
  · next hp =>
    obtain ⟨hl,h⟩ := Option.ite_none_right_eq_some.mp h
    cases h
    exact .lock hs hp hl
  · next hp => cases h; exact .examine hs hp
  · next hp => cases h; exact .dispatch hs hp
  · next hp => cases h; exact .enterIdle hs hp
  · next hp =>
    split at h
    · cases h; exact .failed
    · next he => cases h; exact .swapIn hp he
  · next hp => cases h; exact .switch hp
  · cases h
  · next hp => cases h; exact .swapOut hp
  · next hp => cases h; exact .swapped hp
  · next hp => cases h; exact .hold hp
  · next hp =>
    obtain ⟨hl,h⟩ := Option.ite_none_right_eq_some.mp h
    cases h
    exact .repush hs hp hl
  · next hp => cases h; exact .stopping hp
  · next hp => cases h; exact .epollWait hp
  · next hp => cases h; exact .leaveIdle hp

theorem step_moves {m m' : Scheduler W E} {i : Step W E} (h : step m i = some m') :
    Moves m i m' := by
  unfold step at h
  split at h
  · cases h
  cases i with
  | create => cases h; exact .create
  | schedule a t =>
    obtain ⟨⟨hl,hs,ha,hv⟩,h⟩ := Option.ite_none_right_eq_some.mp h
    cases h
    exact .schedule hl hs ha hv
  | tickle a =>
    obtain ⟨hs,h⟩ := Option.ite_none_right_eq_some.mp h
    cases h
    exact .tickle hs
  | write a =>
    obtain ⟨hs,h⟩ := Option.ite_none_right_eq_some.mp h
    cases h
    exact .write hs
  | next w =>
    obtain ⟨hs,h⟩ := Option.ite_none_right_eq_some.mp h
    exact next_moves hs h
  | leave w l =>
    simp only at h
    split at h
    · next hp =>
      obtain ⟨-,h⟩ := Option.ite_none_right_eq_some.mp h
      split at h
      · next hl => cases h; exact .leave hp hl
      · cases h; exact .failed
    · cases h
  | drain w =>
    obtain ⟨hp,h⟩ := Option.ite_none_right_eq_some.mp h
    cases h
    exact .drain hp.1

end Scheduler
end CoroutineWebserve
