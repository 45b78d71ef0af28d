import CoroutineWebserve.IOManager.Events

/-!
# Hooked system calls

Fibers call the hooked functions on descriptor numbers. The kernel's table maps a number to
an open file; `close_f` frees the number and `socket` and `accept` hand it out again.
`do_io` is split where another thread can come in between: at every call it makes. A
call on an `FdContext` runs under the mutex of that context and is one step. Fibers of any
number run at the same time.
-/
namespace CoroutineWebserve.Hook
open IOManager

inductive TimeoutSo
  | SO_RCVTIMEO
  | SO_SNDTIMEO
deriving DecidableEq

/-- `FdCtx`; a timeout of `-1` is `none`. -/
structure FdCtx where
  isSocket : Bool
  userNonblock : Bool
  isClosed : Bool
  recvTimeout : Option ℕ
  sendTimeout : Option ℕ
deriving DecidableEq

/-- `FdCtx::init`, with the answer of `fstat`. -/
def FdCtx.init (isSocket : Bool) : FdCtx := ⟨isSocket,false,false,none,none⟩

def FdCtx.getTimeout (c : FdCtx) : TimeoutSo → Option ℕ
  | .SO_RCVTIMEO => c.recvTimeout
  | .SO_SNDTIMEO => c.sendTimeout

def FdCtx.setTimeout (c : FdCtx) (v : Option ℕ) : TimeoutSo → FdCtx
  | .SO_RCVTIMEO => { c with recvTimeout := v }
  | .SO_SNDTIMEO => { c with sendTimeout := v }

/-- The functions that go through `do_io`. -/
inductive Origin
  | accept
  | read
  | readv
  | recv
  | recvfrom
  | recvmsg
  | write
  | writev
  | send
  | sendto
  | sendmsg
deriving DecidableEq

/-- The event and the timeout option each function passes to `do_io`. -/
def Origin.event : Origin → Event
  | .accept | .read | .readv | .recv | .recvfrom | .recvmsg => .READ
  | .write | .writev | .send | .sendto | .sendmsg => .WRITE

def Origin.timeout_so : Origin → TimeoutSo
  | .accept | .read | .readv | .recv | .recvfrom | .recvmsg => .SO_RCVTIMEO
  | .write | .writev | .send | .sendto | .sendmsg => .SO_SNDTIMEO

/-- Where an activation of `do_io` stands: what it does next. -/
inductive Phase
  | lookup
  | direct
  | retry
  | addTimer
  | addEvent
  | yield
  | parked
  | resumed
deriving DecidableEq

/-- An activation of `do_io`. `entry` is the file the number named when it started, `tinfo`
the identity of its `timer_info` (0 before there is one), `timer` whether `timer` is set. -/
structure DoIo where
  origin : Origin
  fd : ℕ
  entry : Option ℕ
  tinfo : ℕ
  timeout : Option ℕ
  timer : Bool
  phase : Phase
deriving DecidableEq

inductive CloseStage
  | get
  | cancelAll
  | del
  | close_f
deriving DecidableEq

/-- What a fiber is doing; `register` is the `FdMgr` call behind `socket` and `accept`. -/
inductive Activity
  | user
  | io (d : DoIo)
  | close (fd : ℕ) (stage : CloseStage)
  | register (fd : ℕ)
deriving DecidableEq

/-- What a condition timer of `do_io` captures. -/
structure Timer where
  fiber : ℕ
  tinfo : ℕ
  fd : ℕ
  event : Event
deriving DecidableEq

/-- Where the callback of an expired timer stands. -/
inductive CallbackStage
  | check
  | setCancelled
  | cancelEvent
deriving DecidableEq

/-- An invocation of the underlying system call: the file its activation started with and
the file it acts on. -/
structure Invocation where
  fiber : ℕ
  fd : ℕ
  entry : Option ℕ
  file : Option ℕ
deriving DecidableEq

end Hook

/-- `table` is the kernel's, `ctxs` the `FdManager`'s and `slots` the `IOManager`'s; `queue`
holds the scheduled fibers and `held` those a worker has taken to resume them. -/
structure Hook where
  table : ℕ → Option ℕ
  files : ℕ
  ctxs : ℕ → Option Hook.FdCtx
  slots : ℕ → IOManager.Slot
  queue : List ℕ
  held : List ℕ
  fibers : ℕ → Hook.Activity
  tinfos : ℕ
  cancelled : ℕ → Bool
  timers : List Hook.Timer
  callbacks : List (Hook.Timer × Hook.CallbackStage)
  calls : List Hook.Invocation
  failed : Bool

namespace Hook
open IOManager

def initial : Hook where
  table _ := none
  files := 0
  ctxs _ := none
  slots _ := .empty
  queue := []
  held := []
  fibers _ := .user
  tinfos := 1
  cancelled _ := false
  timers := []
  callbacks := []
  calls := []
  failed := false

/-- The result of the underlying call: it is over, it failed with `EINTR` or `EAGAIN`, or it
accepted a connection under a free number. -/
inductive Outcome
  | done
  | EINTR
  | EAGAIN
  | accepted (fd : ℕ)
deriving DecidableEq

inductive Step
  | enter (f : ℕ) (origin : Origin) (fd : ℕ) (hook_enable : Bool)
  | lookup (f : ℕ)
  | invoke (f : ℕ) (outcome : Outcome)
  | addTimer (f : ℕ)
  | addEvent (f : ℕ) (ctl : Bool)
  | yield (f : ℕ)
  | take (f : ℕ)
  | swapIn (f : ℕ)
  | resumed (f : ℕ)
  | expire (i : ℕ)
  | callback (i : ℕ) (ctl : Bool)
  | close (f : ℕ) (fd : ℕ) (hook_enable : Bool)
  | closing (f : ℕ) (iom ctl : Bool)
  | close_f (f : ℕ)
  | socket (f : ℕ) (fd : ℕ) (hook_enable : Bool)
  | register (f : ℕ)
  | fdCall (fd : ℕ) (c : Call) (ctl : Bool)
  | setUserNonblock (fd : ℕ) (v : Bool)
  | setTimeout (fd : ℕ) (so : TimeoutSo) (v : Option ℕ)

def setFiber (m : Hook) (f : ℕ) (a : Activity) : Hook :=
  { m with fibers := Function.update m.fibers f a }

/-- The fibers among scheduled tasks. -/
def fibersOf (tasks : List Handle) : List ℕ :=
  tasks.filterMap fun h => match h.task with
    | .fiber f _ => some f
    | .cb _ => none

/-- A call of the `IOManager` from beginning to end: what it schedules goes to the queue.
`none` is a failed assertion. -/
def call (m : Hook) (fd : ℕ) (c : Call) (ctl : Bool) : Option (Hook × Bool) :=
  (c.enter (m.slots fd) ctl).bind fun r =>
    (runAll r.2.1 r.1).map fun s =>
      ({ m with
        slots := Function.update m.slots fd s
        queue := m.queue++fibersOf (s.scheduled.drop (m.slots fd).scheduled.length) },r.2.2)

def fail (m : Hook) : Hook := { m with failed := true }

/-- A new open file under a free number. -/
def openFile (m : Hook) (fd : ℕ) : Hook :=
  { m with table := Function.update m.table fd (some m.files), files := m.files+1 }

/-- `do_io` returns; a number that `accept` returned goes to the `FdManager` next. -/
def doneIo (m : Hook) (f : ℕ) : Outcome → Hook
  | .accepted fd => (m.openFile fd).setFiber f (.register fd)
  | _ => m.setFiber f .user

/-- What the kernel can answer: only an open file blocks or accepts, and it accepts under a
number that is free. -/
def Possible (m : Hook) (d : DoIo) : Outcome → Prop
  | .done => True
  | .EINTR | .EAGAIN => m.table d.fd ≠ none
  | .accepted fd => d.origin = .accept ∧ m.table d.fd ≠ none ∧ m.table fd = none

instance (m : Hook) (d : DoIo) : ∀ o, Decidable (m.Possible d o)
  | .done => isTrue trivial
  | .EINTR | .EAGAIN => inferInstanceAs (Decidable (_ ≠ _))
  | .accepted _ => inferInstanceAs (Decidable (_ ∧ _ ∧ _))

/-- The part of `do_io` before its label `retry`. -/
def lookupIo (m : Hook) (f : ℕ) (d : DoIo) : Hook :=
  match m.ctxs d.fd with
  | none => m.setFiber f (.io { d with phase := .direct })
  | some ctx =>
    if ctx.isClosed then m.setFiber f .user else
    if !ctx.isSocket || ctx.userNonblock then m.setFiber f (.io { d with phase := .direct }) else
    { m.setFiber f (.io { d with
        phase := .retry, timeout := ctx.getTimeout d.origin.timeout_so, tinfo := m.tinfos }) with
      tinfos := m.tinfos+1 }

/-- One invocation of the underlying call. Behind `retry`, `EINTR` repeats it at once. -/
def invokeIo (m : Hook) (f : ℕ) (d : DoIo) (outcome : Outcome) : Hook :=
  let m := { m with calls := m.calls++[⟨f,d.fd,d.entry,m.table d.fd⟩] }
  match d.phase, outcome with
  | .retry, .EINTR => m
  | .retry, .EAGAIN => m.setFiber f (.io { d with phase := .addTimer })
  | _, _ => m.doneIo f outcome

/-- `timer->cancel()`, when the activation has set a timer. -/
def cancelTimer (m : Hook) (d : DoIo) : Hook :=
  if d.timer then { m with timers := m.timers.filter fun t => t.tinfo ≠ d.tinfo } else m

/-- `addConditionTimer`, unless there is no timeout. -/
def addTimerIo (m : Hook) (f : ℕ) (d : DoIo) : Hook :=
  { m.setFiber f (.io { d with phase := .addEvent, timer := d.timeout.isSome }) with
    timers := if d.timeout.isSome then m.timers++[⟨f,d.tinfo,d.fd,d.origin.event⟩] else m.timers }

/-- `addEvent` and the test of its result. -/
def addEventIo (m : Hook) (f : ℕ) (d : DoIo) (ctl : Bool) : Hook :=
  match m.call d.fd (.addEvent d.origin.event (some 0) (.fiber f true)) ctl with
  | none => m.fail
  | some (m,ok) =>
    let rt : ℤ := if ok then 0 else -1
    if rt > 0 then (m.cancelTimer d).setFiber f .user
    else m.setFiber f (.io { d with phase := .yield })

/-- Behind `YieldToHold`: cancel the timer and return on a timeout. -/
def resumedIo (m : Hook) (f : ℕ) (d : DoIo) : Hook :=
  (m.cancelTimer d).setFiber f
    (if m.cancelled d.tinfo then .user else .io { d with phase := .retry, timer := false })

/-- The `timer_info` of a timer exists as long as its activation does. -/
def alive (m : Hook) (t : Timer) : Bool :=
  match m.fibers t.fiber with
  | .io d => d.tinfo = t.tinfo
  | _ => false

/-- A step of the callback of an expired timer. -/
def callbackIo (m : Hook) (i : ℕ) (ctl : Bool) : Timer × CallbackStage → Hook
  | (t,.check) =>
    if m.alive t && !m.cancelled t.tinfo then
      { m with callbacks := m.callbacks.set i (t,.setCancelled) }
    else { m with callbacks := m.callbacks.eraseIdx i }
  | (t,.setCancelled) =>
    { m with
      cancelled := Function.update m.cancelled t.tinfo true
      callbacks := m.callbacks.set i (t,.cancelEvent) }
  | (t,.cancelEvent) =>
    match m.call t.fd (.cancelEvent t.event) ctl with
    | none => m.fail
    | some (m,_) => { m with callbacks := m.callbacks.eraseIdx i }

/-- The steps of `close` before `close_f`; `iom` is whether the thread has an `IOManager`. -/
def closingIo (m : Hook) (f fd : ℕ) (iom ctl : Bool) : CloseStage → Option Hook
  | .get =>
    let next : CloseStage := if m.ctxs fd = none then .close_f else if iom then .cancelAll else .del
    some (m.setFiber f (.close fd next))
  | .cancelAll =>
    match m.call fd .cancelAll ctl with
    | none => some m.fail
    | some (m,_) => some (m.setFiber f (.close fd .del))
  | .del => some { m.setFiber f (.close fd .close_f) with ctxs := Function.update m.ctxs fd none }
  | .close_f => none

/-- `FdManager::get(fd, true)`. -/
def registerIo (m : Hook) (f fd : ℕ) : Hook :=
  let ctx := (m.ctxs fd).getD (.init (m.table fd).isSome)
  { m.setFiber f .user with ctxs := Function.update m.ctxs fd (some ctx) }

def step (m : Hook) (i : Step) : Option Hook :=
  if m.failed then none else
  match i with
  | .enter f origin fd hook_enable =>
    if m.fibers f = .user then
      some (m.setFiber f (.io ⟨origin,fd,m.table fd,0,none,false,
        if hook_enable then .lookup else .direct⟩))
    else none
  | .lookup f => match m.fibers f with
    | .io d => if d.phase = .lookup then some (m.lookupIo f d) else none
    | _ => none
  | .invoke f outcome => match m.fibers f with
    | .io d =>
      if (d.phase = .direct ∨ d.phase = .retry) ∧ m.Possible d outcome then
        some (m.invokeIo f d outcome)
      else none
    | _ => none
  | .addTimer f => match m.fibers f with
    | .io d =>
      if d.phase = .addTimer then some (m.addTimerIo f d) else none
    | _ => none
  | .addEvent f ctl => match m.fibers f with
    | .io d => if d.phase = .addEvent then some (m.addEventIo f d ctl) else none
    | _ => none
  | .yield f => match m.fibers f with
    | .io d =>
      if d.phase = .yield then some (m.setFiber f (.io { d with phase := .parked })) else none
    | _ => none
  | .take f => match m.fibers f with
    | .io d =>
      if d.phase = .parked ∧ f ∈ m.queue then
        some { m with queue := m.queue.erase f, held := f :: m.held }
      else none
    | _ => none
  | .swapIn f => match m.fibers f with
    | .io d =>
      if d.phase = .parked ∧ f ∈ m.held then
        some { m.setFiber f (.io { d with phase := .resumed }) with held := m.held.erase f }
      else none
    | _ => none
  | .resumed f => match m.fibers f with
    | .io d => if d.phase = .resumed then some (m.resumedIo f d) else none
    | _ => none
  | .expire i => m.timers[i]?.map fun t =>
      { m with timers := m.timers.eraseIdx i, callbacks := m.callbacks++[(t,.check)] }
  | .callback i ctl => m.callbacks[i]?.map (m.callbackIo i ctl)
  | .close f fd hook_enable =>
    if m.fibers f = .user then
      some (m.setFiber f (.close fd (if hook_enable then .get else .close_f)))
    else none
  | .closing f iom ctl => match m.fibers f with
    | .close fd stage => m.closingIo f fd iom ctl stage
    | _ => none
  | .close_f f => match m.fibers f with
    | .close fd .close_f =>
      some { m.setFiber f .user with table := Function.update m.table fd none }
    | _ => none
  | .socket f fd hook_enable =>
    if m.fibers f = .user ∧ m.table fd = none then
      some ((m.openFile fd).setFiber f (if hook_enable then .register fd else .user))
    else none
  | .register f => match m.fibers f with
    | .register fd => some (m.registerIo f fd)
    | _ => none
  | .fdCall fd c ctl => match c with
    | .delEvent _ => none
    | _ => match m.call fd c ctl with
      | none => some m.fail
      | some (m,_) => some m
  | .setUserNonblock fd v => (m.ctxs fd).map fun ctx =>
      if ctx.isClosed || !ctx.isSocket then m else
      { m with ctxs := Function.update m.ctxs fd (some { ctx with userNonblock := v }) }
  | .setTimeout fd so v => (m.ctxs fd).map fun ctx =>
      { m with ctxs := Function.update m.ctxs fd (some (ctx.setTimeout v so)) }

/-- What one step does, the guards of `step` included. -/
inductive Moves (m : Hook) : Step → Hook → Prop
  | enter {f origin fd hook_enable} (hf : m.fibers f = .user) :
      Moves m (.enter f origin fd hook_enable)
        (m.setFiber f (.io ⟨origin,fd,m.table fd,0,none,false,
          if hook_enable then .lookup else .direct⟩))
  | lookup {f d} (hf : m.fibers f = .io d) (hp : d.phase = .lookup) :
      Moves m (.lookup f) (m.lookupIo f d)
  | invoke {f d outcome} (hf : m.fibers f = .io d) (hp : d.phase = .direct ∨ d.phase = .retry)
      (ho : m.Possible d outcome) : Moves m (.invoke f outcome) (m.invokeIo f d outcome)
  | addTimer {f d} (hf : m.fibers f = .io d) (hp : d.phase = .addTimer) :
      Moves m (.addTimer f) (m.addTimerIo f d)
  | addEvent {f d ctl} (hf : m.fibers f = .io d) (hp : d.phase = .addEvent) :
      Moves m (.addEvent f ctl) (m.addEventIo f d ctl)
  | yield {f d} (hf : m.fibers f = .io d) (hp : d.phase = .yield) :
      Moves m (.yield f) (m.setFiber f (.io { d with phase := .parked }))
  | take {f d} (hf : m.fibers f = .io d) (hp : d.phase = .parked) (hq : f ∈ m.queue) :
      Moves m (.take f) { m with queue := m.queue.erase f, held := f :: m.held }
  | swapIn {f d} (hf : m.fibers f = .io d) (hp : d.phase = .parked) (hh : f ∈ m.held) :
      Moves m (.swapIn f)
        { m.setFiber f (.io { d with phase := .resumed }) with held := m.held.erase f }
  | resumed {f d} (hf : m.fibers f = .io d) (hp : d.phase = .resumed) :
      Moves m (.resumed f) (m.resumedIo f d)
  | expire {i} (t : Timer) : Moves m (.expire i)
      { m with timers := m.timers.eraseIdx i, callbacks := m.callbacks++[(t,.check)] }
  | callback {i ctl} (c : Timer × CallbackStage) : Moves m (.callback i ctl) (m.callbackIo i ctl c)
  | close {f fd hook_enable} (hf : m.fibers f = .user) : Moves m (.close f fd hook_enable)
      (m.setFiber f (.close fd (if hook_enable then .get else .close_f)))
  | closing {f fd iom ctl stage m'} (hf : m.fibers f = .close fd stage)
      (hs : m.closingIo f fd iom ctl stage = some m') : Moves m (.closing f iom ctl) m'
  | close_f {f fd} (hf : m.fibers f = .close fd .close_f) : Moves m (.close_f f)
      { m.setFiber f .user with table := Function.update m.table fd none }
  | socket {f fd hook_enable} (hf : m.fibers f = .user) (ht : m.table fd = none) :
      Moves m (.socket f fd hook_enable)
        ((m.openFile fd).setFiber f (if hook_enable then .register fd else .user))
  | register {f fd} (hf : m.fibers f = .register fd) : Moves m (.register f) (m.registerIo f fd)
  | fdCallFailed {fd c ctl} : Moves m (.fdCall fd c ctl) m.fail
  | fdCall {fd c ctl m' ok} (hd : ∀ e, c ≠ .delEvent e) (hc : m.call fd c ctl = some (m',ok)) :
      Moves m (.fdCall fd c ctl) m'
  | configure {i} (ctxs : ℕ → Option FdCtx) : Moves m i { m with ctxs }

theorem step_moves {m m' : Hook} {i : Step} (h : step m i = some m') : Moves m i m' := by
  unfold step at h
  split at h
  · cases h
  cases i with
  | enter | close | socket =>
    simp only [Option.ite_none_right_eq_some, Option.some.injEq] at h
    obtain ⟨hf,rfl⟩ := h
    first | exact .enter hf | exact .close hf | exact .socket hf.1 hf.2
  | lookup f | addTimer f | addEvent f ctl | yield f | resumed f =>
    simp only at h
    split at h
    · next hf =>
      obtain ⟨hp,h⟩ := Option.ite_none_right_eq_some.mp h
      cases h
      first
        | exact .lookup hf hp
        | exact .addTimer hf hp
        | exact .addEvent hf hp
        | exact .yield hf hp
        | exact .resumed hf hp
    · cases h
  | invoke f outcome | take f | swapIn f =>
    simp only at h
    split at h
    · next hf =>
      obtain ⟨hp,h⟩ := Option.ite_none_right_eq_some.mp h
      cases h
      first
        | exact .invoke hf hp.1 hp.2
        | exact .take hf hp.1 hp.2
        | exact .swapIn hf hp.1 hp.2
    · cases h
  | expire i =>
    obtain ⟨t,-,rfl⟩ := Option.map_eq_some_iff.mp h
    exact .expire t
  | callback i ctl =>
    obtain ⟨c,-,rfl⟩ := Option.map_eq_some_iff.mp h
    exact .callback c
  | closing f iom ctl =>
    simp only at h
    split at h
    · next hf => exact .closing hf h
    · cases h
  | close_f f =>
    simp only at h
    split at h
    · next hf => cases h; exact .close_f hf
    · cases h
  | register f =>
    simp only at h
    split at h
    · next hf => cases h; exact .register hf
    · cases h
  | fdCall fd c ctl =>
    simp only at h
    split at h
    · cases h
    · next hd =>
      split at h
      · cases h; exact .fdCallFailed
      · next hc => cases h; exact .fdCall hd hc
  | setUserNonblock fd v =>
    obtain ⟨ctx,-,rfl⟩ := Option.map_eq_some_iff.mp h
    split
    · exact .configure m.ctxs
    · exact .configure _
  | setTimeout fd so v =>
    obtain ⟨ctx,-,rfl⟩ := Option.map_eq_some_iff.mp h
    exact .configure _

/-- Fibers in hooked calls, timers, and other threads that use the same descriptors. -/
def machine : Transition.Machine Hook Step where
  init m := m = initial
  step := step

end Hook
end CoroutineWebserve
