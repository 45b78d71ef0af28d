import CoroutineWebserve.Hook.Model

/-!
# Which file a hooked call acts on

An activation of `do_io` keeps a number, not a file. It stays with the file it started on as
long as its number is neither freed nor handed out while it may still invoke the call.
-/
namespace CoroutineWebserve.Hook
open IOManager

/-- The activation may invoke the underlying call again: it has not come to its wait, or it
is not marked as timed out there. -/
def MayInvoke (cancelled : ℕ → Bool) (d : DoIo) : Prop :=
  d.phase = .lookup ∨ d.phase = .direct ∨ d.phase = .retry ∨ cancelled d.tinfo = false

/-- No activation on the number may still invoke its call. -/
def Undisturbed (m : Hook) (fd : ℕ) : Prop :=
  ∀ f d, m.fibers f = .io d → d.fd = fd → ¬MayInvoke m.cancelled d

/-- Numbers are freed and handed out only when no activation is disturbed by it. -/
def NumbersKept (m : Hook) : Step → Prop
  | .close_f f => ∀ fd, m.fibers f = .close fd .close_f → Undisturbed m fd
  | .socket _ fd _ | .invoke _ (.accepted fd) => Undisturbed m fd
  | _ => True

/-- Activations that may invoke their call still name the file they started with. -/
def Named (table : ℕ → Option ℕ) (cancelled : ℕ → Bool) (fibers : ℕ → Activity) : Prop :=
  ∀ f d, fibers f = .io d → MayInvoke cancelled d → table d.fd = d.entry

namespace Named
variable {table : ℕ → Option ℕ} {cancelled : ℕ → Bool} {fibers : ℕ → Activity}

theorem setFiber (h : Named table cancelled fibers) (f : ℕ) {a : Activity}
    (ha : ∀ d, a = .io d → MayInvoke cancelled d → table d.fd = d.entry) :
    Named table cancelled (Function.update fibers f a) := by
  intro g d hg
  by_cases he : g = f
  · subst he
    rw [Function.update_self] at hg
    exact ha d hg
  · rw [Function.update_of_ne he] at hg
    exact h g d hg

/-- An activation that goes on with its own number and file. -/
theorem goOn (h : Named table cancelled fibers) {f : ℕ} {d d' : DoIo} (hf : fibers f = .io d)
    (hfd : d'.fd = d.fd) (hentry : d'.entry = d.entry)
    (hmay : MayInvoke cancelled d' → MayInvoke cancelled d) :
    Named table cancelled (Function.update fibers f (.io d')) := by
  refine h.setFiber f fun e he hm => ?_
  cases he
  rw [hfd, hentry]
  exact h f d hf (hmay hm)

/-- A number changes that no activation depends on. -/
theorem setTable (h : Named table cancelled fibers) {fd : ℕ}
    (hu : ∀ f d, fibers f = .io d → d.fd = fd → ¬MayInvoke cancelled d) (v : Option ℕ) :
    Named (Function.update table fd v) cancelled fibers := by
  intro f d hf hm
  have hne : d.fd ≠ fd := fun he => hu f d hf he hm
  rw [Function.update_of_ne hne]
  exact h f d hf hm

theorem setCancelled (h : Named table cancelled fibers) (k : ℕ) :
    Named table (Function.update cancelled k true) fibers := by
  intro f d hf hm
  refine h f d hf ?_
  by_cases he : d.tinfo = k
  · rcases hm with hm | hm | hm | hm
    · exact .inl hm
    · exact .inr (.inl hm)
    · exact .inr (.inr (.inl hm))
    · simp [he] at hm
  · simpa [MayInvoke, he] using hm

end Named

/-- The invariant: activations name their files, and the invocations so far acted on them. -/
structure Faithful (m : Hook) : Prop where
  named : Named m.table m.cancelled m.fibers
  calls : ∀ c ∈ m.calls, c.file = c.entry

theorem call_frame {m m' : Hook} {fd : ℕ} {c : Call} {ctl ok : Bool}
    (h : m.call fd c ctl = some (m',ok)) : ∃ slots queue, m' = { m with slots, queue } := by
  obtain ⟨r,-,h⟩ := Option.bind_eq_some_iff.mp h
  obtain ⟨s,-,h⟩ := Option.map_eq_some_iff.mp h
  cases h
  exact ⟨_,_,rfl⟩

/-- `addEvent` returns 0 or -1, so the test of `do_io` never finds a failure. -/
theorem rt_not_pos (ok : Bool) : ¬(if ok then (0 : ℤ) else -1) > 0 := by
  cases ok <;> decide

namespace Faithful
variable {m : Hook}

theorem setFiber (h : Faithful m) (f : ℕ) {a : Activity} (ha : ∀ d, a ≠ .io d) :
    Faithful (m.setFiber f a) :=
  ⟨h.named.setFiber f fun d hd => absurd hd (ha d),h.calls⟩

theorem cancelTimer (h : Faithful m) (d : DoIo) : Faithful (m.cancelTimer d) := by
  unfold Hook.cancelTimer
  split
  · exact ⟨h.named,h.calls⟩
  · exact h

theorem cancelTimer_fibers (m : Hook) (d : DoIo) :
    (m.cancelTimer d).fibers = m.fibers ∧ (m.cancelTimer d).cancelled = m.cancelled := by
  unfold Hook.cancelTimer
  split <;> exact ⟨rfl,rfl⟩

theorem call (h : Faithful m) {m' : Hook} {fd : ℕ} {c : Call} {ctl ok : Bool}
    (hc : m.call fd c ctl = some (m',ok)) : Faithful m' := by
  obtain ⟨slots,queue,rfl⟩ := call_frame hc
  exact ⟨h.named,h.calls⟩

theorem lookupIo (h : Faithful m) {f : ℕ} {d : DoIo} (hf : m.fibers f = .io d)
    (hp : d.phase = .lookup) : Faithful (m.lookupIo f d) := by
  have hmay : ∀ d' : DoIo, MayInvoke m.cancelled d' → MayInvoke m.cancelled d :=
    fun _ _ => .inl hp
  unfold Hook.lookupIo
  split
  · exact ⟨h.named.goOn hf rfl rfl (hmay _),h.calls⟩
  · split
    · exact h.setFiber f (by simp)
    · split
      · exact ⟨h.named.goOn hf rfl rfl (hmay _),h.calls⟩
      · exact ⟨h.named.goOn hf rfl rfl (hmay _),h.calls⟩

/-- The invocation acts on the file that the number still names. -/
theorem invokeIo (h : Faithful m) {f : ℕ} {d : DoIo} {outcome : Outcome}
    (hf : m.fibers f = .io d) (hp : d.phase = .direct ∨ d.phase = .retry)
    (hg : NumbersKept m (.invoke f outcome)) : Faithful (m.invokeIo f d outcome) := by
  have hmay : MayInvoke m.cancelled d := .inr (hp.imp_right .inl)
  have hlog : ∀ c ∈ m.calls++[⟨f,d.fd,d.entry,m.table d.fd⟩], c.file = c.entry := by
    intro c hc
    rcases List.mem_append.mp hc with hc | hc
    · exact h.calls c hc
    · obtain rfl := List.mem_singleton.mp hc
      exact h.named f d hf hmay
  have hdone : ∀ o, NumbersKept m (.invoke f o) →
      Faithful (doneIo { m with calls := m.calls++[⟨f,d.fd,d.entry,m.table d.fd⟩] } f o) := by
    intro o ho
    cases o with
    | accepted fd => exact ⟨(h.named.setTable ho _).setFiber f (by simp),hlog⟩
    | done | EINTR | EAGAIN => exact ⟨h.named.setFiber f (by simp),hlog⟩
  rcases hp with hp | hp
  · simp only [Hook.invokeIo, hp]
    exact hdone outcome hg
  · cases outcome with
    | EINTR =>
      simp only [Hook.invokeIo, hp]
      exact ⟨h.named,hlog⟩
    | EAGAIN =>
      simp only [Hook.invokeIo, hp]
      exact ⟨h.named.goOn hf rfl rfl fun _ => hmay,hlog⟩
    | done | accepted fd =>
      simp only [Hook.invokeIo, hp]
      exact hdone _ hg

theorem addEventIo (h : Faithful m) {f : ℕ} {d : DoIo} (hf : m.fibers f = .io d)
    (hp : d.phase = .addEvent) (ctl : Bool) : Faithful (m.addEventIo f d ctl) := by
  unfold Hook.addEventIo
  split
  · exact ⟨h.named,h.calls⟩
  · next hc =>
    obtain ⟨slots,queue,rfl⟩ := call_frame hc
    simp only [rt_not_pos, if_false]
    refine ⟨h.named.goOn hf rfl rfl fun hm => ?_,h.calls⟩
    simpa [MayInvoke, hp] using hm

theorem resumedIo (h : Faithful m) {f : ℕ} {d : DoIo} (hf : m.fibers f = .io d) :
    Faithful (m.resumedIo f d) := by
  have ht := h.cancelTimer d
  have hs := cancelTimer_fibers m d
  have hf' : (m.cancelTimer d).fibers f = .io d := by rw [hs.1, hf]
  unfold Hook.resumedIo
  split
  · exact ht.setFiber f (by simp)
  · next hc =>
    -- not timed out: the wait was one behind which the call may be invoked
    refine ⟨ht.named.goOn hf' rfl rfl fun _ => ?_,ht.calls⟩
    rw [hs.2]
    exact .inr (.inr (.inr (by simpa using hc)))

theorem callbackIo (h : Faithful m) (i : ℕ) (ctl : Bool) (c : Timer × CallbackStage) :
    Faithful (m.callbackIo i ctl c) := by
  obtain ⟨t,stage⟩ := c
  cases stage with
  | check =>
    simp only [Hook.callbackIo]
    split <;> exact ⟨h.named,h.calls⟩
  | setCancelled => exact ⟨h.named.setCancelled _,h.calls⟩
  | cancelEvent =>
    simp only [Hook.callbackIo]
    split
    · exact ⟨h.named,h.calls⟩
    · next hc => exact ⟨(h.call hc).named,(h.call hc).calls⟩

theorem closingIo (h : Faithful m) {f fd : ℕ} {iom ctl : Bool} {stage : CloseStage} {m' : Hook}
    (hs : m.closingIo f fd iom ctl stage = some m') : Faithful m' := by
  cases stage with
  | get => cases hs; exact h.setFiber f (by simp)
  | cancelAll =>
    simp only [Hook.closingIo] at hs
    split at hs
    · cases hs; exact ⟨h.named,h.calls⟩
    · next hc => cases hs; exact (h.call hc).setFiber f (by simp)
  | del => cases hs; exact ⟨h.named.setFiber f (by simp),h.calls⟩
  | close_f => cases hs

theorem step {m' : Hook} {i : Step} (h : Faithful m) (hg : NumbersKept m i)
    (hs : Moves m i m') : Faithful m' := by
  cases hs with
  | enter hf =>
    refine ⟨h.named.setFiber _ fun d hd _ => ?_,h.calls⟩
    cases hd
    rfl
  | lookup hf hp => exact h.lookupIo hf hp
  | invoke hf hp _ => exact h.invokeIo hf hp hg
  | addTimer hf hp =>
    exact ⟨h.named.goOn hf rfl rfl fun hm => by simpa [MayInvoke, hp] using hm,h.calls⟩
  | addEvent hf hp => exact h.addEventIo hf hp _
  | yield hf hp =>
    exact ⟨h.named.goOn hf rfl rfl fun hm => by simpa [MayInvoke, hp] using hm,h.calls⟩
  | take | expire | fdCallFailed | configure => exact ⟨h.named,h.calls⟩
  | swapIn hf hp _ =>
    exact ⟨h.named.goOn hf rfl rfl fun hm => by simpa [MayInvoke, hp] using hm,h.calls⟩
  | resumed hf _ => exact h.resumedIo hf
  | callback c => exact h.callbackIo _ _ c
  | close => exact h.setFiber _ (by simp)
  | closing _ hs => exact h.closingIo hs
  | close_f hf => exact ⟨(h.named.setTable (hg _ hf) _).setFiber _ (by simp),h.calls⟩
  | socket => exact ⟨(h.named.setTable hg _).setFiber _ (by split <;> simp),h.calls⟩
  | register => exact ⟨h.named.setFiber _ (by simp),h.calls⟩
  | fdCall _ hc => exact h.call hc

end Faithful

theorem faithful_initial : Faithful initial :=
  ⟨fun _ _ hf => (by cases hf),fun _ hc => (by cases hc)⟩

/-- While numbers are kept, every invocation that `do_io` makes acts on the file its
descriptor named when the activation started. -/
theorem invocation_file {m : Hook} (h : machine.Reaches NumbersKept m) {c : Invocation}
    (hc : c ∈ m.calls) : c.file = c.entry :=
  (h.invariant (fun _ hi => hi ▸ faithful_initial) fun _ _ _ hm hg hs => hm.step hg (step_moves hs)).calls c hc

theorem invocation_file_read : ∃ m : Hook, m.calls = [⟨0,5,some 0,some 0⟩] ∧
    ∀ c ∈ m.calls, c.file = c.entry := by
  have opened : machine.Reaches NumbersKept (initial.openFile 5 |>.setFiber 0 (.register 5)) :=
    .step (.init rfl) (i := Step.socket 0 5 true) (fun _ _ hf => by cases hf) rfl
  have registered := opened.step (i := Step.register 0) trivial rfl
  have entered := registered.step (i := Step.enter 0 .read 5 true) trivial rfl
  have found := entered.step (i := Step.lookup 0) trivial rfl
  have called := found.step (i := Step.invoke 0 .EAGAIN) trivial rfl
  exact ⟨_,rfl,fun c hc => invocation_file called hc⟩

/-- A reader waits on number 5, another fiber closes it and a third is handed the number:
the reader wakes up and reads the new socket. -/
theorem invocation_reused : ¬∀ m : Hook, machine.Reachable m → ∀ c ∈ m.calls, c.file = c.entry := by
  intro h
  obtain ⟨m,hm,hc⟩ := Transition.Machine.exists_reaches (M := machine) rfl
    [.socket 0 5 true,.register 0,.enter 0 .read 5 true,.lookup 0,.invoke 0 .EAGAIN,.addTimer 0,
      .addEvent 0 true,.yield 0,.close 1 5 true,.closing 1 true true,.closing 1 true true,
      .closing 1 true true,.close_f 1,.socket 2 5 true,.take 0,.swapIn 0,.resumed 0,
      .invoke 0 .EAGAIN]
    (fun m => ⟨0,5,some 0,some 1⟩ ∈ m.calls) (Transition.Machine.guarded_true ..) (by decide)
  exact absurd (h m hm _ hc) (by decide)

end CoroutineWebserve.Hook
