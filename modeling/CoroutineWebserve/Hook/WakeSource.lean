import CoroutineWebserve.Hook.Identity
import CoroutineWebserve.IOManager.Trigger

/-!
# What wakes a fiber that waits in `do_io`

A successful `addEvent` stores the fiber under its event, and whatever takes it out from
there schedules it. So a fiber that suspends itself behind a successful `addEvent` stays
stored, scheduled or taken by a worker until it runs again.
-/
namespace CoroutineWebserve.Hook
open IOManager

/-- The bit of the event is set and its context stores the fiber. -/
def Stored (s : Slot) (e : Event) (f : ℕ) : Prop :=
  e ∈ s.ctx.events ∧ (s.ctx.context e).cb = none ∧
    ∃ h, (s.ctx.context e).fiber = some h ∧ ∃ exec, h.task = .fiber f exec

/-- From `s` to `s'` only tasks were scheduled; a stored fiber stays stored or is scheduled. -/
def Carries (e : Event) (f : ℕ) (s s' : Slot) : Prop :=
  ∃ tasks, s'.scheduled = s.scheduled++tasks ∧
    (Stored s e f → Stored s' e f ∨ f ∈ fibersOf tasks)

namespace Carries
variable {e : Event} {f : ℕ} {s s' s'' : Slot}

theorem of_same (hs : s'.scheduled = s.scheduled) (hc : Stored s e f → Stored s' e f) :
    Carries e f s s' := ⟨[],by rw [hs, List.append_nil],fun h => .inl (hc h)⟩

theorem trans (h : Carries e f s s') (h' : Carries e f s' s'') : Carries e f s s'' := by
  obtain ⟨ts,hs,hc⟩ := h
  obtain ⟨ts',hs',hc'⟩ := h'
  refine ⟨ts++ts',by rw [hs', hs, List.append_assoc],fun hst => ?_⟩
  rw [fibersOf, List.filterMap_append, List.mem_append]
  rcases hc hst with hst | hf
  · exact (hc' hst).imp_right .inr
  · exact .inr (.inl hf)

/-- Triggering the event schedules the fiber stored under it. -/
theorem trigger {e' : Event} {by' : Removal}
    (h : runAll (triggerEvent e' by'++[.decPending]) s = some s') : Carries e f s s' := by
  simp only [triggerEvent, runAll, Stmt.run, List.cons_append, List.nil_append,
    Option.bind_eq_some_iff, Option.ite_none_right_eq_some, Option.ite_none_left_eq_some,
    Option.some.injEq] at h
  obtain ⟨_,⟨-,rfl⟩,_,rfl,_,⟨-,rfl⟩,_,rfl,_,rfl,rfl⟩ := h
  refine ⟨(s.ctx.context e').held.toList,rfl,fun hstored => ?_⟩
  obtain ⟨hmem,hcb,g,hg,x,hx⟩ := hstored
  by_cases he : e' = e
  · subst he
    refine .inr (List.mem_filterMap.mpr ⟨g,?_,by rw [hx]⟩)
    simp [EventContext.held, hcb, hg]
  · refine .inl ⟨?_,?_,g,?_,x,hx⟩
    · exact Finset.mem_erase.mpr ⟨Ne.symm he,hmem⟩
    all_goals simpa [Slot.setContext, Slot.clearBit, Function.update_of_ne (Ne.symm he)]

theorem triggerIn {mask : Finset Event} {e' : Event} {by' : Removal}
    (h : runAll (triggerIn mask by' e') s = some s') : Carries e f s s' := by
  unfold IOManager.triggerIn at h
  split at h
  · exact trigger h
  · obtain rfl := Option.some.inj h
    exact of_same rfl id

theorem triggerIn_both {mask : Finset Event} {by' : Removal}
    (h : runAll (IOManager.triggerIn mask by' .READ++IOManager.triggerIn mask by' .WRITE) s =
      some s') : Carries e f s s' := by
  rw [runAll_append] at h
  obtain ⟨t,ht,h⟩ := Option.bind_eq_some_iff.mp h
  exact (triggerIn ht).trans (triggerIn h)

theorem epollCtl (op : CtlOp) (mask : Finset Event) (s : Slot) :
    Carries e f s (epollCtl op mask s) := of_same rfl id

end Carries

/-- The statements of a successful `addEvent` store its task under a bit that was clear. -/
theorem runAll_addEvent {e : Event} {scheduler : Option ℕ} {task : Task} {s s' : Slot}
    (h : runAll [.incPending,.orEvents e,.fill e scheduler task] s = some s') :
    s'.scheduled = s.scheduled ∧ s'.ctx.events = insert e s.ctx.events ∧
      s'.ctx.context = Function.update s.ctx.context e
        (.fill scheduler ⟨s.registrations.length,task⟩) := by
  simp only [runAll, Stmt.run, Option.bind_some, Option.bind_eq_some_iff,
    Option.ite_none_left_eq_some, Option.some.injEq] at h
  obtain ⟨_,⟨-,rfl⟩,rfl⟩ := h
  exact ⟨rfl,rfl,rfl⟩

/-- Every call but `delEvent` carries a stored fiber along. -/
theorem enter_carries {c : Call} {s t s' : Slot} {ctl ok : Bool} {prog : List Stmt} (e : Event)
    (f : ℕ) (hd : ∀ e, c ≠ .delEvent e) (he : c.enter s ctl = some (t,prog,ok))
    (hr : runAll prog t = some s') : Carries e f s s' := by
  have same : ∀ {u}, runAll [] s = some u → Carries e f s u := fun h =>
    Option.some.inj h ▸ Carries.of_same rfl id
  cases c with
  | delEvent e => exact absurd rfl (hd e)
  | addEvent e' scheduler task =>
    simp only [Call.enter] at he
    split at he
    · cases he
    next hmem =>
    split at he
    · cases he; exact same hr
    cases he
    obtain ⟨hs,hev,hctx⟩ := runAll_addEvent hr
    refine .of_same hs fun hstored => ?_
    obtain ⟨hin,hcb,g,hg,hx⟩ := hstored
    have hne : e ≠ e' := by rintro rfl; exact hmem hin
    refine ⟨?_,?_,g,?_,hx⟩
    · rw [hev]
      exact Finset.mem_insert_of_mem hin
    · rw [hctx, Function.update_of_ne hne]
      exact hcb
    · rw [hctx, Function.update_of_ne hne]
      exact hg
  | cancelEvent e' =>
    simp only [Call.enter] at he
    split at he <;> cases he
    · exact same hr
    · exact (Carries.epollCtl ..).trans (Carries.trigger hr)
  | cancelAll =>
    simp only [Call.enter] at he
    split at he <;> cases he
    · exact same hr
    · rw [runAll_append] at hr
      obtain ⟨u,hu,hr⟩ := Option.bind_eq_some_iff.mp hr
      obtain ⟨-,rfl⟩ : u.ctx.events = ∅ ∧ u = s' := by simpa [runAll, Stmt.run] using hr
      exact (Carries.epollCtl ..).trans (Carries.triggerIn_both hu)
  | dispatch r =>
    simp only [Call.enter] at he
    split at he <;> cases he
    · exact same hr
    · exact (Carries.epollCtl ..).trans (Carries.triggerIn_both hr)

/-- A successful `addEvent` of a fiber stores it. -/
theorem enter_stores {e : Event} {f : ℕ} {exec ok : Bool} {scheduler : Option ℕ} {s t s' : Slot}
    {prog : List Stmt}
    (he : (Call.addEvent e scheduler (.fiber f exec)).enter s true = some (t,prog,ok))
    (hr : runAll prog t = some s') : Stored s' e f := by
  simp only [Call.enter] at he
  split at he
  · cases he
  split at he
  · simp_all
  cases he
  obtain ⟨-,hev,hctx⟩ := runAll_addEvent hr
  refine ⟨?_,?_,⟨s.registrations.length,.fiber f exec⟩,?_,exec,rfl⟩
  · rw [hev]
    exact Finset.mem_insert_self ..
  · rw [hctx, Function.update_self]
    rfl
  · rw [hctx, Function.update_self]
    rfl

/-! ### The invariant -/

/-- Between a successful `addEvent` and the end of `YieldToHold`. -/
def Waits (d : DoIo) : Prop := d.phase = .yield ∨ d.phase = .parked

/-- Something will resume the fiber: its event, the scheduler, or the worker that took it. -/
def HasWakeSource (m : Hook) (f : ℕ) (d : DoIo) : Prop :=
  Stored (m.slots d.fd) d.origin.event f ∨ f ∈ m.queue ∨ f ∈ m.held

def Awake (m : Hook) : Prop := ∀ f d, m.fibers f = .io d → Waits d → HasWakeSource m f d

/-- `addEvent` returns 0 whenever `do_io` calls it. -/
def AddEventSucceeds : Step → Prop
  | .addEvent _ ctl => ctl = true
  | _ => True

instance : DecidablePred AddEventSucceeds
  | .addEvent _ ctl => inferInstanceAs (Decidable (ctl = true))
  | .enter .. | .lookup _ | .invoke .. | .addTimer _ | .yield _ | .take _ | .swapIn _
  | .resumed _ | .expire _ | .callback .. | .close .. | .closing .. | .close_f _ | .socket ..
  | .register _ | .fdCall .. | .setUserNonblock .. | .setTimeout .. => isTrue trivial

theorem call_eq {m m' : Hook} {fd : ℕ} {c : Call} {ctl ok : Bool}
    (h : m.call fd c ctl = some (m',ok)) :
    ∃ t prog s, c.enter (m.slots fd) ctl = some (t,prog,ok) ∧ runAll prog t = some s ∧
      m' = { m with
        slots := Function.update m.slots fd s
        queue := m.queue++fibersOf (s.scheduled.drop (m.slots fd).scheduled.length) } := by
  obtain ⟨⟨t,prog,ok'⟩,he,h⟩ := Option.bind_eq_some_iff.mp h
  obtain ⟨s,hs,h⟩ := Option.map_eq_some_iff.mp h
  obtain ⟨rfl,rfl⟩ := Prod.mk.inj h
  exact ⟨t,prog,s,he,hs,rfl⟩

namespace Awake
variable {m : Hook}

theorem setFiber (h : Awake m) (f : ℕ) {a : Activity}
    (ha : ∀ d, a = .io d → Waits d → HasWakeSource m f d) : Awake (m.setFiber f a) := by
  intro g d hg hw
  by_cases he : g = f
  · subst he
    exact ha d (by simpa [Hook.setFiber] using hg) hw
  · exact h g d (by simpa [Hook.setFiber, he] using hg) hw

/-- A fiber that goes to a place where it does not wait. -/
theorem leave (h : Awake m) (f : ℕ) {a : Activity} (ha : ∀ d, a = .io d → ¬Waits d) :
    Awake (m.setFiber f a) := h.setFiber f fun d hd hw => absurd hw (ha d hd)

theorem cancelTimer (h : Awake m) (d : DoIo) : Awake (m.cancelTimer d) := by
  unfold Hook.cancelTimer
  split <;> exact h

theorem call (h : Awake m) {m' : Hook} {fd : ℕ} {c : Call} {ctl ok : Bool}
    (hc : m.call fd c ctl = some (m',ok)) (hd : ∀ e, c ≠ .delEvent e) : Awake m' := by
  obtain ⟨t,prog,s,he,hr,rfl⟩ := call_eq hc
  intro f d hf hw
  rcases h f d hf hw with hst | hq | hh
  · by_cases hfd : d.fd = fd
    · subst hfd
      obtain ⟨tasks,hs,hcar⟩ := enter_carries d.origin.event f hd he hr
      rcases hcar hst with hst | hmem
      · exact .inl (by simpa [Function.update_self] using hst)
      · refine .inr (.inl (List.mem_append_right _ ?_))
        rw [hs, List.drop_left]
        exact hmem
    · exact .inl (by simpa [Function.update_of_ne hfd] using hst)
  · exact .inr (.inl (List.mem_append_left _ hq))
  · exact .inr (.inr hh)

theorem lookupIo (h : Awake m) (f : ℕ) (d : DoIo) : Awake (m.lookupIo f d) := by
  unfold Hook.lookupIo
  split
  · exact h.leave f fun e he => by cases he; simp [Waits]
  · split
    · exact h.leave f (by simp)
    · split
      · exact h.leave f fun e he => by cases he; simp [Waits]
      · exact h.leave f fun e he => by cases he; simp [Waits]

theorem doneIo (h : Awake m) (f : ℕ) (o : Outcome) : Awake (m.doneIo f o) := by
  cases o with
  | accepted fd =>
    have ho : Awake (m.openFile fd) := h
    exact ho.leave f (by simp)
  | done | EINTR | EAGAIN => exact h.leave f (by simp)

theorem invokeIo (h : Awake m) {f : ℕ} {d : DoIo} (o : Outcome) : Awake (m.invokeIo f d o) := by
  have hlog : Awake { m with calls := m.calls++[⟨f,d.fd,d.entry,m.table d.fd⟩] } := h
  simp only [Hook.invokeIo]
  split
  · exact hlog
  · exact hlog.leave f fun e he => by cases he; simp [Waits]
  · exact hlog.doneIo f _

/-- Behind a successful `addEvent` the fiber is stored when it suspends itself. -/
theorem addEventIo (h : Awake m) (f : ℕ) (d : DoIo) : Awake (m.addEventIo f d true) := by
  unfold Hook.addEventIo
  split
  · exact h
  · next m' ok hc =>
    simp only [rt_not_pos, if_false]
    refine (h.call hc (by simp)).setFiber f fun e he _ => ?_
    cases he
    obtain ⟨t,prog,s,he,hr,rfl⟩ := call_eq hc
    exact .inl (by simpa [Function.update_self] using enter_stores he hr)

theorem callbackIo (h : Awake m) (i : ℕ) (ctl : Bool) (c : Timer × CallbackStage) :
    Awake (m.callbackIo i ctl c) := by
  obtain ⟨t,stage⟩ := c
  cases stage with
  | check =>
    simp only [Hook.callbackIo]
    split <;> exact h
  | setCancelled => exact h
  | cancelEvent =>
    simp only [Hook.callbackIo]
    split
    · exact h
    · next hc =>
      have hcall := h.call hc (by simp)
      exact hcall

theorem closingIo (h : Awake m) {f fd : ℕ} {iom ctl : Bool} {stage : CloseStage} {m' : Hook}
    (hs : m.closingIo f fd iom ctl stage = some m') : Awake m' := by
  cases stage with
  | get => cases hs; exact h.leave f (by simp)
  | cancelAll =>
    simp only [Hook.closingIo] at hs
    split at hs
    · cases hs; exact h
    · next hc => cases hs; exact (h.call hc (by simp)).leave f (by simp)
  | del =>
    cases hs
    have hl := h.leave f (a := .close fd .close_f) (by simp)
    exact hl
  | close_f => cases hs

theorem step {m' : Hook} {i : Step} (h : Awake m) (hg : AddEventSucceeds i)
    (hs : Moves m i m') : Awake m' := by
  cases hs with
  | enter => exact h.leave _ fun e he => by cases he; simp only [Waits]; split <;> simp
  | lookup => exact h.lookupIo _ _
  | invoke => exact h.invokeIo _
  | @addTimer f d =>
    have hl := h.leave f (a := .io { d with phase := .addEvent, timer := d.timeout.isSome })
      fun e he => by cases he; simp [Waits]
    exact hl
  | addEvent =>
    obtain rfl := hg
    exact h.addEventIo _ _
  | @yield f d hf hp =>
    have hd : HasWakeSource m f d := h f d hf (.inl hp)
    refine h.setFiber f fun e he _ => ?_
    cases he
    exact hd
  | @take f d hf hp hq =>
    intro g d hg hw
    rcases h g d hg hw with hst | hq | hh
    · exact .inl hst
    · by_cases he : g = f
      · exact .inr (.inr (he ▸ List.mem_cons_self ..))
      · exact .inr (.inl ((List.mem_erase_of_ne he).mpr hq))
    · exact .inr (.inr (List.mem_cons_of_mem _ hh))
  | @swapIn f d hf hp hh =>
    intro g d hg hw
    by_cases he : g = f
    · subst he
      simp only [Hook.setFiber, Function.update_self, Activity.io.injEq] at hg
      subst hg
      simp [Waits] at hw
    · rcases h g d (by simpa [Hook.setFiber, he] using hg) hw with hst | hq | hh
      · exact .inl hst
      · exact .inr (.inl hq)
      · exact .inr (.inr ((List.mem_erase_of_ne he).mpr hh))
  | resumed =>
    exact (h.cancelTimer _).leave _ fun e he => by split at he <;> cases he; simp [Waits]
  | expire | fdCallFailed | configure => exact h
  | callback c => exact h.callbackIo _ _ c
  | close => exact h.leave _ (by simp)
  | closing _ hs => exact h.closingIo hs
  | @close_f f =>
    have hl := h.leave f (a := .user) (by simp)
    exact hl
  | @socket f fd =>
    have ho : Awake (m.openFile fd) := h
    exact ho.leave f (by split <;> simp)
  | @register f =>
    have hl := h.leave f (a := .user) (by simp)
    exact hl
  | fdCall hd hc => exact h.call hc hd

end Awake

/-- While `addEvent` succeeds, a fiber suspended in `do_io` has something that wakes it. -/
theorem parked_has_wake_source {m : Hook}
    (h : machine.Reaches (fun _ => AddEventSucceeds) m) {f : ℕ} {d : DoIo}
    (hf : m.fibers f = .io d) (hp : d.phase = .parked) : HasWakeSource m f d := by
  have hawake : Awake m := h.invariant
    (fun _ hi f d hf => by rw [hi] at hf; cases hf)
    fun _ _ _ hm hg hs => hm.step hg (step_moves hs)
  exact hawake f d hf (.inr hp)

theorem parked_has_wake_source_read : ∃ m : Hook, ∃ d : DoIo, m.fibers 0 = .io d ∧
    d.phase = .parked ∧ HasWakeSource m 0 d := by
  obtain ⟨m,hm,hf⟩ := Transition.Machine.exists_reaches (M := machine)
    (G := fun _ => AddEventSucceeds) rfl
    [.socket 0 5 true,.register 0,.setTimeout 5 .SO_RCVTIMEO (some 100),.enter 0 .read 5 true,
      .lookup 0,.invoke 0 .EAGAIN,.addTimer 0,.addEvent 0 true,.yield 0]
    (fun m => m.fibers 0 = .io ⟨.read,5,some 0,1,some 100,true,.parked⟩) (by decide) (by decide)
  exact ⟨m,_,hf,rfl,parked_has_wake_source hm hf rfl⟩

/-- `epoll_ctl` fails, `addEvent` returns -1, and the test `rt > 0` lets the fiber suspend
itself: it is neither stored nor scheduled. -/
theorem parked_without_wake_source : ¬∀ m : Hook, machine.Reachable m → ∀ f d,
    m.fibers f = .io d → d.phase = .parked → HasWakeSource m f d := by
  intro h
  obtain ⟨m,hm,hf,hs,hq,hh⟩ := Transition.Machine.exists_reaches (M := machine) rfl
    [.socket 0 5 true,.register 0,.enter 0 .read 5 true,.lookup 0,.invoke 0 .EAGAIN,.addTimer 0,
      .addEvent 0 false,.yield 0]
    (fun m => m.fibers 0 = .io ⟨.read,5,some 0,1,none,false,.parked⟩ ∧
      .READ ∉ (m.slots 5).ctx.events ∧ 0 ∉ m.queue ∧ 0 ∉ m.held)
    (Transition.Machine.guarded_true ..) (by decide)
  rcases h m hm 0 _ hf rfl with hst | hm | hm
  · exact hs hst.1
  · exact hq hm
  · exact hh hm

end CoroutineWebserve.Hook
