import CoroutineWebserve.IOManager.Trigger
import Mathlib.Algebra.BigOperators.Group.Finset.Basic
import Mathlib.Data.Fintype.BigOperators

/-!
# Conservation of event registrations

While a mutex is free, its descriptor is quiet: bits, contexts, kernel mask, counter and
the history of its registrations agree. Inside a critical section the statements that are
left lead back to a quiet descriptor.
-/
namespace CoroutineWebserve.IOManager

/-- How often the registration with this number was scheduled. -/
def Slot.schedules (s : Slot) (k : ℕ) : ℕ := s.scheduled.countP (·.serial = k)

/-- A registration is scheduled once when something else than `delEvent` removes it. -/
def schedulesOf : Option Removal → ℕ
  | none | some .delEvent => 0
  | some _ => 1

/-- Bits, contexts and history of a descriptor agree. -/
structure Consistent (s : Slot) : Prop where
  counted : s.counted = s.ctx.events.card
  set : ∀ e ∈ s.ctx.events, (s.ctx.context e).Registered
  clear : ∀ e ∉ s.ctx.events, s.ctx.context e = .empty
  holds : ∀ e h, (s.ctx.context e).held = some h →
    s.registrations[h.serial]? = some ⟨e,h.task,none⟩
  live : ∀ k r, s.registrations[k]? = some r → r.removed = none →
    (s.ctx.context r.event).held = some ⟨k,r.task⟩
  history : ∀ k r, s.registrations[k]? = some r → s.schedules k = schedulesOf r.removed
  known : ∀ h ∈ s.scheduled, ∃ r, s.registrations[h.serial]? = some r ∧ r.task = h.task

/-- A consistent descriptor whose kernel mask is its events. -/
structure Quiet (s : Slot) : Prop extends Consistent s where
  mask : s.mask = s.ctx.events

theorem quiet_empty : Quiet .empty where
  counted := rfl
  set e he := by simp [Slot.empty] at he
  clear _ _ := rfl
  holds e h he := by simp [Slot.empty, EventContext.empty, EventContext.held] at he
  live k r hr := by simp [Slot.empty] at hr
  history k r hr := by simp [Slot.empty] at hr
  known h hh := by simp [Slot.empty] at hh
  mask := rfl

/-! ### Removing and adding a registration -/

namespace EventContext
variable {c : EventContext}

/-- A registered context holds a task, and swapping the task out leaves it empty. -/
theorem Registered.held (h : c.Registered) :
    ∃ t, c.held = some t ∧ { c.swapOut with scheduler := none } = empty := by
  obtain ⟨scheduler,fiber,cb⟩ := c
  cases fiber <;> cases cb <;>
    simp_all [Registered, EventContext.held, swapOut, empty]

theorem held_empty : empty.held = none := rfl

theorem registered_fill {scheduler : Option ℕ} (hs : scheduler.isSome) (h : Handle) :
    (fill scheduler h).Registered ∧ (fill scheduler h).held = some h := by
  obtain ⟨k,task⟩ := h
  cases task <;> simp [fill, Registered, EventContext.held, hs]

theorem not_registered_empty : ¬empty.Registered := fun h => by simp [Registered, empty] at h

end EventContext

namespace Slot

/-- The slot without the registration of `e`: its handle is scheduled unless `delEvent`
removed it. -/
def remove (s : Slot) (e : Event) (by' : Removal) (h : Handle) : Slot :=
  { s with
    ctx := ⟨Function.update s.ctx.context e .empty,s.ctx.events.erase e⟩
    registrations := s.registrations.modify h.serial fun r => { r with removed := some by' }
    scheduled := if by' = .delEvent then s.scheduled else s.scheduled++[h]
    counted := s.counted-1 }

/-- The slot with a new registration of `e`. -/
def add (s : Slot) (e : Event) (scheduler : Option ℕ) (task : Task) : Slot :=
  { s with
    ctx := ⟨Function.update s.ctx.context e (.fill scheduler ⟨s.registrations.length,task⟩),
      insert e s.ctx.events⟩
    registrations := s.registrations++[⟨e,task,none⟩]
    counted := s.counted+1 }

end Slot

namespace Consistent
variable {s : Slot} {e : Event}

theorem schedules_remove (by' : Removal) (h : Handle) (k : ℕ) :
    (s.remove e by' h).schedules k =
      s.schedules k+if by' ≠ .delEvent ∧ h.serial = k then 1 else 0 := by
  by_cases hb : by' = .delEvent <;> by_cases hk : h.serial = k <;>
    simp [Slot.remove, Slot.schedules, List.countP_append, hb, hk]

theorem remove (hs : Consistent s) (he : e ∈ s.ctx.events) {h : Handle}
    (hh : (s.ctx.context e).held = some h) (by' : Removal) : Consistent (s.remove e by' h) := by
  have hreg := hs.holds e h hh
  have hget : ∀ k, (s.remove e by' h).registrations[k]? =
      s.registrations[k]?.map fun r => if h.serial = k then { r with removed := some by' } else r :=
    fun k => by simp [Slot.remove, List.getElem?_modify]
  have hctx : ∀ f, f ≠ e → (s.remove e by' h).ctx.context f = s.ctx.context f :=
    fun f hf => Function.update_of_ne hf ..
  refine ⟨?_,fun f hf => ?_,fun f hf => ?_,fun f g hg => ?_,fun k r hr hn => ?_,fun k r hr => ?_,
    fun g hg => ?_⟩
  · have := Finset.card_pos.mpr ⟨e,he⟩
    simp only [Slot.remove, hs.counted, Finset.card_erase_of_mem he]
    omega
  · obtain ⟨hne,hf⟩ := Finset.mem_erase.mp hf
    rw [hctx f hne]
    exact hs.set f hf
  · by_cases hfe : f = e
    · subst hfe; exact Function.update_self ..
    · rw [hctx f hfe]
      exact hs.clear f fun hm => hf (Finset.mem_erase.mpr ⟨hfe,hm⟩)
  · by_cases hfe : f = e
    · subst hfe
      simp [Slot.remove, EventContext.held_empty] at hg
    · -- another event has another registration
      rw [hctx f hfe] at hg
      have hf := hs.holds f g hg
      have hne : h.serial ≠ g.serial := by
        intro heq
        rw [← heq, hreg] at hf
        exact hfe (congrArg Registration.event (Option.some.inj hf)).symm
      rw [hget, hf, Option.map_some, if_neg hne]
  · obtain ⟨r',hr',rfl⟩ := Option.map_eq_some_iff.mp ((hget k).symm.trans hr)
    by_cases hk : h.serial = k
    · rw [if_pos hk] at hn
      cases hn
    · rw [if_neg hk] at hn ⊢
      have hlive := hs.live k r' hr' hn
      have hne : r'.event ≠ e := by
        intro heq
        rw [heq, hh] at hlive
        exact hk (congrArg Handle.serial (Option.some.inj hlive))
      rw [hctx _ hne, hlive]
  · obtain ⟨r',hr',rfl⟩ := Option.map_eq_some_iff.mp ((hget k).symm.trans hr)
    rw [schedules_remove, hs.history k r' hr']
    by_cases hk : h.serial = k
    · subst hk
      rw [hreg] at hr'
      cases hr'
      cases by' <;> simp [schedulesOf]
    · simp [hk]
  · have hcase : g ∈ s.scheduled ∨ g = h := by
      by_cases hb : by' = .delEvent
      · exact .inl (by simpa [Slot.remove, hb] using hg)
      · simpa [Slot.remove, hb] using hg
    rcases hcase with hg | rfl
    · obtain ⟨r,hr,ht⟩ := hs.known g hg
      refine ⟨_,by rw [hget, hr, Option.map_some],?_⟩
      split <;> exact ht
    · exact ⟨_,by rw [hget, hreg, Option.map_some, if_pos rfl],rfl⟩

theorem add (hs : Consistent s) (he : e ∉ s.ctx.events) {scheduler : Option ℕ}
    (hsch : scheduler.isSome) (task : Task) : Consistent (s.add e scheduler task) := by
  have hfill := EventContext.registered_fill hsch ⟨s.registrations.length,task⟩
  have hctx : ∀ f, f ≠ e → (s.add e scheduler task).ctx.context f = s.ctx.context f :=
    fun f hf => Function.update_of_ne hf ..
  have hself : (s.add e scheduler task).ctx.context e =
      .fill scheduler ⟨s.registrations.length,task⟩ := Function.update_self ..
  have hold : ∀ {k r}, s.registrations[k]? = some r →
      (s.add e scheduler task).registrations[k]? = some r := fun hr => by
    rwa [Slot.add, List.getElem?_append_left (List.getElem?_eq_some_iff.mp hr).1]
  have hcases : ∀ {k r}, (s.add e scheduler task).registrations[k]? = some r →
      s.registrations[k]? = some r ∨ k = s.registrations.length ∧ r = ⟨e,task,none⟩ := by
    intro k r hr
    rcases lt_trichotomy k s.registrations.length with hk | hk | hk
    · exact .inl (by rwa [Slot.add, List.getElem?_append_left hk] at hr)
    · subst hk
      exact .inr ⟨rfl,by simpa [Slot.add] using hr.symm⟩
    · have := (List.getElem?_eq_some_iff.mp hr).1
      simp [Slot.add] at this
      omega
  refine ⟨?_,fun f hf => ?_,fun f hf => ?_,fun f g hg => ?_,fun k r hr hn => ?_,fun k r hr => ?_,
    fun g hg => ?_⟩
  · simp [Slot.add, hs.counted, Finset.card_insert_of_notMem he]
  · by_cases hfe : f = e
    · subst hfe
      rw [hself]
      exact hfill.1
    · rw [hctx f hfe]
      exact hs.set f ((Finset.mem_insert.mp hf).resolve_left hfe)
  · have hne : f ≠ e := fun h => hf (Finset.mem_insert.mpr (.inl h))
    rw [hctx f hne]
    exact hs.clear f fun hm => hf (Finset.mem_insert.mpr (.inr hm))
  · by_cases hfe : f = e
    · subst hfe
      rw [hself, hfill.2] at hg
      cases hg
      simp [Slot.add]
    · rw [hctx f hfe] at hg
      exact hold (hs.holds f g hg)
  · rcases hcases hr with hr | ⟨rfl,rfl⟩
    · have hlive := hs.live k r hr hn
      have hne : r.event ≠ e := by
        intro heq
        rw [heq, hs.clear e he] at hlive
        cases hlive
      rw [hctx _ hne, hlive]
    · exact hself ▸ hfill.2
  · rcases hcases hr with hr | ⟨rfl,rfl⟩
    · exact hs.history k r hr
    · -- nothing was scheduled under a number that is still free
      refine List.countP_eq_zero.mpr fun g hg hk => ?_
      obtain ⟨r,hr,-⟩ := hs.known g hg
      have := (List.getElem?_eq_some_iff.mp hr).1
      simp at hk
      omega
  · obtain ⟨r,hr,ht⟩ := hs.known g hg
    exact ⟨r,hold hr,ht⟩

/-! ### The programs -/

/-- Triggering a registered event removes its registration. -/
theorem runAll_trigger_eq (hs : Consistent s) {by' : Removal} (hb : by' ≠ .delEvent) {s' : Slot}
    (h : runAll (triggerEvent e by'++[.decPending]) s = some s') :
    ∃ t, e ∈ s.ctx.events ∧ (s.ctx.context e).held = some t ∧ s' = s.remove e by' t := by
  by_cases he : e ∈ s.ctx.events
  · obtain ⟨t,ht,hempty⟩ := (hs.set e he).held
    have hsch : (s.ctx.context e).scheduler ≠ none := by
      have := (hs.set e he).1
      intro hn
      simp [hn] at this
    have hrun : runAll (triggerEvent e by'++[.decPending]) s = some (s.remove e by' t) := by
      simp [triggerEvent, runAll, Stmt.run, Slot.clearBit, Slot.setContext, Slot.remove, he, ht,
        hsch, hempty, hb]
    exact ⟨t,he,ht,Option.some.inj (h.symm.trans hrun)⟩
  · simp [triggerEvent, runAll, Stmt.run, he] at h

theorem runAll_trigger (hs : Consistent s) {by' : Removal} (hb : by' ≠ .delEvent) {s' : Slot}
    (h : runAll (triggerEvent e by'++[.decPending]) s = some s') :
    Consistent s' ∧ s'.mask = s.mask := by
  obtain ⟨t,he,ht,rfl⟩ := hs.runAll_trigger_eq hb h
  exact ⟨hs.remove he ht by',rfl⟩

theorem runAll_triggerIn (hs : Consistent s) {by' : Removal} (hb : by' ≠ .delEvent)
    {mask : Finset Event} {s' : Slot} (h : runAll (triggerIn mask by' e) s = some s') :
    Consistent s' ∧ s'.mask = s.mask := by
  unfold triggerIn at h
  split at h
  · exact hs.runAll_trigger hb h
  · obtain rfl := Option.some.inj h
    exact ⟨hs,rfl⟩

/-- Triggering both events of a mask leaves the events outside of it. -/
theorem runAll_triggerIn_both (hs : Consistent s) {by' : Removal} (hb : by' ≠ .delEvent)
    {mask : Finset Event} {s' : Slot}
    (h : runAll (triggerIn mask by' .READ++triggerIn mask by' .WRITE) s = some s') :
    Consistent s' ∧ s'.mask = s.mask ∧ s'.ctx.events = s.ctx.events \ mask := by
  rw [runAll_append] at h
  obtain ⟨t,ht,h⟩ := Option.bind_eq_some_iff.mp h
  obtain ⟨hct,hmt⟩ := hs.runAll_triggerIn hb ht
  obtain ⟨hc,hm⟩ := hct.runAll_triggerIn hb h
  refine ⟨hc,hm.trans hmt,?_⟩
  rw [runAll_triggerIn_events h, runAll_triggerIn_events ht]
  ext f
  cases f <;> by_cases hr : Event.READ ∈ mask <;> by_cases hw : Event.WRITE ∈ mask <;>
    simp [hr, hw]

end Consistent

/-! ### The invariant of the critical sections -/

/-- The statements left lead to a quiet descriptor, unless an assertion stops them. -/
def Settles (prog : List Stmt) (s : Slot) : Prop := ∀ t, runAll prog s = some t → Quiet t

theorem epollCtl_modOrDel (mask : Finset Event) (s : Slot) :
    epollCtl (modOrDel mask) mask s = { s with mask } := by
  unfold epollCtl modOrDel
  split <;> simp_all

theorem Consistent.with_mask {s : Slot} (hs : Consistent s) (mask : Finset Event) :
    Consistent { s with mask } :=
  ⟨hs.counted,hs.set,hs.clear,hs.holds,hs.live,hs.history,hs.known⟩

/-- `addEvent` runs on a thread that has a scheduler. -/
def OnScheduler : Call → Prop
  | .addEvent _ scheduler _ => scheduler.isSome
  | _ => True

instance : DecidablePred OnScheduler
  | .addEvent .. => inferInstanceAs (Decidable (_ = true))
  | .delEvent _ | .cancelEvent _ | .cancelAll | .dispatch _ => isTrue trivial

theorem Quiet.settles {s : Slot} (hs : Quiet s) : Settles [] s :=
  fun _ h => Option.some.inj h ▸ hs

theorem Quiet.enter_settles {c : Call} {s s' : Slot} {ctl result : Bool} {prog : List Stmt}
    (hs : Quiet s) (hc : OnScheduler c) (he : c.enter s ctl = some (s',prog,result)) :
    Settles prog s' := by
  cases c with
  | addEvent e scheduler task =>
    simp only [Call.enter] at he
    split at he
    · cases he
    next hmem =>
    split at he
    · cases he; exact hs.settles
    cases he
    intro t ht
    have hmask : ∀ op, op ≠ .EPOLL_CTL_DEL →
        epollCtl op (insert e s.ctx.events) s = { s with mask := insert e s.ctx.events } :=
      fun op hop => by simp [epollCtl, hop]
    rw [hmask _ (by split <;> decide)] at ht
    simp only [runAll, Stmt.run, Option.bind_some] at ht
    split at ht
    · cases ht
    · obtain rfl := Option.some.inj ht
      exact ⟨(hs.toConsistent.with_mask (insert e s.ctx.events)).add hmem hc task,rfl⟩
  | delEvent e =>
    simp only [Call.enter] at he
    split at he
    · cases he; exact hs.settles
    next hg =>
    have hmem := not_not.mp (not_or.mp hg).1
    cases he
    rw [epollCtl_modOrDel]
    obtain ⟨h,hh,-⟩ := (hs.set e hmem).held
    intro t ht
    obtain rfl : Slot.remove { s with mask := s.ctx.events.erase e } e .delEvent h = t := by
      simpa [runAll, Stmt.run, Slot.clearBit, Slot.setContext, Slot.remove, hh] using ht
    exact ⟨(hs.toConsistent.with_mask (s.ctx.events.erase e)).remove hmem hh .delEvent,rfl⟩
  | cancelEvent e =>
    simp only [Call.enter] at he
    split at he
    · cases he; exact hs.settles
    cases he
    rw [epollCtl_modOrDel]
    intro t ht
    obtain ⟨hc,hm⟩ := (hs.toConsistent.with_mask _).runAll_trigger (by decide) ht
    exact ⟨hc,hm.trans (runAll_trigger_events ht).symm⟩
  | cancelAll =>
    simp only [Call.enter] at he
    split at he
    · cases he; exact hs.settles
    cases he
    intro t ht
    rw [runAll_append] at ht
    obtain ⟨u,hu,ht⟩ := Option.bind_eq_some_iff.mp ht
    obtain ⟨hc,hm,hev⟩ := (hs.toConsistent.with_mask ∅).runAll_triggerIn_both (by decide) hu
    obtain ⟨hnone,rfl⟩ : u.ctx.events = ∅ ∧ u = t := by simpa [runAll, Stmt.run] using ht
    exact ⟨hc,hm.trans hnone.symm⟩
  | dispatch r =>
    simp only [Call.enter] at he
    split at he
    · cases he; exact hs.settles
    cases he
    rw [epollCtl_modOrDel]
    intro t ht
    obtain ⟨hc,hm,hev⟩ := (hs.toConsistent.with_mask _).runAll_triggerIn_both (by decide) ht
    exact ⟨hc,hm.trans hev.symm⟩

/-- Free descriptors are quiet, and the critical sections lead back there. -/
def quietInvariant : LocalInvariant OnScheduler fun _ _ _ => True where
  Free := Quiet
  Held
    | .entered c, s => Quiet s ∧ OnScheduler c
    | .body prog, s => Settles prog s
  empty := quiet_empty
  call hc hs := ⟨hs,hc⟩
  dispatch hs := ⟨hs,trivial⟩
  enter h _ he := h.1.enter_settles h.2 he
  stmt h hr t ht := h t (by rw [runAll, hr]; exact ht)
  unlock h := h _ rfl

/-! ### The counter -/

section pending
variable {F T : Type*} [DecidableEq F] [DecidableEq T] [Fintype F]

theorem enter_counted {c : Call} {s s' : Slot} {ctl result : Bool} {prog : List Stmt}
    (he : c.enter s ctl = some (s',prog,result)) : s'.counted = s.counted := by
  cases c <;> simp only [Call.enter] at he <;> split at he <;> try cases he <;> rfl
  split at he <;> cases he <;> rfl

theorem run_counted {p : Stmt} {s s' : Slot} (hr : p.run s = some s') :
    s'.counted = s.counted+p.pending := by
  cases p <;> simp only [Stmt.run, Option.some.injEq, Option.ite_none_left_eq_some,
    Option.ite_none_right_eq_some] at hr <;> grind [Stmt.pending, Slot.clearBit, Slot.setContext]

theorem sum_counted_update (fds : F → Slot) (fd : F) (s : Slot) :
    ∑ g, (Function.update fds fd s g).counted =
      ∑ g, (fds g).counted+(s.counted-(fds fd).counted) := by
  have hdiff : ∑ g, ((Function.update fds fd s g).counted-(fds g).counted) =
      s.counted-(fds fd).counted := by
    rw [Finset.sum_eq_single fd (fun g _ hg => by simp [hg]) (by simp)]
    simp
  rw [Finset.sum_sub_distrib] at hdiff
  omega

/-- The counter is the sum of what the statements counted for each descriptor. -/
theorem pending_eq_sum {m : IOManager F T} (h : (machine F T).Reachable m) :
    m.pendingEventCount = ∑ fd, (m.fds fd).counted := by
  refine h.invariant (I := fun m => m.pendingEventCount = ∑ fd, (m.fds fd).counted) ?_ ?_
  · rintro _ rfl
    simp [initial, Slot.empty]
  · intro m i m' hm _ hs
    cases step_moves hs with
    | failed | call | epollWait | dispatch | unlock => exact hm
    | enter hc he =>
      simp only [setThread]
      rw [sum_counted_update, enter_counted he, sub_self, add_zero]
      exact hm
    | stmt hc hr =>
      simp only
      rw [sum_counted_update, run_counted hr, hm]
      omega

/-- The four records of the registered events agree, and every registration was scheduled
as often as it should. -/
structure Conserved (m : IOManager F T) : Prop where
  pending : m.pendingEventCount = ∑ fd, ((m.fds fd).ctx.events.card : ℤ)
  set : ∀ fd e, e ∈ (m.fds fd).ctx.events ↔ ((m.fds fd).ctx.context e).Registered
  clear : ∀ fd e, e ∉ (m.fds fd).ctx.events ↔ (m.fds fd).ctx.context e = .empty
  mask : ∀ fd, (m.fds fd).mask = (m.fds fd).ctx.events
  known : ∀ fd, ∀ h ∈ (m.fds fd).scheduled,
    ∃ r, (m.fds fd).registrations[h.serial]? = some r ∧ r.task = h.task
  waiting : ∀ fd k r, (m.fds fd).registrations[k]? = some r → r.removed = none →
    (m.fds fd).schedules k = 0 ∧ ((m.fds fd).ctx.context r.event).held = some ⟨k,r.task⟩
  deleted : ∀ fd k r, (m.fds fd).registrations[k]? = some r → r.removed = some .delEvent →
    (m.fds fd).schedules k = 0
  triggered : ∀ fd k r by', (m.fds fd).registrations[k]? = some r → r.removed = some by' →
    by' ≠ .delEvent → (m.fds fd).schedules k = 1

/-- Whenever no descriptor mutex is held, event registrations are conserved. -/
theorem events_conserved {m : IOManager F T}
    (h : (machine F T).Reaches (LocalGuard OnScheduler fun _ _ _ => True) m)
    (hfree : ∀ fd, m.owner fd = none) : Conserved m := by
  have hq : ∀ fd, Quiet (m.fds fd) := fun fd =>
    (quietInvariant.holds_of_reaches h).free fd (hfree fd)
  refine ⟨?_,fun fd e => ⟨(hq fd).set e,fun hr => ?_⟩,fun fd e => ⟨(hq fd).clear e,fun hr hm => ?_⟩,
    fun fd => (hq fd).mask,fun fd => (hq fd).known,
    fun fd k r hr hn => ⟨?_,(hq fd).live k r hr hn⟩,fun fd k r hr hn => ?_,
    fun fd k r by' hr hn hb => ?_⟩
  · rw [pending_eq_sum h.reachable]
    exact Finset.sum_congr rfl fun fd _ => (hq fd).counted
  · by_contra hm
    rw [(hq fd).clear e hm] at hr
    exact EventContext.not_registered_empty hr
  · exact EventContext.not_registered_empty (hr ▸ (hq fd).set e hm)
  · rw [(hq fd).history k r hr, hn]
    rfl
  · rw [(hq fd).history k r hr, hn]
    rfl
  · rw [(hq fd).history k r hr, hn]
    cases by' <;> first | rfl | exact absurd rfl hb

end pending

/-- A read registration that the event loop has triggered. -/
theorem events_conserved_idle : ∃ m : IOManager (Fin 1) (Fin 2),
    (m.fds 0).registrations = [⟨.READ,.cb 0,some .idle⟩] ∧ Conserved m := by
  obtain ⟨m,hm,hr,ho⟩ := Transition.Machine.exists_reaches (M := machine (Fin 1) (Fin 2))
    (G := LocalGuard OnScheduler fun _ _ _ => True) rfl
    (addRun 0 .READ++[.epollWait 1 [(0,⟨true,false,false,false⟩)],.dispatch 1,.enter 1 true,
      .stmt 1,.stmt 1,.stmt 1,.stmt 1,.stmt 1,.unlock 1])
    (fun m => (m.fds 0).registrations = [⟨.READ,.cb 0,some .idle⟩] ∧ ∀ fd, m.owner fd = none)
    (by decide) (by decide)
  exact ⟨m,hr,events_conserved hm ho⟩

end CoroutineWebserve.IOManager
