import CoroutineWebserve.IOManager.Conservation

/-!
# What a call does to the registrations

A call keeps the registrations of a descriptor, except that it may add one at the end and that it
marks those that it removes.
-/
namespace CoroutineWebserve.IOManager

/-- A call from its beginning to its end, with the value that it returns. -/
def Slot.call (s : Slot) (c : Call) (ctl : Bool) : Option (Slot × Bool) :=
  (c.enter s ctl).bind fun r => (runAll r.2.1 r.1).map (·,r.2.2)

theorem Slot.call_eq_some {s s' : Slot} {c : Call} {ctl ok : Bool}
    (h : s.call c ctl = some (s',ok)) :
    ∃ t prog, c.enter s ctl = some (t,prog,ok) ∧ runAll prog t = some s' := by
  obtain ⟨⟨t,prog,ok⟩,henter,hrun⟩ := Option.bind_eq_some_iff.mp h
  obtain ⟨u,hu,heq⟩ := Option.map_eq_some_iff.mp hrun
  cases heq
  exact ⟨t,prog,henter,hu⟩

/-- The call removes a registration of the event. -/
def Call.Removes (events : Finset Event) (e : Event) : Call → Removal → Prop
  | .addEvent .., _ => False
  | .delEvent e', by' => e = e' ∧ by' = .delEvent
  | .cancelEvent e', by' => e = e' ∧ by' = .cancelEvent
  | .cancelAll, by' => by' = .cancelAll
  | .dispatch r, by' => e ∈ realEvents r events ∧ by' = .idle

/-- Registrations of these events may have been removed. -/
def Slot.Loses (P : Event → Prop) (by' : Removal) (s s' : Slot) : Prop :=
  ∀ (k : ℕ) (r : Registration), s.registrations[k]? = some r → s'.registrations[k]? = some r ∨
    r.removed = none ∧ P r.event ∧ s'.registrations[k]? = some { r with removed := some by' }

section Loses
variable {P : Event → Prop} {by' : Removal} {s t u : Slot} {e : Event}

theorem Slot.Loses.of_same (h : t.registrations = s.registrations) : s.Loses P by' t :=
  fun _ _ hr => .inl (h ▸ hr)

theorem Slot.Loses.trans (h : s.Loses P by' t) (h' : t.Loses P by' u) : s.Loses P by' u := by
  intro k r hr
  rcases h k r hr with ht | ⟨hnone,hP,ht⟩
  · exact h' k r ht
  · refine .inr ⟨hnone,hP,?_⟩
    rcases h' k _ ht with hu | ⟨hremoved,-⟩
    · exact hu
    · cases hremoved

theorem Consistent.loses_remove (hs : Consistent s) {h : Handle}
    (hh : (s.ctx.context e).held = some h) (he : P e) : s.Loses P by' (s.remove e by' h) := by
  intro k r hr
  have hget : (s.remove e by' h).registrations[k]? =
      some (if h.serial = k then { r with removed := some by' } else r) := by
    simp [Slot.remove, List.getElem?_modify, hr]
  rw [hget]
  by_cases hk : h.serial = k
  · have hreg := hs.holds e h hh
    rw [hk, hr] at hreg
    cases hreg
    rw [if_pos hk]
    exact .inr ⟨rfl,he,rfl⟩
  · rw [if_neg hk]
    exact .inl rfl

theorem Consistent.loses_trigger (hs : Consistent s) (hb : by' ≠ .delEvent) (he : P e)
    (h : runAll (triggerEvent e by'++[.decPending]) s = some t) : s.Loses P by' t := by
  obtain ⟨_,-,hh,rfl⟩ := hs.runAll_trigger_eq hb h
  exact hs.loses_remove hh he

theorem Consistent.loses_triggerIn (hs : Consistent s) (hb : by' ≠ .delEvent)
    {mask : Finset Event} (he : e ∈ mask → P e) (h : runAll (triggerIn mask by' e) s = some t) :
    s.Loses P by' t := by
  unfold triggerIn at h
  split at h
  · next hmem => exact hs.loses_trigger hb (he hmem) h
  · cases h
    exact .of_same rfl

theorem Consistent.loses_triggerIn_both (hs : Consistent s) (hb : by' ≠ .delEvent)
    {mask : Finset Event} (hP : ∀ e ∈ mask, P e)
    (h : runAll (triggerIn mask by' .READ++triggerIn mask by' .WRITE) s = some u) :
    s.Loses P by' u := by
  rw [runAll_append] at h
  obtain ⟨t,ht,h⟩ := Option.bind_eq_some_iff.mp h
  have hct := (hs.runAll_triggerIn hb ht).1
  exact (hs.loses_triggerIn hb (hP _) ht).trans (hct.loses_triggerIn hb (hP _) h)

end Loses

/-- `addEvent` registers the event under the next number, or does nothing. -/
theorem Slot.call_addEvent {s s' : Slot} {e : Event} {scheduler : Option ℕ} {task : Task}
    {ctl ok : Bool} (h : s.call (.addEvent e scheduler task) ctl = some (s',ok)) : ok = ctl ∧
      if ctl then s'.registrations = s.registrations++[⟨e,task,none⟩] else s' = s := by
  obtain ⟨t,prog,henter,hrun⟩ := Slot.call_eq_some h
  rw [Call.enter] at henter
  split at henter
  · cases henter
  cases ctl with
  | false =>
    cases henter
    cases hrun
    exact ⟨rfl,rfl⟩
  | true =>
    cases henter
    simp only [runAll, Stmt.run, Option.bind_some, Option.bind_eq_some_iff,
      Option.ite_none_left_eq_some, Option.some.injEq] at hrun
    obtain ⟨_,⟨-,rfl⟩,rfl⟩ := hrun
    exact ⟨rfl,rfl⟩

/-- Behind a call a registration is as it was, or removed by the call. -/
def Slot.Follows (s : Slot) (c : Call) (ctl : Bool) (s' : Slot) : Prop :=
  ∀ (k : ℕ) (r : Registration), s.registrations[k]? = some r → s'.registrations[k]? = some r ∨
    r.removed = none ∧ ctl = true ∧ ∃ by', c.Removes s.ctx.events r.event by' ∧
      s'.registrations[k]? = some { r with removed := some by' }

/-- What the statements behind a successful `epoll_ctl` remove, the call removes. -/
theorem Slot.Loses.follows {P : Event → Prop} {by' : Removal} {s t s' : Slot} {c : Call} {ctl : Bool}
    (h : t.Loses P by' s') (ht : t.registrations = s.registrations)
    (hP : ∀ e, P e → c.Removes s.ctx.events e by') (hctl : ctl = true) : s.Follows c ctl s' := by
  intro k r hr
  rcases h k r (ht ▸ hr) with hsame | ⟨hnone,hPr,hremoved⟩
  · exact .inl hsame
  · exact .inr ⟨hnone,hctl,by',hP _ hPr,hremoved⟩

theorem Quiet.call_follows {s s' : Slot} (hs : Quiet s) {c : Call} {ctl ok : Bool}
    (h : s.call c ctl = some (s',ok)) : s.Follows c ctl s' := by
  obtain ⟨t,prog,henter,hrun⟩ := Slot.call_eq_some h
  have same : runAll [] s = some s' → s.Follows c ctl s' := fun h _ _ hr =>
    .inl (Option.some.inj h ▸ hr)
  cases c with
  | addEvent e scheduler task =>
    have hadd := (Slot.call_addEvent h).2
    intro k r hr
    split_ifs at hadd
    · rw [hadd]
      exact .inl ((List.getElem?_append_left (List.getElem?_eq_some_iff.mp hr).1).trans hr)
    · exact .inl (hadd ▸ hr)
  | delEvent e =>
    rw [Call.enter] at henter
    split_ifs at henter with hcond
    · cases henter
      exact same hrun
    obtain ⟨hmem,hctl⟩ := not_or.mp hcond
    cases henter
    obtain ⟨h,hh,-⟩ := (hs.set e (not_not.mp hmem)).held
    have hu : s'.registrations = (s.remove e .delEvent h).registrations := by
      rw [epollCtl_modOrDel] at hrun
      simp only [runAll, Stmt.run, Slot.clearBit, Slot.setContext, Option.bind_some,
        Option.some.injEq, hh, Option.elim] at hrun
      rw [← hrun]
      rfl
    have hloses : s.Loses (· = e) .delEvent s' := fun k r hr => by
      rw [hu]
      exact hs.loses_remove (P := (· = e)) hh rfl k r hr
    exact hloses.follows rfl (fun _ he => ⟨he,rfl⟩) (by simpa using hctl)
  | cancelEvent e =>
    rw [Call.enter] at henter
    split_ifs at henter with hcond
    · cases henter
      exact same hrun
    cases henter
    rw [epollCtl_modOrDel] at hrun
    have hloses := (hs.toConsistent.with_mask (s.ctx.events.erase e)).loses_trigger (P := (· = e))
      (by decide) rfl hrun
    exact hloses.follows rfl (fun _ he => ⟨he,rfl⟩) (by simpa using (not_or.mp hcond).2)
  | cancelAll =>
    rw [Call.enter] at henter
    split_ifs at henter with hcond
    · cases henter
      exact same hrun
    cases henter
    rw [runAll_append] at hrun
    obtain ⟨v,hv,hrun⟩ := Option.bind_eq_some_iff.mp hrun
    obtain ⟨-,rfl⟩ : v.ctx.events = ∅ ∧ v = s' := by simpa [runAll, Stmt.run] using hrun
    have hloses := (hs.toConsistent.with_mask ∅).loses_triggerIn_both (P := fun _ => True)
      (by decide) (fun _ _ => trivial) hv
    exact hloses.follows rfl (fun _ _ => rfl) (by simpa using (not_or.mp hcond).2)
  | dispatch x =>
    rw [Call.enter] at henter
    dsimp only at henter
    split_ifs at henter with hcond
    · cases henter
      exact same hrun
    cases henter
    rw [epollCtl_modOrDel] at hrun
    have hloses := (hs.toConsistent.with_mask (s.ctx.events \ realEvents x s.ctx.events))
      |>.loses_triggerIn_both (by decide) (fun _ he => he) hrun
    exact hloses.follows rfl (fun _ he => ⟨he,rfl⟩) (by simpa using (not_or.mp hcond).2)

theorem Quiet.call {s s' : Slot} (hs : Quiet s) {c : Call} (hc : OnScheduler c) {ctl ok : Bool}
    (h : s.call c ctl = some (s',ok)) : Quiet s' := by
  obtain ⟨t,prog,henter,hrun⟩ := Slot.call_eq_some h
  exact hs.enter_settles hc henter s' hrun

end CoroutineWebserve.IOManager
