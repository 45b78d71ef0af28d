import CoroutineWebserve.IOManager.Locked

/-!
# The assertion of `triggerEvent`

A triggered event has to be registered. The operations test the bit under the mutex they
trigger it under. The event loop triggers what `epoll_wait` reported before, so its bits are
registered only when the reported mask is not stale.
-/
namespace CoroutineWebserve.IOManager
variable {F T : Type*} [DecidableEq F] [DecidableEq T]

theorem runAll_append (prog rest : List Stmt) (s : Slot) :
    runAll (prog++rest) s = (runAll prog s).bind (runAll rest) := by
  induction prog generalizing s with
  | nil => rfl
  | cons p prog ih =>
    simp only [List.cons_append, runAll, Option.bind_assoc]
    congr 1
    funext t
    exact ih t

/-- `triggerEvent` takes its event out of the registered ones. -/
theorem runAll_trigger_events {e : Event} {by' : Removal} {s s' : Slot}
    (h : runAll (triggerEvent e by'++[.decPending]) s = some s') :
    s'.ctx.events = s.ctx.events.erase e := by
  simp only [triggerEvent, runAll, Stmt.run, List.cons_append, List.nil_append,
    Option.bind_eq_some_iff, Option.ite_none_right_eq_some, Option.ite_none_left_eq_some,
    Option.some.injEq] at h
  obtain ⟨_,⟨-,rfl⟩,_,rfl,_,⟨-,rfl⟩,_,rfl,_,rfl,rfl⟩ := h
  rfl

theorem runAll_triggerIn_events {mask : Finset Event} {e : Event} {by' : Removal} {s s' : Slot}
    (h : runAll (triggerIn mask by' e) s = some s') :
    s'.ctx.events = if e ∈ mask then s.ctx.events.erase e else s.ctx.events := by
  unfold triggerIn at h
  split
  · next he => exact runAll_trigger_events (by simpa [he] using h)
  · next he =>
    obtain rfl : s = s' := by simpa [he, runAll] using h
    rfl

/-- Along the statements, every assertion of a bit is made with the bit set. -/
def Armed : List Stmt → Slot → Prop
  | [], _ => True
  | p :: prog, s => (∀ e, p = .assertBit e → e ∈ s.ctx.events) ∧ ∀ t ∈ p.run s, Armed prog t

theorem Armed.append {prog rest : List Stmt} {s : Slot} (h : Armed prog s)
    (hr : ∀ t, runAll prog s = some t → Armed rest t) : Armed (prog++rest) s := by
  induction prog generalizing s with
  | nil => exact hr s rfl
  | cons p prog ih =>
    refine ⟨h.1,fun t ht => ih (h.2 t ht) fun u hu => hr u ?_⟩
    rw [runAll, Option.mem_def.mp ht]
    exact hu

/-- Statements that assert no bit are armed from any slot. -/
theorem armed_of_forall {prog : List Stmt} (h : ∀ p ∈ prog, ∀ e, p ≠ .assertBit e) (s : Slot) :
    Armed prog s := by
  induction prog generalizing s with
  | nil => trivial
  | cons p prog ih =>
    exact ⟨fun e he => absurd he (h p (by simp) e),
      fun t _ => ih (fun q hq => h q (by simp [hq])) t⟩

theorem armed_trigger {e : Event} (by' : Removal) {s : Slot} (he : e ∈ s.ctx.events) :
    Armed (triggerEvent e by'++[.decPending]) s := by
  refine ⟨fun f hf => ?_,fun t _ => armed_of_forall (by simp) t⟩
  cases hf
  exact he

theorem armed_triggerIn {mask : Finset Event} {e : Event} (by' : Removal) {s : Slot}
    (he : e ∈ mask → e ∈ s.ctx.events) : Armed (triggerIn mask by' e) s := by
  unfold triggerIn
  split
  · next hm => exact armed_trigger by' (he hm)
  · trivial

/-- Triggering the events of a registered mask one after the other. -/
theorem armed_triggerIn_both {mask : Finset Event} (by' : Removal) {s : Slot}
    (hm : mask ⊆ s.ctx.events) :
    Armed (triggerIn mask by' .READ++triggerIn mask by' .WRITE) s := by
  refine (armed_triggerIn by' fun h => hm h).append fun t ht => armed_triggerIn by' fun h => ?_
  -- the first trigger leaves the other bit alone
  rw [runAll_triggerIn_events ht]
  split
  · exact Finset.mem_erase.mpr ⟨by decide,hm h⟩
  · exact hm h

/-- The mask of a dispatched entry is not stale: the reported bits are all registered, or
nothing the entry stands for is. An `epoll_ctl` that fails triggers nothing. -/
def FreshDispatch (s : Slot) : Call → Bool → Prop
  | .dispatch r, true => r.plain ⊆ s.ctx.events ∨ s.ctx.events ∩ realEvents r s.ctx.events = ∅
  | _, _ => True

instance FreshDispatch.decidable (s : Slot) : ∀ c ctl, Decidable (FreshDispatch s c ctl)
  | .dispatch _, true => inferInstanceAs (Decidable (_ ∨ _))
  | .dispatch _, false | .addEvent .., _ | .delEvent _, _ | .cancelEvent _, _
  | .cancelAll, _ => isTrue trivial

theorem realEvents_subset {r : Revents} {events : Finset Event} (h : r.plain ⊆ events) :
    realEvents r events ⊆ events := by
  unfold realEvents
  split
  · exact Finset.union_subset h le_rfl
  · exact h

theorem enter_armed {c : Call} {s s' : Slot} {ctl result : Bool} {prog : List Stmt}
    (hf : FreshDispatch s c ctl) (he : c.enter s ctl = some (s',prog,result)) :
    Armed prog s' := by
  cases c with
  | addEvent e scheduler task =>
    refine armed_of_forall ?_ _
    simp only [Call.enter] at he
    split at he
    · cases he
    · split at he <;> cases he <;> simp
  | delEvent e =>
    refine armed_of_forall ?_ _
    simp only [Call.enter] at he
    split at he <;> cases he <;> simp
  | cancelEvent e =>
    simp only [Call.enter] at he
    split at he
    · cases he; trivial
    · next hg =>
      cases he
      exact armed_trigger _ (not_not.mp (not_or.mp hg).1)
  | cancelAll =>
    simp only [Call.enter] at he
    split at he
    · cases he; trivial
    · cases he
      have hboth : Armed (triggerIn s.ctx.events .cancelAll .READ++
          triggerIn s.ctx.events .cancelAll .WRITE) (epollCtl .EPOLL_CTL_DEL ∅ s) :=
        armed_triggerIn_both .cancelAll (show s.ctx.events ⊆ s.ctx.events from le_rfl)
      exact hboth.append fun t _ => armed_of_forall (by simp) t
  | dispatch r =>
    simp only [Call.enter] at he
    split at he
    · cases he; trivial
    · next hg =>
      cases he
      obtain ⟨hne,hctl⟩ := not_or.mp hg
      obtain rfl : ctl = true := by simpa using hctl
      exact armed_triggerIn_both .idle (realEvents_subset (hf.resolve_right hne))

/-- Inside every critical section the statements left are armed. -/
def armedInvariant : LocalInvariant (fun _ => True) FreshDispatch where
  Free _ := True
  Held
    | .entered _, _ => True
    | .body prog, s => Armed prog s
  empty := trivial
  call _ _ := trivial
  dispatch _ := trivial
  enter _ hf he := enter_armed hf he
  stmt h hr := h.2 _ hr
  unlock _ := trivial

/-- While every dispatched mask is fresh, `triggerEvent` is called with its bit set. -/
theorem triggerEvent_registered {m : IOManager F T}
    (h : (machine F T).Reaches (LocalGuard (fun _ => True) FreshDispatch) m) {t : T} {fd : F}
    {e : Event} {rest : List Stmt}
    (hc : (m.threads t).critical = some (fd,.body (.assertBit e :: rest))) :
    e ∈ (m.fds fd).ctx.events :=
  ((armedInvariant.holds_of_reaches h).held t fd _ hc).1 e rfl

/-- A thread that adds an event. -/
def addRun (t : Fin 2) (e : Event) : List (Step (Fin 1) (Fin 2)) :=
  [.call t 0 (.addEvent e (some 0) (.cb 0)),.enter t true,.stmt t,.stmt t,.stmt t,.unlock t]

theorem triggerEvent_registered_read : ∃ m : IOManager (Fin 1) (Fin 2),
    (m.threads 1).critical = some (0,.body (triggerEvent .READ .idle++[.decPending])) ∧
      .READ ∈ (m.fds 0).ctx.events := by
  obtain ⟨m,hm,hc⟩ := Transition.Machine.exists_reaches (M := machine (Fin 1) (Fin 2))
    (G := LocalGuard (fun _ => True) FreshDispatch) rfl
    (addRun 0 .READ++[.epollWait 1 [(0,⟨true,false,false,false⟩)],.dispatch 1,.enter 1 true])
    (fun m => (m.threads 1).critical = some (0,.body (triggerEvent .READ .idle++[.decPending])))
    (by decide) (by decide)
  exact ⟨m,hc,triggerEvent_registered hm hc⟩

/-- Both directions of a descriptor are reported, the write registration is cancelled, and
then the report is dispatched: `triggerEvent(WRITE)` is called with the bit clear. -/
theorem triggerEvent_stale : ¬∀ m : IOManager (Fin 1) (Fin 2),
    (machine (Fin 1) (Fin 2)).Reachable m → ∀ t fd e rest,
      (m.threads t).critical = some (fd,.body (.assertBit e :: rest)) →
        e ∈ (m.fds fd).ctx.events := by
  intro h
  obtain ⟨m,hm,hc,he⟩ := Transition.Machine.exists_reaches (M := machine (Fin 1) (Fin 2)) rfl
    (addRun 0 .READ++addRun 0 .WRITE++[.epollWait 1 [(0,⟨true,true,false,false⟩)],
      .call 0 0 (.cancelEvent .WRITE),.enter 0 true,.stmt 0,.stmt 0,.stmt 0,.stmt 0,.stmt 0,
      .unlock 0,.dispatch 1,.enter 1 true,.stmt 1,.stmt 1,.stmt 1,.stmt 1,.stmt 1])
    (fun m => (m.threads 1).critical = some (0,.body (triggerEvent .WRITE .idle++[.decPending])) ∧
      .WRITE ∉ (m.fds 0).ctx.events)
    (Transition.Machine.guarded_true ..) (by decide)
  exact he (h m hm 1 0 .WRITE _ hc)

end CoroutineWebserve.IOManager
