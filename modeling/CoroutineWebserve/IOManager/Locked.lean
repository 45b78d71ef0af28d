import CoroutineWebserve.IOManager.Events

/-!
# Invariants behind the descriptor mutexes

Only the thread that holds the mutex of a descriptor changes the descriptor's slot. A local
invariant says what a slot satisfies while its mutex is free and at each place of the
critical section; it then holds of every slot in every run.
-/
namespace CoroutineWebserve.IOManager
variable {F T : Type*} [DecidableEq F] [DecidableEq T]

/-- What one step does, the guards of `step` included. -/
inductive Moves (m : IOManager F T) : Step F T → IOManager F T → Prop
  | failed {i} : Moves m i { m with failed := true }
  | call {t fd c} (hc : (m.threads t).critical = none) (ho : m.owner fd = none) :
      Moves m (.call t fd c)
        { m.setThread t { m.threads t with critical := some (fd,.entered c), batch := [] } with
          owner := Function.update m.owner fd (some t) }
  | epollWait {t batch} (hc : (m.threads t).critical = none) :
      Moves m (.epollWait t batch) (m.setThread t { m.threads t with batch })
  | dispatch {t fd r rest} (hc : (m.threads t).critical = none) (ho : m.owner fd = none) :
      Moves m (.dispatch t)
        { m.setThread t
            { m.threads t with critical := some (fd,.entered (.dispatch r)), batch := rest } with
          owner := Function.update m.owner fd (some t) }
  | enter {t ctl fd c s prog result} (hc : (m.threads t).critical = some (fd,.entered c))
      (he : c.enter (m.fds fd) ctl = some (s,prog,result)) :
      Moves m (.enter t ctl)
        { m.setThread t { m.threads t with critical := some (fd,.body prog), result } with
          fds := Function.update m.fds fd s }
  | stmt {t fd p prog s} (hc : (m.threads t).critical = some (fd,.body (p :: prog)))
      (hr : p.run (m.fds fd) = some s) :
      Moves m (.stmt t)
        { m.setThread t { m.threads t with critical := some (fd,.body prog) } with
          fds := Function.update m.fds fd s
          pendingEventCount := m.pendingEventCount+p.pending }
  | unlock {t fd} (hc : (m.threads t).critical = some (fd,.body [])) :
      Moves m (.unlock t)
        { m.setThread t { m.threads t with critical := none } with
          owner := Function.update m.owner fd none }

theorem lock_eq_some {m m' : IOManager F T} {t : T} {fd : F} {c : Call}
    {batch : List (F × Revents)} (h : m.lock t fd c batch = some m') :
    m.owner fd = none ∧
      m' = { m.setThread t { m.threads t with critical := some (fd,.entered c), batch } with
        owner := Function.update m.owner fd (some t) } := by
  unfold lock at h
  split at h
  · next ho => exact ⟨ho,(Option.some.inj h).symm⟩
  · cases h

theorem step_moves {m m' : IOManager F T} {i : Step F T} (h : step m i = some m') :
    Moves m i m' := by
  unfold step at h
  split at h
  · cases h
  cases i with
  | call t fd c =>
    have hcall : ((m.threads t).critical = none ∧ (m.threads t).batch = []) ∧
        m.lock t fd c [] = some m' := by
      cases c <;> simp_all
    obtain ⟨ho,rfl⟩ := lock_eq_some hcall.2
    exact .call hcall.1.1 ho
  | epollWait t batch =>
    simp only at h
    split at h
    · next hg => cases h; exact .epollWait hg.1
    · cases h
  | dispatch t =>
    simp only at h
    split at h
    · next hc =>
      split at h
      · cases h
      · next hb =>
        obtain ⟨ho,rfl⟩ := lock_eq_some h
        exact .dispatch hc ho
    · cases h
  | enter t ctl =>
    simp only at h
    split at h
    · next hc =>
      split at h
      · cases h; exact .failed
      · next he => cases h; exact .enter hc he
    · cases h
  | stmt t =>
    simp only at h
    split at h
    · next hc =>
      split at h
      · cases h; exact .failed
      · next hr => cases h; exact .stmt hc hr
    · cases h
  | unlock t =>
    simp only at h
    split at h
    · next hc => cases h; exact .unlock hc
    · cases h

/-! ### Local invariants -/

def EnterGuard (okEnter : Slot → Call → Bool → Prop) (fds : F → Slot) (ctl : Bool) :
    Option (F × Critical) → Prop
  | some (fd,.entered c) => okEnter (fds fd) c ctl
  | _ => True

/-- A guard on the calls threads make and on the entry into a critical section. -/
def LocalGuard (okCall : Call → Prop) (okEnter : Slot → Call → Bool → Prop)
    (m : IOManager F T) : Step F T → Prop
  | .call _ _ c => okCall c
  | .enter t ctl => EnterGuard okEnter m.fds ctl (m.threads t).critical
  | _ => True

instance EnterGuard.decidable (okEnter : Slot → Call → Bool → Prop)
    [h : ∀ s c ctl, Decidable (okEnter s c ctl)] (fds : F → Slot) (ctl : Bool) :
    ∀ o, Decidable (EnterGuard okEnter fds ctl o)
  | some (fd,.entered c) => h (fds fd) c ctl
  | some (_,.body _) | none => isTrue trivial

instance LocalGuard.decidable (okCall : Call → Prop) (okEnter : Slot → Call → Bool → Prop)
    [h : DecidablePred okCall] [∀ s c ctl, Decidable (okEnter s c ctl)] (m : IOManager F T) :
    ∀ i, Decidable (LocalGuard okCall okEnter m i)
  | .call _ _ c => h c
  | .enter _ ctl => inferInstanceAs (Decidable (EnterGuard okEnter m.fds ctl _))
  | .epollWait .. | .dispatch _ | .stmt _ | .unlock _ => isTrue trivial

/-- What a slot satisfies while its mutex is free and while it is held. -/
structure LocalInvariant (okCall : Call → Prop) (okEnter : Slot → Call → Bool → Prop) where
  Free : Slot → Prop
  Held : Critical → Slot → Prop
  empty : Free .empty
  call {c s} : okCall c → Free s → Held (.entered c) s
  dispatch {r s} : Free s → Held (.entered (.dispatch r)) s
  enter {c s ctl s' prog result} : Held (.entered c) s → okEnter s c ctl →
    c.enter s ctl = some (s',prog,result) → Held (.body prog) s'
  stmt {p prog s s'} : Held (.body (p :: prog)) s → p.run s = some s' → Held (.body prog) s'
  unlock {s} : Held (.body []) s → Free s

namespace LocalInvariant
variable {okCall : Call → Prop} {okEnter : Slot → Call → Bool → Prop}
  (L : LocalInvariant okCall okEnter)

/-- Mutexes and critical sections match, and every slot is as the invariant says. -/
structure Holds (m : IOManager F T) : Prop where
  free : ∀ fd, m.owner fd = none → L.Free (m.fds fd)
  held : ∀ t fd c, (m.threads t).critical = some (fd,c) → L.Held c (m.fds fd)
  owned : ∀ t fd c, (m.threads t).critical = some (fd,c) → m.owner fd = some t

variable {L} {m : IOManager F T}

omit [DecidableEq F] [DecidableEq T] in
theorem Holds.initial : L.Holds (initial : IOManager F T) where
  free _ _ := L.empty
  held _ _ _ h := by cases h
  owned _ _ _ h := by cases h

/-- A thread that enters a critical section takes over a free slot. -/
theorem Holds.lock (h : L.Holds m) {t : T} {fd : F} (hc : (m.threads t).critical = none)
    (ho : m.owner fd = none) {c : Call} (hl : L.Held (.entered c) (m.fds fd))
    (batch : List (F × Revents)) :
    L.Holds { m.setThread t { m.threads t with critical := some (fd,.entered c), batch } with
      owner := Function.update m.owner fd (some t) } where
  free g hg := by
    by_cases he : g = fd
    · subst he; simp at hg
    · exact h.free g (by simpa [he] using hg)
  held u g d hu := by
    by_cases he : u = t
    · subst he
      obtain ⟨rfl,rfl⟩ : fd = g ∧ Critical.entered c = d := by simpa [setThread] using hu
      exact hl
    · exact h.held u g d (by simpa [setThread, he] using hu)
  owned u g d hu := by
    by_cases he : u = t
    · subst he
      obtain ⟨rfl,rfl⟩ : fd = g ∧ Critical.entered c = d := by simpa [setThread] using hu
      simp
    · have hown := h.owned u g d (by simpa [setThread, he] using hu)
      have hne : g ≠ fd := by
        rintro rfl
        exact Option.some_ne_none u (hown.symm.trans ho)
      simpa [hne] using hown

/-- A thread inside its critical section moves on and changes its own slot only. -/
theorem Holds.inside (h : L.Holds m) {t : T} {fd : F} {c d : Critical}
    (hc : (m.threads t).critical = some (fd,c)) {s : Slot} (hl : L.Held d s) (pending : ℤ)
    (result : Bool) :
    L.Holds { m.setThread t { m.threads t with critical := some (fd,d), result } with
      fds := Function.update m.fds fd s
      pendingEventCount := pending } where
  free g hg := by
    have hne : g ≠ fd := by
      rintro rfl
      exact Option.some_ne_none t ((h.owned t g c hc).symm.trans hg)
    simpa [hne] using h.free g hg
  held u g e hu := by
    by_cases he : u = t
    · subst he
      obtain ⟨rfl,rfl⟩ : fd = g ∧ d = e := by simpa [setThread] using hu
      simpa using hl
    · have hcu : (m.threads u).critical = some (g,e) := by simpa [setThread, he] using hu
      have hne : g ≠ fd := by
        rintro rfl
        exact he (Option.some.inj ((h.owned u g e hcu).symm.trans (h.owned t g c hc)))
      simpa [hne] using h.held u g e hcu
  owned u g e hu := by
    by_cases he : u = t
    · subst he
      obtain ⟨rfl,rfl⟩ : fd = g ∧ d = e := by simpa [setThread] using hu
      exact h.owned u _ _ hc
    · exact h.owned u g e (by simpa [setThread, he] using hu)

theorem Holds.unlock (h : L.Holds m) {t : T} {fd : F} {c : Critical}
    (hc : (m.threads t).critical = some (fd,c)) (hf : L.Free (m.fds fd)) :
    L.Holds { m.setThread t { m.threads t with critical := none } with
      owner := Function.update m.owner fd none } where
  free g hg := by
    by_cases he : g = fd
    · subst he; exact hf
    · exact h.free g (by simpa [he] using hg)
  held u g d hu := by
    by_cases he : u = t
    · subst he; simp [setThread] at hu
    · exact h.held u g d (by simpa [setThread, he] using hu)
  owned u g d hu := by
    by_cases he : u = t
    · subst he; simp [setThread] at hu
    · have hcu : (m.threads u).critical = some (g,d) := by simpa [setThread, he] using hu
      have hne : g ≠ fd := by
        rintro rfl
        exact he (Option.some.inj ((h.owned u g d hcu).symm.trans (h.owned t g c hc)))
      simpa [hne] using h.owned u g d hcu

theorem Holds.step (h : L.Holds m) {i : Step F T} {m' : IOManager F T}
    (hg : LocalGuard okCall okEnter m i) (hm : Moves m i m') : L.Holds m' := by
  cases hm with
  | failed => exact ⟨h.free,h.held,h.owned⟩
  | call hc ho => exact h.lock hc ho (L.call hg (h.free _ ho)) []
  | @epollWait t batch hc =>
    have same : ∀ u, ((m.setThread t { m.threads t with batch }).threads u).critical =
        (m.threads u).critical := by
      intro u
      by_cases he : u = t
      · subst he; simp [setThread]
      · simp [setThread, he]
    exact ⟨h.free,fun u g d hu => h.held u g d (same u ▸ hu),
      fun u g d hu => h.owned u g d (same u ▸ hu)⟩
  | dispatch hc ho => exact h.lock hc ho (L.dispatch (h.free _ ho)) _
  | enter hc he =>
    rw [LocalGuard, hc] at hg
    exact h.inside hc (L.enter (h.held _ _ _ hc) hg he) _ _
  | stmt hc hr => exact h.inside hc (L.stmt (h.held _ _ _ hc) hr) _ _
  | unlock hc => exact h.unlock hc (L.unlock (h.held _ _ _ hc))

/-- A local invariant holds in every state that the guarded runs reach. -/
theorem holds_of_reaches {m : IOManager F T}
    (h : (machine F T).Reaches (LocalGuard okCall okEnter) m) : L.Holds m :=
  h.invariant (fun _ hi => hi ▸ .initial) fun _ _ _ hm hg hs => hm.step hg (step_moves hs)

end LocalInvariant
end CoroutineWebserve.IOManager
