import CoroutineWebserve.Timer.Delivery
import Mathlib.Data.List.Sort

/-!
# What the set of timers holds

The set is ordered by fields of the timers in it, and these change. Between two operations its order
is that of the fields as they are, its elements are the timers whose callback is set, and so an
operation finds the timer that it looks for.
-/
namespace CoroutineWebserve.TimerManager
variable {F : Type*} {m m' : TimerManager F} {x y : ℕ} {timer : Timer F}

/-- In the order of the deadlines and, where these are equal, of the addresses. -/
def Precedes (m : TimerManager F) (x y : ℕ) : Prop :=
  ∃ timer ∈ m.heap[x]?, ∃ timer' ∈ m.heap[y]?,
    timer.next < timer'.next ∨ timer.next = timer'.next ∧ timer.addr < timer'.addr

/-- The searches of the operations on a timer whose callback is set: `cancel` has reset it before it
searches. None of the operations comes to the end of the set. -/
structure Finds (m : TimerManager F) (x : ℕ) (timer : Timer F) : Prop where
  cancel : OrderedSet.find (m.setTimer x { timer with cb := none }).Before x m.timers = some x
  again : OrderedSet.find m.Before x m.timers = some x
  cancels : ∃ m', m.cancel x = some (true,m')
  refreshes : ∀ now, ∃ m', m.refresh x now = some (true,m')
  resets : ∀ ms from_now now, ∃ m', m.reset x ms from_now now = some (true,m')

/-- The set in order, of the timers whose callback is set. -/
structure Represents (m : TimerManager F) : Prop where
  ordered : m.timers.Pairwise m.Precedes
  known : ∀ x ∈ m.timers, ∃ timer, m.heap[x]? = some timer
  contains : ∀ x timer, m.heap[x]? = some timer → (x ∈ m.timers ↔ timer.cb.isSome)
  finds : ∀ x timer, m.heap[x]? = some timer → timer.cb.isSome → m.Finds x timer

/-- `Timer::Comparator` compares the deadlines first. -/
theorem precedes_iff (hx : ∃ timer, m.heap[x]? = some timer)
    (hy : ∃ timer, m.heap[y]? = some timer) : m.Precedes x y ↔ m.Before x y := by
  obtain ⟨timer,hx⟩ := hx
  obtain ⟨timer',hy⟩ := hy
  simp only [Precedes, Before, hx, hy, Comparator, Option.mem_some_iff, exists_eq_left']
  grind

/-- A timer whose callback is set is found, and the comparison does not look at the callback. -/
theorem Inv.finds (h : Inv m []) (hx : m.heap[x]? = some timer) (hcb : timer.cb.isSome) :
    m.Finds x timer := by
  have hmem := h.mem_timers hx hcb
  refine ⟨?_,h.ordered.find hmem,?_,fun now => ?_,fun ms from_now now => ?_⟩
  · exact h.ordered.find_setTimer { timer with cb := none } hx rfl rfl hmem
  · rw [h.cancel_eq hx, hcb]
    exact ⟨_,rfl⟩
  · rw [h.refresh_eq hx, hcb]
    exact ⟨_,rfl⟩
  · rw [h.reset_eq hx]
    by_cases hsame : ms = timer.ms ∧ from_now = false
    · rw [if_pos hsame]
      exact ⟨_,rfl⟩
    · rw [if_neg hsame, hcb]
      exact ⟨_,rfl⟩

theorem represents_of_inv (h : Inv m []) : Represents m where
  ordered := by
    have hknown := h.ordered.lined.known
    refine h.ordered.sorted.imp_of_mem fun {x y} hx hy hxy => ?_
    exact (precedes_iff (hknown x (List.mem_append_left _ hx))
      (hknown y (List.mem_append_left _ hy))).mpr hxy
  known x hx := h.ordered.lined.known x (List.mem_append_left _ hx)
  contains _ _ := h.mem_iff
  finds _ _ := h.finds

/-- After any operations. -/
theorem represents (h : (machine F).Reachable m) : Represents m := by
  have hinv : Inv m [] := h.invariant (I := fun m => Inv m [])
    (fun _ ⟨now,hi⟩ => hi ▸ Inv.initial now) fun _ _ _ hm _ => hm.step
  exact represents_of_inv hinv

/-- A timer that is refreshed passes another one and is cancelled behind it. -/
theorem represents_three : ∃ m : TimerManager ℕ, m.timers = [1,2] ∧ Represents m := by
  obtain ⟨m,hm,htimers⟩ := Transition.Machine.exists_reaches (M := machine ℕ)
    (G := fun _ _ => True) ⟨0,rfl⟩ [.addTimer 10 7 false 0 64,.addTimer 10 8 true 0 32,
      .addTimer 12 9 false 0 96,.refresh 0 5,.listExpiredCb 11 0,.reset 1 0 true 11,.cancel 0]
    (fun m => m.timers = [1,2]) (Transition.Machine.guarded_true ..) (by decide)
  exact ⟨m,htimers,represents hm⟩

/-- The set says nothing that the timers do not say. -/
theorem Represents.timers_eq (h : Represents m) (h' : Represents m') (hheap : m'.heap = m.heap) :
    m'.timers = m.timers := by
  have hbefore : m'.Before = m.Before := by
    funext x y
    rw [Before, Before, hheap]
  have hsorted : ∀ {n : TimerManager F}, Represents n → n.timers.Pairwise n.Before :=
    fun hn => hn.ordered.imp_of_mem fun hx hy =>
      (precedes_iff (hn.known _ hx) (hn.known _ hy)).mp
  have hsorted' := hsorted h'
  rw [hbefore] at hsorted'
  apply hsorted'.eq_of_mem_iff (hsorted h)
  intro x
  constructor
  · intro hx
    obtain ⟨timer,ht⟩ := h'.known x hx
    have hcb := (h'.contains x timer ht).mp hx
    exact (h.contains x timer (hheap ▸ ht)).mpr hcb
  · intro hx
    obtain ⟨timer,ht⟩ := h.known x hx
    have hcb := (h.contains x timer ht).mp hx
    exact (h'.contains x timer (hheap ▸ ht)).mpr hcb

end CoroutineWebserve.TimerManager
