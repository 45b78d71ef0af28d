import CoroutineWebserve.Transition.Machine
import Mathlib.Data.Fintype.Basic
import Mathlib.Logic.Function.Basic

/-!
# `ConfigVar::setValue`

The value is compared and the listeners are called under the read lock, which any number of
threads may hold, and the value is assigned under the write lock. The listener in this model
keeps a copy of the value.
-/
namespace CoroutineWebserve.Config

/-- Where a thread is in `setValue(v)`: it holds the read lock, before or behind the calls of
the listeners, or it has released the lock and waits for the write lock. -/
inductive Phase (α : Type*)
  | idle
  | changed (v : α)
  | notified (v : α)
  | released (v : α)
deriving DecidableEq

/-- The value that the listeners know and that is not assigned yet. -/
def Phase.pending {α : Type*} : Phase α → Option α
  | .idle | .changed _ => none
  | .notified v | .released v => some v

/-- `ConfigVar` with its threads, and the listener: the value it was called with last and the
pairs it has seen. -/
structure ConfigVar (T α : Type*) where
  val : α
  readers : ℕ
  setting : T → Phase α
  recorded : α
  seen : List (α × α)

namespace ConfigVar
variable {T α : Type*}

def initial (v : α) : ConfigVar T α := ⟨v,0,fun _ => .idle,v,[]⟩

inductive Step (T α : Type*)
  /-- Take the read lock and compare; equal values end the call. -/
  | compare (t : T) (v : α)
  | notify (t : T)
  | unlock (t : T)
  | assign (t : T)

variable [DecidableEq T] [BEq α]

def step (s : ConfigVar T α) : Step T α → Option (ConfigVar T α)
  | .compare t v =>
    match s.setting t with
    | .idle =>
      if v == s.val then some s
      else some { s with
        readers := s.readers+1
        setting := Function.update s.setting t (.changed v) }
    | _ => none
  | .notify t =>
    match s.setting t with
    | .changed v => some { s with
        setting := Function.update s.setting t (.notified v)
        recorded := v
        seen := s.seen++[(s.val,v)] }
    | _ => none
  | .unlock t =>
    match s.setting t with
    | .notified v => some { s with
        readers := s.readers-1
        setting := Function.update s.setting t (.released v) }
    | _ => none
  | .assign t =>
    match s.setting t with
    | .released v =>
      if s.readers = 0 then some { s with
        val := v
        setting := Function.update s.setting t .idle }
      else none
    | _ => none

def machine (T : Type*) [DecidableEq T] (v : α) : Transition.Machine (ConfigVar T α) (Step T α) where
  init s := s = initial v
  step := step

/-- When a thread calls the listeners, no other one has called them and still has to assign. -/
def Alone (s : ConfigVar T α) : Step T α → Prop
  | .notify _ => ∀ u, (s.setting u).pending = none
  | _ => True

instance [Fintype T] [DecidableEq α] (s : ConfigVar T α) : DecidablePred (Alone s)
  | .notify _ => inferInstanceAs (Decidable (∀ _ : T, _))
  | .compare .. | .unlock _ | .assign _ => isTrue trivial

omit [DecidableEq T] [BEq α]

/-- Each old value is the new value of the pair before, and the first one is `v`. -/
def Chained : α → List (α × α) → Prop
  | _, [] => True
  | v, (old,new) :: pairs => old = v ∧ Chained new pairs

/-- The value behind the last pair. -/
def lastNew (v : α) (pairs : List (α × α)) : α := pairs.foldl (fun _ p => p.2) v

theorem chained_append {v : α} {pairs : List (α × α)} (h : Chained v pairs) {old new : α}
    (hold : old = lastNew v pairs) : Chained v (pairs++[(old,new)]) := by
  induction pairs generalizing v with
  | nil => exact ⟨hold,trivial⟩
  | cons p pairs ih => exact ⟨h.1,ih h.2 hold⟩

/-- The listener is at most one assignment ahead of the value. -/
structure Agrees (v : α) (s : ConfigVar T α) : Prop where
  chained : Chained v s.seen
  last : lastNew v s.seen = s.recorded
  settled : (∀ t, (s.setting t).pending = none) → s.recorded = s.val
  ahead : ∀ t w, (s.setting t).pending = some w → w = s.recorded
  alone : ∀ t u, (s.setting t).pending ≠ none → (s.setting u).pending ≠ none → t = u

namespace Agrees
variable {v : α} {s s' : ConfigVar T α}

theorem initial (v : α) : Agrees v (ConfigVar.initial v : ConfigVar T α) where
  chained := trivial
  last := rfl
  settled _ := rfl
  ahead _ _ h := nomatch h
  alone _ _ h := absurd rfl h

variable [DecidableEq T]

/-- Only the phase of a thread changes, and not what it has pending. -/
theorem setPhase (h : Agrees v s) (t : T) {phase : Phase α}
    (hphase : phase.pending = (s.setting t).pending) (readers : ℕ) :
    Agrees v { s with readers, setting := Function.update s.setting t phase } := by
  have hsame : ∀ u, (Function.update s.setting t phase u).pending = (s.setting u).pending := by
    intro u
    by_cases hu : u = t
    · rw [hu, Function.update_self, hphase]
    · rw [Function.update_of_ne hu]
  refine ⟨h.chained,h.last,?_,?_,?_⟩
  · simpa only [hsame] using h.settled
  · simpa only [hsame] using h.ahead
  · simpa only [hsame] using h.alone

variable [BEq α]

theorem step (h : Agrees v s) {i : Step T α} (hg : Alone s i) (hs : s.step i = some s') :
    Agrees v s' := by
  cases i with
  | compare t w =>
    simp only [ConfigVar.step] at hs
    split at hs
    · next hidle =>
      split at hs
      · cases hs
        exact h
      · cases hs
        exact h.setPhase t (by rw [hidle]; rfl) _
    · cases hs
  | notify t =>
    simp only [ConfigVar.step] at hs
    split at hs
    · next w hchanged =>
      cases hs
      have hval : s.recorded = s.val := h.settled hg
      have hothers : ∀ u, u ≠ t →
          (Function.update s.setting t (.notified w) u).pending = none := by
        intro u hu
        rw [Function.update_of_ne hu, hg u]
      have hself : (Function.update s.setting t (.notified w) t).pending = some w := by
        rw [Function.update_self]
        rfl
      refine ⟨chained_append h.chained (by rw [h.last, hval]),by simp [lastNew],?_,?_,?_⟩
      · exact fun hnone => nomatch hself.symm.trans (hnone t)
      · intro u x hx
        by_cases hu : u = t
        · subst hu
          exact Option.some.inj (hx.symm.trans hself)
        · exact nomatch (hothers u hu).symm.trans hx
      · intro a b ha hb
        rw [not_imp_comm.mp (hothers a) ha, not_imp_comm.mp (hothers b) hb]
    · cases hs
  | unlock t =>
    simp only [ConfigVar.step] at hs
    split at hs
    · next w hnotified =>
      cases hs
      exact h.setPhase t (by rw [hnotified]; rfl) _
    · cases hs
  | assign t =>
    simp only [ConfigVar.step] at hs
    split at hs
    · next w hreleased =>
      split at hs
      · cases hs
        have hpending : (s.setting t).pending = some w := by rw [hreleased]; rfl
        have hnone : ∀ u, (Function.update s.setting t .idle u).pending = none := by
          intro u
          by_cases hu : u = t
          · rw [hu, Function.update_self]
            rfl
          · rw [Function.update_of_ne hu]
            by_contra hne
            exact hu (h.alone u t hne (by rw [hpending]; nofun))
        refine ⟨h.chained,h.last,fun _ => (h.ahead t w hpending).symm,?_,?_⟩
        · intro u x hx
          exact nomatch (hnone u).symm.trans hx
        · exact fun a b ha => absurd (hnone a) ha
      · cases hs
    · cases hs

end Agrees

variable [DecidableEq T] [BEq α] {s : ConfigVar T α}

/-- When no two calls of `setValue` are between listeners and assignment at once, the listener
sees a chain of changes, and its copy is the value whenever no call is in progress. -/
theorem listeners_agree {v : α} (h : (machine T v).Reaches Alone s) :
    Chained v s.seen ∧ ((∀ t, s.setting t = .idle) → s.recorded = s.val) := by
  have hagrees : Agrees v s :=
    h.invariant (fun _ hi => hi ▸ Agrees.initial v) fun _ _ _ hs hg => hs.step hg
  refine ⟨hagrees.chained,fun hidle => hagrees.settled fun t => ?_⟩
  rw [hidle t]
  rfl

/-- Two calls, one after the other. -/
theorem listeners_agree_two : ∃ s : ConfigVar (Fin 2) ℕ, s.seen = [(0,1),(1,2)] ∧
    Chained 0 s.seen ∧ ((∀ t, s.setting t = .idle) → s.recorded = s.val) := by
  obtain ⟨s,hs,hseen⟩ := Transition.Machine.exists_reaches (M := machine (Fin 2) 0) (G := Alone)
    rfl [.compare 0 1,.notify 0,.unlock 0,.assign 0,.compare 1 2,.notify 1,.unlock 1,.assign 1]
    (fun s => s.seen = [(0,1),(1,2)]) (by decide +kernel) (by decide)
  exact ⟨s,hseen,listeners_agree hs⟩

/-- Two calls at once: the listener hears of 1 and 2, and they are assigned in the other order. -/
theorem listeners_disagree : ¬∀ s : ConfigVar (Fin 2) ℕ, (machine (Fin 2) 0).Reachable s →
    ((∀ t, s.setting t = .idle) → s.recorded = s.val) ∧ Chained 0 s.seen := by
  intro h
  obtain ⟨s,hs,hidle,hrecorded⟩ := Transition.Machine.exists_reaches (M := machine (Fin 2) 0)
    (G := fun _ _ => True) rfl
    [.compare 0 1,.compare 1 2,.notify 0,.notify 1,.unlock 0,.unlock 1,.assign 1,.assign 0]
    (fun s => (∀ t, s.setting t = .idle) ∧ s.recorded ≠ s.val)
    (Transition.Machine.guarded_true ..) (by decide +kernel)
  exact hrecorded ((h s hs).1 hidle)

end ConfigVar
end CoroutineWebserve.Config
