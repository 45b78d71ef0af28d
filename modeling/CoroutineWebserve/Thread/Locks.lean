import CoroutineWebserve.Transition.Machine
import CoroutineWebserve.Transition.Places

/-!
# Locks and the guards over them

A guard remembers in `m_locked` whether it has the lock. A call of a guard takes more than one step,
and guards of other threads move in between.
-/
namespace CoroutineWebserve.Locks
open Transition

inductive Mode
  | read
  | write
deriving DecidableEq, Repr

/-- A lock, with the readers and the writer that have it. `acquire` waits where it is `none`;
`release` is undefined there. -/
structure RawLock where
  State : Type
  free : State
  acquire : Mode → State → Option State
  release : State → Option State
  readers : State → ℕ
  writer : State → Bool
  free_readers : readers free = 0
  free_writer : writer free = false
  acquire_read : ∀ {s s'}, acquire .read s = some s' →
    writer s = false ∧ writer s' = false ∧ readers s' = readers s+1
  acquire_write : ∀ {s s'}, acquire .write s = some s' →
    writer s = false ∧ readers s = 0 ∧ writer s' = true ∧ readers s' = 0
  release_read : ∀ {s}, writer s = false → 0 < readers s →
    ∃ s', release s = some s' ∧ writer s' = false ∧ readers s' = readers s-1
  release_write : ∀ {s}, writer s = true →
    ∃ s', release s = some s' ∧ writer s' = false ∧ readers s' = readers s

/-- A lock that is taken or not, with what `unlock` does when it is not. -/
def flagLock (unlock : Bool → Option Bool) (h : unlock true = some false) : RawLock where
  State := Bool
  free := false
  acquire
    | .write, s => if s then none else some true
    | .read, _ => none
  release := unlock
  readers _ := 0
  writer s := s
  free_readers := rfl
  free_writer := rfl
  acquire_read h := nomatch h
  acquire_write := by
    rintro s s' h
    cases s <;> cases h
    exact ⟨rfl,rfl,rfl,rfl⟩
  release_read _ h := absurd h (lt_irrefl 0)
  release_write := by
    rintro s rfl
    exact ⟨false,h,rfl,rfl⟩

/-- `Mutex`, over `pthread_mutex_t`. -/
def Mutex : RawLock := flagLock (fun s => if s then some false else none) rfl

/-- `Spinlock`, over `pthread_spinlock_t`. -/
def Spinlock : RawLock := flagLock (fun s => if s then some false else none) rfl

/-- `CASLock`: `unlock` clears the flag. -/
def CASLock : RawLock := flagLock (fun _ => some false) rfl

/-- `RWMutex`, over `pthread_rwlock_t`. -/
def RWMutex : RawLock where
  State := ℕ × Bool
  free := (0,false)
  acquire
    | .read, s => if s.2 then none else some (s.1+1,false)
    | .write, s => if s.2 ∨ 0 < s.1 then none else some (0,true)
  release s := if s.2 then some (s.1,false) else if 0 < s.1 then some (s.1-1,false) else none
  readers s := s.1
  writer s := s.2
  free_readers := rfl
  free_writer := rfl
  acquire_read := by
    rintro ⟨n,w⟩ s' h
    cases w <;> cases h
    exact ⟨rfl,rfl,rfl⟩
  acquire_write := by
    rintro ⟨n,w⟩ s' h
    simp only [Option.ite_none_left_eq_some, not_or, Bool.not_eq_true, not_lt,
      Nat.le_zero_eq] at h
    obtain ⟨⟨hw,hn⟩,h⟩ := h
    cases h
    exact ⟨hw,hn,rfl,rfl⟩
  release_read := by
    rintro ⟨n,w⟩ (rfl : w = false) (hn : 0 < n)
    exact ⟨(n-1,false),by simp [hn],rfl,rfl⟩
  release_write := by
    rintro ⟨n,w⟩ (rfl : w = true)
    exact ⟨(n,false),rfl,rfl,rfl⟩

/-- Where a `ScopedLockImpl`, `ReadScopedLockImpl` or `WriteScopedLockImpl` is. -/
inductive Stage
  | gone
  /-- In `m_mutex.lock()`, `rdlock()` or `wrlock()`. -/
  | entering (m : Mode)
  /-- In front of `m_locked = true`. -/
  | acquired (m : Mode)
  | ready (m : Mode) (m_locked : Bool)
  /-- In front of `m_mutex.unlock()`, where `dying` is whether the destructor called. -/
  | leaving (m : Mode) (dying : Bool)
  /-- In front of `m_locked = false`. -/
  | released (m : Mode) (dying : Bool)
deriving DecidableEq, Repr

/-- The mode in which a guard has the lock. -/
def Stage.held : Stage → Option Mode
  | .acquired m | .ready m true | .leaving m _ => some m
  | .gone | .entering _ | .ready _ false | .released .. => none

/-- The guards over a lock; `undefined` is whether a free lock was released. -/
structure Guards (L : RawLock) (G : Type) where
  lock : L.State
  guards : G → Stage
  undefined : Bool

inductive Step (G : Type)
  | construct (g : G) (m : Mode)
  | acquire (g : G)
  | setLocked (g : G)
  | lock (g : G)
  | unlock (g : G)
  | destroy (g : G)
  | release (g : G)
  | clearLocked (g : G)

namespace Guards
variable {L : RawLock} {G : Type} [DecidableEq G]

def setGuard (s : Guards L G) (g : G) (stage : Stage) : Guards L G :=
  { s with guards := Function.update s.guards g stage }

def step (s : Guards L G) : Step G → Option (Guards L G)
  | .construct g m => match s.guards g with
    | .gone => some (s.setGuard g (.entering m))
    | _ => none
  | .acquire g => match s.guards g with
    | .entering m => (L.acquire m s.lock).map fun lock =>
      { s.setGuard g (.acquired m) with lock }
    | _ => none
  | .setLocked g => match s.guards g with
    | .acquired m => some (s.setGuard g (.ready m true))
    | _ => none
  | .lock g => match s.guards g with
    | .ready m m_locked => some (if m_locked then s else s.setGuard g (.entering m))
    | _ => none
  | .unlock g => match s.guards g with
    | .ready m m_locked => some (if m_locked then s.setGuard g (.leaving m false) else s)
    | _ => none
  | .destroy g => match s.guards g with
    | .ready m m_locked => some (s.setGuard g (if m_locked then .leaving m true else .gone))
    | _ => none
  | .release g => match s.guards g with
    | .leaving m dying => match L.release s.lock with
      | some lock => some { s.setGuard g (.released m dying) with lock }
      | none => some { s.setGuard g (.released m dying) with undefined := true }
    | _ => none
  | .clearLocked g => match s.guards g with
    | .released m dying => some (s.setGuard g (if dying then .gone else .ready m false))
    | _ => none

/-- Guards of any number over a lock that was free. -/
def machine (L : RawLock) (G : Type) [DecidableEq G] : Machine (Guards L G) (Step G) where
  init s := s = ⟨L.free,fun _ => .gone,false⟩
  step := step

/-! ### The invariant -/

/-- A guard counts for the mode in which it has the lock. -/
def weight (m : Mode) (stage : Stage) : ℤ := if stage.held = some m then 1 else 0

theorem weight_nonneg (m : Mode) (stage : Stage) : 0 ≤ weight m stage := by
  unfold weight
  split <;> decide

theorem weight_of_held {m : Mode} {stage : Stage} (h : stage.held = some m) : weight m stage = 1 :=
  if_pos h

/-- The lock knows how many guards have it. -/
structure Counted (s : Guards L G) : Prop where
  defined : s.undefined = false
  readers : Weighs (weight .read) s.guards (L.readers s.lock)
  writer : Weighs (weight .write) s.guards (if L.writer s.lock then 1 else 0)
  apart : L.writer s.lock = true → L.readers s.lock = 0

namespace Counted
variable {s : Guards L G} {g : G}

/-- A guard goes on with the lock, or without it, as before. -/
theorem stay (h : Counted s) {stage : Stage} (hheld : stage.held = (s.guards g).held) :
    Counted (s.setGuard g stage) := by
  have hsame : ∀ m, weight m stage = weight m (s.guards g) := fun m => by
    rw [weight, weight, hheld]
  have hread := h.readers.update g stage
  have hwrite := h.writer.update g stage
  rw [hsame, sub_add_cancel] at hread hwrite
  exact ⟨h.defined,hread,hwrite,h.apart⟩

theorem acquire (h : Counted s) {m : Mode} (hg : s.guards g = .entering m) {lock : L.State}
    (hlock : L.acquire m s.lock = some lock) :
    Counted { s.setGuard g (.acquired m) with lock } := by
  have hread := h.readers.update g (.acquired m)
  have hwrite := h.writer.update g (.acquired m)
  rw [hg] at hread hwrite
  cases m with
  | read =>
    obtain ⟨hfree,hnone,hmore⟩ := L.acquire_read hlock
    refine ⟨h.defined,?_,?_,fun hw => absurd (hnone.symm.trans hw) Bool.false_ne_true⟩
    · simpa [setGuard, weight, Stage.held, hmore] using hread
    · simpa [setGuard, weight, Stage.held, hnone, hfree] using hwrite
  | write =>
    obtain ⟨hfree,hnone,htaken,hnone'⟩ := L.acquire_write hlock
    refine ⟨h.defined,?_,?_,fun _ => hnone'⟩
    · simpa [setGuard, weight, Stage.held, hnone, hnone'] using hread
    · simpa [setGuard, weight, Stage.held, htaken, hfree] using hwrite

/-- A guard that has the lock releases it, and that is defined. -/
theorem release (h : Counted s) {m : Mode} {dying : Bool} (hg : s.guards g = .leaving m dying) :
    ∃ lock, L.release s.lock = some lock ∧
      Counted { s.setGuard g (.released m dying) with lock } := by
  have hread := h.readers.update g (.released m dying)
  have hwrite := h.writer.update g (.released m dying)
  rw [hg] at hread hwrite
  cases m with
  | read =>
    have hone := h.readers.le (weight_nonneg .read) g
    rw [hg, weight_of_held rfl] at hone
    have hpos : 0 < L.readers s.lock := by omega
    have hfree : L.writer s.lock = false := by
      by_contra hw
      have hzero := h.apart (by simpa using hw)
      omega
    obtain ⟨lock,hlock,hnone,hless⟩ := L.release_read hfree hpos
    refine ⟨lock,hlock,h.defined,?_,?_,fun hw => absurd (hnone.symm.trans hw) Bool.false_ne_true⟩
    · have hcast : ((L.readers s.lock-1 : ℕ) : ℤ) = L.readers s.lock-1 := by omega
      simpa [setGuard, weight, Stage.held, hless, hcast] using hread
    · simpa [setGuard, weight, Stage.held, hnone, hfree] using hwrite
  | write =>
    have hone := h.writer.le (weight_nonneg .write) g
    rw [hg, weight_of_held rfl] at hone
    have htaken : L.writer s.lock = true := by
      by_contra hw
      rw [if_neg hw] at hone
      omega
    obtain ⟨lock,hlock,hnone,hsame⟩ := L.release_write htaken
    refine ⟨lock,hlock,h.defined,?_,?_,fun hw => absurd (hnone.symm.trans hw) Bool.false_ne_true⟩
    · simpa [setGuard, weight, Stage.held, hsame] using hread
    · simpa [setGuard, weight, Stage.held, hnone, htaken] using hwrite

theorem step {s' : Guards L G} {i : Step G} (h : Counted s) (hs : s.step i = some s') :
    Counted s' := by
  cases i with
  | construct g m | setLocked g =>
    simp only [Guards.step] at hs
    split at hs
    · next hg =>
      cases hs
      exact h.stay (by rw [hg]; rfl)
    · cases hs
  | acquire g =>
    simp only [Guards.step] at hs
    split at hs
    · next hg =>
      obtain ⟨lock,hlock,rfl⟩ := Option.map_eq_some_iff.mp hs
      exact h.acquire hg hlock
    · cases hs
  | lock g | unlock g | destroy g =>
    simp only [Guards.step] at hs
    split at hs
    · next m m_locked hg =>
      cases m_locked <;> cases hs
      all_goals first
        | exact h
        | exact h.stay (by rw [hg]; rfl)
    · cases hs
  | release g =>
    simp only [Guards.step] at hs
    split at hs
    · next hg =>
      obtain ⟨lock,hlock,hnext⟩ := h.release hg
      rw [hlock] at hs
      cases hs
      exact hnext
    · cases hs
  | clearLocked g =>
    simp only [Guards.step] at hs
    split at hs
    · next m dying hg =>
      cases dying <;> cases hs
      all_goals exact h.stay (by rw [hg]; rfl)
    · cases hs

omit [DecidableEq G] in
theorem initial (L : RawLock) : Counted (⟨L.free,fun _ => .gone,false⟩ : Guards L G) where
  defined := rfl
  readers := by
    rw [L.free_readers]
    exact .zero fun _ => rfl
  writer := by
    rw [L.free_writer]
    exact .zero fun _ => rfl
  apart _ := L.free_readers

end Counted

end Guards
end CoroutineWebserve.Locks
