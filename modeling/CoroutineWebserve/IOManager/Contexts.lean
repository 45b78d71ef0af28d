import CoroutineWebserve.Transition.Machine
import Mathlib.Algebra.Group.Nat.Defs
import Mathlib.Data.Int.Basic
import Mathlib.Data.List.Basic
import Mathlib.Logic.Function.Basic

/-!
# `m_fdContexts`

Every operation looks its descriptor's `FdContext` up in a vector. `addEvent` tests the size
under the read lock and grows the vector under the write lock, so other threads move in
between. What happens under one lock is one step.
-/
namespace CoroutineWebserve.IOManager

/-- What a lookup of a descriptor finds: the `FdContext` allocated as number `p`, a null slot,
a vector that is too small, or what lies behind the end of the vector. -/
inductive Found
  | ctx (p : ℕ)
  | null
  | tooSmall
  | outOfRange
deriving DecidableEq

/-- The vector, the `fd` field of each `FdContext` in the order of their allocation, the
threads in `addEvent` between its two locks, and a ghost record of the lookups. -/
structure Contexts (T : Type*) where
  fdContexts : List (Option ℕ)
  heap : List ℕ
  growing : T → Option ℕ
  lookups : List (ℕ × Found)

namespace Contexts
variable {T : Type*}

def size (m : Contexts T) : ℕ := m.fdContexts.length

/-- `(int)m_fdContexts.size()`. -/
def intSize (m : Contexts T) : ℤ := Int.bmod m.size (2^32)

/-- `m_fdContexts[fd]`. -/
def get (m : Contexts T) (fd : ℕ) : Found :=
  match m.fdContexts[fd]? with
  | some (some p) => .ctx p
  | some none => .null
  | none => .outOfRange

/-- The loop of `contextResize`, from slot `i` on. -/
def fillNull : ℕ → List (Option ℕ) → List ℕ → List (Option ℕ) × List ℕ
  | _, [], heap => ([],heap)
  | i, some p :: slots, heap =>
    let (slots,heap) := fillNull (i+1) slots heap
    (some p :: slots,heap)
  | i, none :: slots, heap =>
    let (slots,more) := fillNull (i+1) slots (heap++[i])
    (some heap.length :: slots,more)

/-- `vector::resize`. -/
def resized (size : ℕ) (slots : List (Option ℕ)) : List (Option ℕ) :=
  slots.take size++List.replicate (size-slots.length) none

def contextResize (m : Contexts T) (size : ℕ) : Contexts T :=
  let (fdContexts,heap) := fillNull 0 (resized size m.fdContexts) m.heap
  { m with fdContexts, heap }

def record (m : Contexts T) (fd : ℕ) (found : Found) : Contexts T :=
  { m with lookups := m.lookups++[(fd,found)] }

/-- The constructor of `IOManager`. -/
def initial : Contexts T := contextResize ⟨[],[],fun _ => none,[]⟩ 32

/-- One critical section on `m_mutex`: of `addEvent` the first or the second one, or that of
`delEvent`, `cancelEvent` and `cancelAll`. -/
inductive Section (T : Type*)
  | addEvent (t : T) (fd : ℕ)
  | grow (t : T)
  | lookup (t : T) (fd : ℕ)
deriving DecidableEq

variable [DecidableEq T]

def step (m : Contexts T) : Section T → Option (Contexts T)
  | .addEvent t fd =>
    if m.growing t ≠ none then none
    else if m.intSize > fd then some (m.record fd (m.get fd))
    else some { m with growing := Function.update m.growing t (some fd) }
  | .grow t =>
    (m.growing t).map fun fd =>
      let m := m.contextResize (fd*3/2)
      { m.record fd (m.get fd) with growing := Function.update m.growing t none }
  | .lookup t fd =>
    if m.growing t ≠ none then none
    else if m.intSize ≤ fd then some (m.record fd .tooSmall)
    else some (m.record fd (m.get fd))

def machine (T : Type*) [DecidableEq T] : Transition.Machine (Contexts T) (Section T) where
  init m := m = initial
  step := step

/-- When a thread comes to grow the vector it is not larger than what it grows to, which is
still an `int`. -/
def StillTooSmall (m : Contexts T) : Section T → Prop
  | .grow t => ∀ fd ∈ m.growing t, m.size ≤ fd*3/2 ∧ fd*3/2 < 2^31
  | _ => True

instance (m : Contexts T) : DecidablePred (StillTooSmall m)
  | .grow _ => inferInstanceAs (Decidable (∀ fd ∈ _, _))
  | .addEvent .. | .lookup .. => isTrue trivial

/-! ### What a resize keeps -/

omit [DecidableEq T]

/-- The slots from `i` on hold contexts of their own descriptors. -/
def Owned (i : ℕ) (slots : List (Option ℕ)) (heap : List ℕ) : Prop :=
  ∀ j p, slots[j]? = some (some p) → heap[p]? = some (i+j)

theorem fillNull_length (i : ℕ) (slots : List (Option ℕ)) (heap : List ℕ) :
    (fillNull i slots heap).1.length = slots.length := by
  fun_induction fillNull i slots heap with
  | case1 => rfl
  | case2 i p slots heap slots' heap' hrec ih => rw [hrec] at ih; exact congrArg (·+1) ih
  | case3 i slots heap slots' heap' hrec ih => rw [hrec] at ih; exact congrArg (·+1) ih

theorem fillNull_heap (i : ℕ) (slots : List (Option ℕ)) (heap : List ℕ) :
    heap <+: (fillNull i slots heap).2 := by
  fun_induction fillNull i slots heap with
  | case1 => exact List.prefix_rfl
  | case2 i p slots heap slots' heap' hrec ih => rwa [hrec] at ih
  | case3 i slots heap slots' heap' hrec ih =>
    rw [hrec] at ih
    exact (List.prefix_append ..).trans ih

/-- A slot that is not null stays as it is. -/
theorem fillNull_keeps {i : ℕ} {slots : List (Option ℕ)} {heap : List ℕ} {j p : ℕ}
    (h : slots[j]? = some (some p)) : (fillNull i slots heap).1[j]? = some (some p) := by
  induction slots generalizing i heap j with
  | nil => cases h
  | cons slot slots ih =>
    cases j with
    | zero =>
      cases h
      rfl
    | succ j =>
      cases slot with
      | some q => exact ih h
      | none => exact ih h

theorem prefix_getElem? {α : Type*} {l l' : List α} (h : l <+: l') {p : ℕ} {a : α}
    (hp : l[p]? = some a) : l'[p]? = some a := by
  obtain ⟨more,rfl⟩ := h
  have hlt := (List.getElem?_eq_some_iff.mp hp).1
  rwa [List.getElem?_append_left hlt]

/-- Afterwards every slot holds a context of its own descriptor. -/
theorem fillNull_fills {i : ℕ} {slots : List (Option ℕ)} {heap : List ℕ}
    (h : Owned i slots heap) {j : ℕ} (hj : j < slots.length) :
    ∃ p, (fillNull i slots heap).1[j]? = some (some p) ∧
      (fillNull i slots heap).2[p]? = some (i+j) := by
  induction slots generalizing i heap j with
  | nil => cases hj
  | cons slot slots ih =>
    have htail : ∀ {more : List ℕ}, heap <+: more → Owned (i+1) slots more := by
      intro more hmore k p hp
      have := prefix_getElem? hmore (h (k+1) p hp)
      rwa [show i+(k+1) = i+1+k by omega] at this
    cases j with
    | zero =>
      cases slot with
      | some p => exact ⟨p,rfl,prefix_getElem? (fillNull_heap ..) (h 0 p rfl)⟩
      | none =>
        refine ⟨heap.length,rfl,prefix_getElem? (fillNull_heap (i+1) slots (heap++[i])) ?_⟩
        simp
    | succ j =>
      have hlt : j < slots.length := Nat.lt_of_succ_lt_succ hj
      rw [show i+(j+1) = i+1+j by omega]
      cases slot with
      | some p => exact ih (htail List.prefix_rfl) hlt
      | none => exact ih (htail (List.prefix_append ..)) hlt

section resize
variable {m : Contexts T} {size : ℕ}

theorem resized_length (slots : List (Option ℕ)) : (resized size slots).length = size := by
  simp only [resized, List.length_append, List.length_take, List.length_replicate]
  omega

theorem contextResize_size : (m.contextResize size).size = size :=
  (fillNull_length ..).trans (resized_length ..)

/-- A resize that does not shrink the vector keeps what its slots hold. -/
theorem contextResize_keeps (h : m.size ≤ size) {fd p : ℕ}
    (hp : m.fdContexts[fd]? = some (some p)) :
    (m.contextResize size).fdContexts[fd]? = some (some p) := by
  apply fillNull_keeps
  have hlt := (List.getElem?_eq_some_iff.mp hp).1
  rw [resized, List.take_of_length_le h, List.getElem?_append_left hlt, hp]

theorem contextResize_fills (h : Owned 0 m.fdContexts m.heap) {fd : ℕ} (hfd : fd < size) :
    ∃ p, (m.contextResize size).fdContexts[fd]? = some (some p) ∧
      (m.contextResize size).heap[p]? = some fd := by
  have howned : Owned 0 (resized size m.fdContexts) m.heap := by
    intro j p hp
    rw [resized, List.getElem?_append] at hp
    split at hp
    · rw [List.getElem?_take] at hp
      split at hp
      · exact h j p hp
      · cases hp
    · have := List.mem_of_getElem? hp
      rw [List.mem_replicate] at this
      cases this.2
  have := fillNull_fills howned (by rwa [resized_length])
  rwa [Nat.zero_add] at this

end resize

/-! ### Runs that do not shrink the vector -/

/-- A descriptor that was found once is found again, and its context is the same. -/
def Agree (earlier later : ℕ × Found) : Prop :=
  earlier.1 = later.1 → ∀ p, earlier.2 = .ctx p → later.2 = .ctx p

/-- Every slot holds a context of its own descriptor, and the lookups agree. -/
structure Kept (m : Contexts T) : Prop where
  slots : ∀ fd < m.size, ∃ p, m.fdContexts[fd]? = some (some p) ∧ m.heap[p]? = some fd
  lookups : m.lookups.Pairwise Agree

/-- Moreover the slots hold what was found, and sizes are `int`s. -/
structure Stable (m : Contexts T) : Prop extends Kept m where
  found : ∀ fd p, (fd,.ctx p) ∈ m.lookups → m.fdContexts[fd]? = some (some p)
  bound : m.size < 2^31

section Stable
variable {m : Contexts T}

theorem get_of_found {fd p : ℕ} (h : m.fdContexts[fd]? = some (some p)) : m.get fd = .ctx p := by
  rw [get, h]

theorem found_of_get {fd p : ℕ} (h : m.get fd = .ctx p) : m.fdContexts[fd]? = some (some p) := by
  rw [get] at h
  split at h <;> cases h
  assumption

theorem Stable.intSize (h : Stable m) : m.intSize = m.size := by
  have := h.bound
  exact Int.bmod_eq_of_le (by omega) (by omega)

/-- A lookup finds what earlier ones have found. -/
theorem Stable.record (h : Stable m) {fd : ℕ} {found : Found}
    (hfound : found = m.get fd ∨ found = .tooSmall ∧ m.size ≤ fd) : Stable (m.record fd found) where
  slots := h.slots
  lookups := by
    refine List.pairwise_append.mpr ⟨h.lookups,List.pairwise_singleton ..,?_⟩
    rintro ⟨fd',_⟩ hearlier _ hlater rfl p rfl
    cases List.mem_singleton.mp hlater
    have hslot := h.found _ _ hearlier
    rcases hfound with rfl | ⟨-,hsize⟩
    · exact get_of_found hslot
    · have hlt : fd < m.size := (List.getElem?_eq_some_iff.mp hslot).1
      omega
  found := by
    intro fd' p hmem
    rcases List.mem_append.mp hmem with hmem | hmem
    · exact h.found fd' p hmem
    · cases List.mem_singleton.mp hmem
      rcases hfound with hget | ⟨hno,-⟩
      · exact found_of_get hget.symm
      · cases hno
  bound := h.bound

theorem Stable.setGrowing (h : Stable m) (growing : T → Option ℕ) :
    Stable { m with growing } := ⟨⟨h.slots,h.lookups⟩,h.found,h.bound⟩

theorem Stable.contextResize (h : Stable m) {size : ℕ} (hle : m.size ≤ size)
    (hlt : size < 2^31) : Stable (m.contextResize size) where
  slots fd hfd := by
    rw [contextResize_size] at hfd
    refine contextResize_fills (fun j p hp => ?_) hfd
    obtain ⟨q,hq,hheap⟩ := h.slots j (List.getElem?_eq_some_iff.mp hp).1
    cases hp.symm.trans hq
    rwa [Nat.zero_add]
  lookups := h.lookups
  found fd p hp := contextResize_keeps hle (h.found fd p hp)
  bound := by rwa [contextResize_size]

theorem stable_initial : Stable (initial : Contexts T) where
  slots fd hfd := by
    rw [initial, contextResize_size] at hfd
    exact contextResize_fills (fun j p hp => by cases hp) hfd
  lookups := .nil
  found _ _ h := by cases h
  bound := by
    rw [initial, contextResize_size]
    decide

variable [DecidableEq T] {i : Section T} {m' : Contexts T}

theorem Stable.step (h : Stable m) (hg : StillTooSmall m i) (hs : m.step i = some m') :
    Stable m' := by
  cases i with
  | addEvent t fd =>
    simp only [Contexts.step] at hs
    split_ifs at hs
    · cases hs
      exact h.record (.inl rfl)
    · cases hs
      exact h.setGrowing _
  | grow t =>
    obtain ⟨fd,hfd,rfl⟩ := Option.map_eq_some_iff.mp hs
    obtain ⟨hle,hlt⟩ := hg fd hfd
    exact ((h.contextResize hle hlt).record (.inl rfl)).setGrowing _
  | lookup t fd =>
    simp only [Contexts.step] at hs
    split_ifs at hs with _ hsmall
    · cases hs
      rw [h.intSize] at hsmall
      exact h.record (.inr ⟨rfl,by omega⟩)
    · cases hs
      exact h.record (.inl rfl)

theorem size_le_of_step (hg : StillTooSmall m i) (hs : m.step i = some m') : m.size ≤ m'.size := by
  cases i with
  | addEvent t fd =>
    simp only [Contexts.step] at hs
    split_ifs at hs <;> cases hs <;> exact le_rfl
  | grow t =>
    obtain ⟨fd,hfd,rfl⟩ := Option.map_eq_some_iff.mp hs
    exact le_of_le_of_eq (hg fd hfd).1 contextResize_size.symm
  | lookup t fd =>
    simp only [Contexts.step] at hs
    split_ifs at hs <;> cases hs <;> exact le_rfl

theorem size_le_of_exec {is : List (Section T)} (hg : (machine T).Guarded StillTooSmall m is)
    (he : (machine T).exec m is = some m') : m.size ≤ m'.size := by
  induction is generalizing m with
  | nil => exact (Option.some.inj he) ▸ le_rfl
  | cons i is ih =>
    obtain ⟨m₁,h₁,he⟩ := Option.bind_eq_some_iff.mp he
    exact le_trans (size_le_of_step hg.1 h₁) (ih (hg.2 m₁ h₁) he)

/-- A descriptor keeps its context as long as no thread comes to grow the vector when it is
larger already: the slots are filled, the lookups agree, and the size never decreases. -/
theorem contexts_kept (h : (machine T).Reaches StillTooSmall m) :
    Kept m ∧ ∀ is m', (machine T).Guarded StillTooSmall m is →
      (machine T).exec m is = some m' → m.size ≤ m'.size := by
  have hstable : Stable m := h.invariant (fun _ hi => hi ▸ stable_initial)
    fun _ _ _ hm hg hs => hm.step hg hs
  exact ⟨hstable.toKept,fun _ _ => size_le_of_exec⟩

end Stable

/-- Two threads grow the vector, the second one for the larger descriptor. -/
theorem contexts_kept_two : ∃ m : Contexts (Fin 2), m.size = 150 ∧ Kept m := by
  obtain ⟨m,hm,hsize⟩ := Transition.Machine.exists_reaches (M := machine (Fin 2))
    (G := StillTooSmall) rfl [.addEvent 0 40,.addEvent 1 100,.grow 0,.grow 1]
    (fun m => m.size = 150) (by decide) (by decide +kernel)
  exact ⟨m,hsize,(contexts_kept hm).1⟩

/-- The second one grows it for the smaller descriptor: the vector shrinks, and the descriptor
that the first one has looked up gets a new context. -/
theorem contexts_lost : ¬∀ m : Contexts (Fin 2), (machine (Fin 2)).Reachable m → Kept m ∧
    ∀ is m', (machine (Fin 2)).exec m is = some m' → m.size ≤ m'.size := by
  intro h
  obtain ⟨m,hm,hlookups⟩ := Transition.Machine.exists_reaches (M := machine (Fin 2))
    (G := fun _ _ => True) rfl
    [.addEvent 0 100,.addEvent 1 40,.grow 0,.grow 1,.addEvent 0 100,.grow 0]
    (fun m => m.lookups = [(100,.ctx 100),(40,.ctx 40),(100,.ctx 190)])
    (Transition.Machine.guarded_true ..) (by decide +kernel)
  have hagree := (h m hm).1.lookups
  rw [hlookups] at hagree
  have hlater : Agree (100,.ctx 100) (100,.ctx 190) := List.rel_of_pairwise_cons hagree (by simp)
  exact absurd (hlater rfl 100 rfl) (by decide)

end Contexts
end CoroutineWebserve.IOManager
