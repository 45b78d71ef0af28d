import CoroutineWebserve.IOManager.Contexts
import Mathlib.Data.Fintype.Basic
import Mathlib.Data.UInt

/-!
# `FdManager`

`get` looks a descriptor up under the read lock and makes its context under the write lock,
so other threads move in between. What happens under one lock is one step.
-/
namespace CoroutineWebserve

/-- `FdCtx`; no timeout is the largest `uint64_t`. -/
structure FdCtx where
  isInit : Bool
  isSocket : Bool
  sysNonblock : Bool
  userNonblock : Bool
  isClosed : Bool
  fd : ℕ
  recvTimeout : UInt64
  sendTimeout : UInt64
deriving Repr, DecidableEq

namespace FdCtx

inductive TimeoutType
  | SO_RCVTIMEO
  | SO_SNDTIMEO
deriving Repr, DecidableEq

/-- The constructor, with the answer of `fstat` in `init`: an error, or whether the descriptor
is a socket. -/
def new (fd : ℕ) (fstat : Option Bool) : FdCtx where
  isInit := fstat.isSome
  isSocket := fstat.getD false
  sysNonblock := fstat.getD false
  userNonblock := false
  isClosed := false
  fd := fd
  recvTimeout := -1
  sendTimeout := -1

def setUserNonblock (c : FdCtx) (v : Bool) : FdCtx := { c with userNonblock := v }

def setTimeout (c : FdCtx) (type : TimeoutType) (v : UInt64) : FdCtx :=
  match type with
  | .SO_RCVTIMEO => { c with recvTimeout := v }
  | .SO_SNDTIMEO => { c with sendTimeout := v }

def getTimeout (c : FdCtx) : TimeoutType → UInt64
  | .SO_RCVTIMEO => c.recvTimeout
  | .SO_SNDTIMEO => c.sendTimeout

/-- What a user of a context sets. -/
inductive Setting
  | timeout (type : TimeoutType) (v : UInt64)
  | userNonblock (v : Bool)
deriving Repr, DecidableEq

def set (c : FdCtx) : Setting → FdCtx
  | .timeout type v => c.setTimeout type v
  | .userNonblock v => c.setUserNonblock v

end FdCtx

/-- `m_datas` with the numbers of the contexts, the contexts in the order of their allocation,
and the threads in `get` between its two locks. Of each descriptor the ghost fields know which
contexts `get` has returned since the last `del`, and what has been set through them. -/
structure FdManager (T : Type*) where
  datas : List (Option ℕ)
  heap : List FdCtx
  creating : T → Option ℕ
  returned : List (ℕ × ℕ)
  settings : ℕ → List FdCtx.Setting

namespace FdManager
variable {T : Type*}
open IOManager.Contexts (resized resized_length)

def initial : FdManager T := ⟨resized 64 [],[],fun _ => none,[],fun _ => []⟩

/-- `(int)m_datas.size()`. -/
@[irreducible] def intSize (m : FdManager T) : ℤ := Int.bmod m.datas.length (2^32)

/-- The context in the slot of a descriptor. -/
def slot (m : FdManager T) (fd : ℕ) : Option ℕ := m.datas[fd]?.join

/-- A context is returned by `get`. -/
def give (m : FdManager T) (fd c : ℕ) : FdManager T :=
  { m with returned := (fd,c) :: m.returned }

/-- A setter of the context number `c`. -/
def set (m : FdManager T) (c : ℕ) (setting : FdCtx.Setting) : FdManager T :=
  { m with
    heap := m.heap.modify c (·.set setting)
    settings := fun fd =>
      if (fd,c) ∈ m.returned then m.settings fd++[setting] else m.settings fd }

/-- The second part of `get`. -/
def create (m : FdManager T) (fd : ℕ) (fstat : Option Bool) : FdManager T :=
  let datas := if m.intSize ≤ fd then resized (fd*3/2) m.datas else m.datas
  { m with
    heap := m.heap++[.new fd fstat]
    datas := datas.set fd (some m.heap.length) }

def del (m : FdManager T) (fd : ℕ) : FdManager T :=
  { m with
    datas := if m.intSize ≤ fd then m.datas else m.datas.set fd none
    returned := m.returned.filter fun r => r.1 ≠ fd
    settings := Function.update m.settings fd [] }

/-- A critical section of `get` or `del`, or a setter of a context. -/
inductive Step (T : Type*)
  | get (t : T) (fd : ℕ) (auto_create : Bool)
  | create (t : T) (fstat : Option Bool)
  | del (fd : ℕ)
  | set (c : ℕ) (setting : FdCtx.Setting)

variable [DecidableEq T]

def step (m : FdManager T) : Step T → Option (FdManager T)
  | .get t fd auto_create =>
    if m.creating t ≠ none then none
    else
      match (if m.intSize ≤ fd then none else m.slot fd), auto_create with
      | some c, _ => some (m.give fd c)
      | none, false => some m
      | none, true => some { m with creating := Function.update m.creating t (some fd) }
  | .create t fstat =>
    (m.creating t).map fun fd =>
      { (m.create fd fstat).give fd m.heap.length with
        creating := Function.update m.creating t none }
  | .del fd => some (m.del fd)
  | .set c setting => some (m.set c setting)

def machine (T : Type*) [DecidableEq T] : Transition.Machine (FdManager T) (Step T) where
  init m := m = initial
  step := step

/-- A thread that comes to create a context finds that there is none, as it did before; and
if it grows the vector, the new size is an `int`. -/
def StillNull (m : FdManager T) : Step T → Prop
  | .create t _ => ∀ fd ∈ m.creating t, m.slot fd = none ∧ (m.intSize ≤ fd → fd*3/2 < 2^31)
  | _ => True

instance (m : FdManager T) : DecidablePred (StillNull m)
  | .create _ _ => inferInstanceAs (Decidable (∀ fd ∈ _, _))
  | .get .. | .del _ | .set .. => isTrue trivial

/-- All calls return the same context of a descriptor, and it is as they have set it. -/
structure OneCtx (m : FdManager T) : Prop where
  same : ∀ fd c c', (fd,c) ∈ m.returned → (fd,c') ∈ m.returned → c = c'
  seen : ∀ fd c, (fd,c) ∈ m.returned → ∃ fstat,
    m.heap[c]? = some ((m.settings fd).foldl FdCtx.set (.new fd fstat))

/-! ### Slots -/

omit [DecidableEq T]

theorem join_resized {datas : List (Option ℕ)} {size : ℕ} (h : datas.length ≤ size) (fd : ℕ) :
    (resized size datas)[fd]?.join = datas[fd]?.join := by
  rw [resized, List.take_of_length_le h, List.getElem?_append]
  split
  · rfl
  · next hge =>
    rw [List.getElem?_replicate, List.getElem?_eq_none (not_lt.mp hge)]
    split <;> rfl

theorem join_set (datas : List (Option ℕ)) (fd : ℕ) (x : Option ℕ) (fd' : ℕ) :
    (datas.set fd x)[fd']?.join =
      if fd = fd' ∧ fd < datas.length then x else datas[fd']?.join := by
  by_cases heq : fd = fd'
  · subst heq
    by_cases hlt : fd < datas.length
    · simp [hlt]
    · simp [hlt]
  · rw [List.getElem?_set_ne heq, if_neg fun h => heq h.1]

/-- Setters do not change which descriptor a context is of. -/
theorem foldl_set_fd (settings : List FdCtx.Setting) (c : FdCtx) :
    (settings.foldl FdCtx.set c).fd = c.fd := by
  induction settings generalizing c with
  | nil => rfl
  | cons setting settings ih =>
    rw [List.foldl_cons, ih]
    match setting with
    | .timeout .SO_RCVTIMEO _ | .timeout .SO_SNDTIMEO _ | .userNonblock _ => rfl

/-- The vector is as large as its size as an `int`; its slots hold the contexts that have been
returned, and these are as they have been set. -/
structure Stable (m : FdManager T) : Prop where
  size : 64 ≤ m.datas.length
  bound : m.datas.length < 2147483648
  returned : ∀ fd c, (fd,c) ∈ m.returned ↔ m.slot fd = some c
  context : ∀ fd c, m.slot fd = some c → ∃ fstat,
    m.heap[c]? = some ((m.settings fd).foldl FdCtx.set (.new fd fstat))
  unset : ∀ fd, m.slot fd = none → m.settings fd = []

namespace Stable
variable {m m' : FdManager T}

theorem initial : Stable (FdManager.initial : FdManager T) where
  size := (resized_length _).ge
  bound := by
    rw [FdManager.initial, resized_length]
    omega
  returned fd c := by
    refine iff_of_false List.not_mem_nil ?_
    rw [FdManager.initial, slot, join_resized (Nat.zero_le _)]
    nofun
  context fd c h := by
    rw [FdManager.initial, slot, join_resized (Nat.zero_le _)] at h
    cases h
  unset _ _ := rfl

theorem intSize (h : Stable m) : m.intSize = m.datas.length := by
  have := h.bound
  unfold FdManager.intSize
  exact Int.bmod_eq_of_le (by omega) (by omega)

/-- A context is in one slot. -/
theorem slot_inj (h : Stable m) {fd fd' c : ℕ} (hfd : m.slot fd = some c)
    (hfd' : m.slot fd' = some c) : fd = fd' := by
  obtain ⟨fstat,hc⟩ := h.context fd c hfd
  obtain ⟨fstat',hc'⟩ := h.context fd' c hfd'
  have heq := congrArg FdCtx.fd (Option.some.inj (hc.symm.trans hc'))
  rwa [foldl_set_fd, foldl_set_fd] at heq

theorem slot_give (m : FdManager T) (fd c fd' : ℕ) : (m.give fd c).slot fd' = m.slot fd' := rfl

theorem datas_give (m : FdManager T) (fd c : ℕ) : (m.give fd c).datas = m.datas := rfl

theorem heap_give (m : FdManager T) (fd c : ℕ) : (m.give fd c).heap = m.heap := rfl

theorem settings_give (m : FdManager T) (fd c : ℕ) : (m.give fd c).settings = m.settings := rfl

theorem returned_give (m : FdManager T) (fd c : ℕ) :
    (m.give fd c).returned = (fd,c) :: m.returned := rfl

theorem give (h : Stable m) {fd c : ℕ} (hslot : m.slot fd = some c) : Stable (m.give fd c) where
  size := h.size
  bound := h.bound
  returned fd' c' := by
    rw [FdManager.give, List.mem_cons, Prod.mk.injEq, h.returned]
    exact or_iff_right_of_imp fun ⟨hfd,hc⟩ => hfd ▸ hc ▸ hslot
  context := h.context
  unset := h.unset

theorem setCreating (h : Stable m) (creating : T → Option ℕ) : Stable { m with creating } :=
  ⟨h.size,h.bound,h.returned,h.context,h.unset⟩

theorem set (h : Stable m) (c : ℕ) (setting : FdCtx.Setting) : Stable (m.set c setting) where
  size := h.size
  bound := h.bound
  returned := h.returned
  context fd c' hslot := by
    obtain ⟨fstat,hc'⟩ := h.context fd c' hslot
    have hret : (fd,c) ∈ m.returned ↔ c = c' :=
      (h.returned fd c).trans ⟨fun hc => Option.some.inj (hc.symm.trans hslot),fun hc => hc ▸ hslot⟩
    refine ⟨fstat,?_⟩
    simp only [FdManager.set, List.getElem?_modify, hret, hc']
    split_ifs with heq
    · rw [List.foldl_append]
      rfl
    · rfl
  unset fd hslot := by
    have hret : (fd,c) ∉ m.returned := fun hmem =>
      nomatch hslot.symm.trans ((h.returned fd c).mp hmem)
    simp only [FdManager.set, hret, if_false]
    exact h.unset fd hslot

/-- The slots behind `del`. -/
theorem slot_del (h : Stable m) (fd fd' : ℕ) :
    (m.del fd).slot fd' = if fd' = fd then none else m.slot fd' := by
  simp only [FdManager.del, slot, h.intSize]
  split_ifs with hlarge heq heq
  · subst heq
    rw [List.getElem?_eq_none (by omega)]
    rfl
  · rfl
  · subst heq
    rw [join_set, if_pos ⟨rfl,by omega⟩]
  · rw [join_set, if_neg fun h => heq h.1.symm]

theorem length_del (m : FdManager T) (fd : ℕ) : (m.del fd).datas.length = m.datas.length := by
  unfold FdManager.del
  split_ifs
  · rfl
  · exact List.length_set

theorem heap_del (m : FdManager T) (fd : ℕ) : (m.del fd).heap = m.heap := by
  rw [FdManager.del]

theorem settings_del {fd fd' : ℕ} (h : fd' ≠ fd) : (m.del fd).settings fd' = m.settings fd' :=
  Function.update_of_ne h ..

theorem del (h : Stable m) (fd : ℕ) : Stable (m.del fd) where
  size := by
    rw [length_del]
    exact h.size
  bound := by
    rw [length_del]
    exact h.bound
  returned fd' c := by
    rw [h.slot_del]
    simp only [FdManager.del, List.mem_filter, h.returned]
    split_ifs with heq
    · simp [heq]
    · simp [heq]
  context fd' c hc := by
    rw [h.slot_del] at hc
    by_cases heq : fd' = fd
    · rw [if_pos heq] at hc
      cases hc
    · rw [if_neg heq] at hc
      obtain ⟨fstat,hctx⟩ := h.context fd' c hc
      exact ⟨fstat,by rw [heap_del, settings_del heq, hctx]⟩
  unset fd' hnone := by
    rw [h.slot_del] at hnone
    simp only [FdManager.del]
    split_ifs at hnone with heq
    · rw [heq, Function.update_self]
    · rw [Function.update_of_ne heq]
      exact h.unset fd' hnone

/-- The slots behind the second part of `get`. -/
theorem slot_create (h : Stable m) (fd : ℕ) (fstat : Option Bool) (fd' : ℕ) :
    (m.create fd fstat).slot fd' = if fd = fd' then some m.heap.length else m.slot fd' := by
  have hsize := h.size
  simp only [FdManager.create, slot, h.intSize, join_set]
  by_cases hgrow : (m.datas.length : ℤ) ≤ fd
  · have hle : m.datas.length ≤ fd*3/2 := by omega
    rw [if_pos hgrow, resized_length, join_resized hle]
    by_cases heq : fd = fd'
    · rw [if_pos ⟨heq,by omega⟩, if_pos heq]
    · rw [if_neg fun h => heq h.1, if_neg heq]
  · rw [if_neg hgrow]
    by_cases heq : fd = fd'
    · rw [if_pos ⟨heq,by omega⟩, if_pos heq]
    · rw [if_neg fun h => heq h.1, if_neg heq]

theorem length_create (h : Stable m) {fd : ℕ} (hint : m.intSize ≤ fd → fd*3/2 < 2^31)
    (fstat : Option Bool) : 64 ≤ (m.create fd fstat).datas.length ∧
      (m.create fd fstat).datas.length < 2147483648 := by
  have hsize := h.size
  have hbound := h.bound
  unfold FdManager.create
  simp only [List.length_set]
  split_ifs with hgrow
  · have hnew := hint hgrow
    rw [h.intSize] at hgrow
    rw [resized_length]
    omega
  · exact ⟨hsize,hbound⟩

theorem heap_create (m : FdManager T) (fd : ℕ) (fstat : Option Bool) :
    (m.create fd fstat).heap = m.heap++[.new fd fstat] := by
  rw [FdManager.create]

theorem settings_create (m : FdManager T) (fd : ℕ) (fstat : Option Bool) :
    (m.create fd fstat).settings = m.settings := by
  rw [FdManager.create]

theorem returned_create (m : FdManager T) (fd : ℕ) (fstat : Option Bool) :
    (m.create fd fstat).returned = m.returned := by
  rw [FdManager.create]

/-- Where there was no context, a new one is made and returned. -/
theorem create (h : Stable m) {fd : ℕ} (hnull : m.slot fd = none)
    (hint : m.intSize ≤ fd → fd*3/2 < 2^31) (fstat : Option Bool) :
    Stable ((m.create fd fstat).give fd m.heap.length) where
  size := by
    rw [datas_give]
    exact (h.length_create hint fstat).1
  bound := by
    rw [datas_give]
    exact (h.length_create hint fstat).2
  returned fd' c := by
    rw [returned_give, slot_give, h.slot_create, returned_create, List.mem_cons, Prod.mk.injEq,
      h.returned]
    split_ifs with heq
    · subst heq
      simp [hnull, eq_comm]
    · simp [Ne.symm heq]
  context fd' c hc := by
    rw [slot_give, h.slot_create] at hc
    rw [heap_give, settings_give, heap_create, settings_create]
    by_cases heq : fd = fd'
    · rw [if_pos heq] at hc
      cases hc
      subst heq
      exact ⟨fstat,by rw [List.getElem?_concat_length, h.unset fd hnull]; rfl⟩
    · rw [if_neg heq] at hc
      obtain ⟨fstat',hc'⟩ := h.context fd' c hc
      exact ⟨fstat',by rw [List.getElem?_append_left (List.getElem?_eq_some_iff.mp hc').1, hc']⟩
  unset fd' hnone := by
    rw [slot_give, h.slot_create] at hnone
    rw [settings_give, settings_create]
    split_ifs at hnone with heq
    exact h.unset fd' hnone

variable [DecidableEq T]

theorem step (h : Stable m) {i : Step T} (hg : StillNull m i) (hs : m.step i = some m') :
    Stable m' := by
  cases i with
  | get t fd auto_create =>
    simp only [FdManager.step] at hs
    split_ifs at hs with hbusy hsmall
    · cases auto_create with
      | false =>
        cases hs
        exact h
      | true =>
        cases hs
        exact h.setCreating _
    · cases hslot : m.slot fd with
      | some c =>
        rw [hslot] at hs
        cases hs
        exact h.give hslot
      | none =>
        rw [hslot] at hs
        cases auto_create with
        | false =>
          cases hs
          exact h
        | true =>
          cases hs
          exact h.setCreating _
  | create t fstat =>
    obtain ⟨fd,hfd,rfl⟩ := Option.map_eq_some_iff.mp hs
    obtain ⟨hnull,hint⟩ := hg fd hfd
    exact (h.create hnull hint fstat).setCreating _
  | del fd =>
    cases hs
    exact h.del fd
  | set c setting =>
    cases hs
    exact h.set c setting

end Stable

variable [DecidableEq T] {m : FdManager T}

/-- When no thread makes a context for a descriptor that has got one since the thread looked,
every `get` of the descriptor returns the same context, with all that has been set. -/
theorem one_ctx (h : (machine T).Reaches StillNull m) : OneCtx m := by
  have hstable : Stable m := h.invariant (fun _ hi => hi ▸ Stable.initial)
    fun _ _ _ hm hg hs => hm.step hg hs
  constructor
  · intro fd c c' hc hc'
    have hslot := (hstable.returned fd c).mp hc
    exact Option.some.inj (hslot.symm.trans ((hstable.returned fd c').mp hc'))
  · intro fd c hc
    exact hstable.context fd c ((hstable.returned fd c).mp hc)

/-- A thread sets the timeout of the context that it has made, and another one gets it. -/
theorem one_ctx_two : ∃ m : FdManager (Fin 2), m.returned = [(70,0),(70,0)] ∧ OneCtx m := by
  obtain ⟨m,hm,hreturned⟩ := Transition.Machine.exists_reaches (M := machine (Fin 2))
    (G := StillNull) rfl [.get 0 70 true,.create 0 (some true),
      .set 0 (.timeout .SO_RCVTIMEO 1000),.get 1 70 true]
    (fun m => m.returned = [(70,0),(70,0)]) (by decide +kernel) (by decide +kernel)
  exact ⟨m,hreturned,one_ctx hm⟩

/-- Both threads have looked before the first one makes its context: the second one makes
another, without the timeout. -/
theorem one_ctx_lost : ¬∀ m : FdManager (Fin 2), (machine (Fin 2)).Reachable m → OneCtx m := by
  intro h
  obtain ⟨m,hm,hreturned⟩ := Transition.Machine.exists_reaches (M := machine (Fin 2))
    (G := fun _ _ => True) rfl [.get 0 5 true,.get 1 5 true,.create 0 (some true),
      .set 0 (.timeout .SO_RCVTIMEO 1000),.create 1 (some true)]
    (fun m => m.returned = [(5,1),(5,0)]) (Transition.Machine.guarded_true ..) (by decide +kernel)
  have hsame := (h m hm).same 5 1 0
  rw [hreturned] at hsame
  exact absurd (hsame (by decide) (by decide)) (by decide)

end FdManager
end CoroutineWebserve
