import CoroutineWebserve.FdManager.Table

/-!
# Contexts of descriptors

What a `get` finds, and how the other critical sections change it.
-/
namespace CoroutineWebserve.FdManager
variable {T : Type*}

/-- What `get(fd)` finds under the read lock. -/
def lookup (m : FdManager T) (fd : ℕ) : Option ℕ := if m.intSize ≤ fd then none else m.slot fd

/-- The context that `get(fd)` returns. -/
def ctx (m : FdManager T) (fd : ℕ) : Option FdCtx := (m.lookup fd).bind (m.heap[·]?)

variable {m : FdManager T} {fd : ℕ}

namespace Stable

theorem lookup (h : Stable m) (fd : ℕ) : m.lookup fd = m.slot fd := by
  unfold FdManager.lookup
  split_ifs with hsmall
  · rw [h.intSize, Int.ofNat_le] at hsmall
    rw [slot, List.getElem?_eq_none hsmall]
    rfl
  · rfl

theorem ctx_eq (h : Stable m) (fd : ℕ) : m.ctx fd = (m.slot fd).bind (m.heap[·]?) := by
  rw [ctx, h.lookup]

/-- A slot that is taken holds a context. -/
theorem ctx_eq_none (h : Stable m) (fd : ℕ) : m.ctx fd = none ↔ m.slot fd = none := by
  rw [h.ctx_eq]
  cases hslot : m.slot fd with
  | none => exact iff_of_true rfl rfl
  | some c =>
    obtain ⟨fstat,hc⟩ := h.context fd c hslot
    simp [hc]

theorem lookup_isSome (h : Stable m) (fd : ℕ) : (m.lookup fd).isSome = (m.ctx fd).isSome := by
  rw [h.lookup]
  cases hslot : m.slot fd with
  | none =>
    rw [(h.ctx_eq_none fd).mpr hslot]
    rfl
  | some c =>
    cases hctx : m.ctx fd with
    | none => cases hslot.symm.trans ((h.ctx_eq_none fd).mp hctx)
    | some _ => rfl

theorem ctx_del (h : Stable m) (fd fd' : ℕ) :
    (m.del fd).ctx fd' = if fd' = fd then none else m.ctx fd' := by
  rw [(h.del fd).ctx_eq, h.slot_del, heap_del, h.ctx_eq]
  split_ifs
  · rfl
  · rfl

theorem ctx_create (h : Stable m) (hnull : m.slot fd = none)
    (hint : m.intSize ≤ fd → fd*3/2 < 2^31) (fstat : Option Bool) (creating : T → Option ℕ)
    (fd' : ℕ) : ({ (m.create fd fstat).give fd m.heap.length with creating } : FdManager T).ctx fd' =
      if fd = fd' then some (.new fd fstat) else m.ctx fd' := by
  have hstable := (h.create hnull hint fstat).setCreating creating
  have hslot : ({ (m.create fd fstat).give fd m.heap.length with creating } : FdManager T).slot fd' =
      if fd = fd' then some m.heap.length else m.slot fd' := h.slot_create fd fstat fd'
  have hheap : ({ (m.create fd fstat).give fd m.heap.length with creating } : FdManager T).heap =
      m.heap++[.new fd fstat] := rfl
  rw [hstable.ctx_eq, hslot, hheap, h.ctx_eq]
  split_ifs
  · simp
  · cases hc : m.slot fd' with
    | none => rfl
    | some c =>
      obtain ⟨fstat',hctx⟩ := h.context fd' c hc
      have hlt : c < m.heap.length := (List.getElem?_eq_some_iff.mp hctx).1
      simp [List.getElem?_append_left hlt]

/-- A setting reaches the context of one descriptor. -/
theorem ctx_set (h : Stable m) {c : ℕ} (hslot : m.slot fd = some c) (setting : FdCtx.Setting)
    (fd' : ℕ) : (m.set c setting).ctx fd' =
      if fd' = fd then (m.ctx fd').map (·.set setting) else m.ctx fd' := by
  have hslot' : (m.set c setting).slot fd' = m.slot fd' := rfl
  have hheap : (m.set c setting).heap = m.heap.modify c (·.set setting) := rfl
  rw [(h.set c setting).ctx_eq, hslot', hheap, h.ctx_eq]
  cases hc : m.slot fd' with
  | none => simp
  | some c' =>
    rw [Option.bind_some, Option.bind_some, List.getElem?_modify]
    by_cases heq : fd' = fd
    · subst heq
      cases hc.symm.trans hslot
      simp
    · have hne : c ≠ c' := fun hcc => heq (h.slot_inj (hcc ▸ hc) hslot)
      simp [heq, hne]

end Stable

theorem lookup_congr {m' : FdManager T} (hdatas : m'.datas = m.datas) : m'.lookup = m.lookup := by
  funext fd
  unfold lookup intSize slot
  rw [hdatas]

theorem ctx_congr {m' : FdManager T} (hdatas : m'.datas = m.datas) (hheap : m'.heap = m.heap) :
    m'.ctx = m.ctx := by
  funext fd
  unfold ctx
  rw [lookup_congr hdatas, hheap]

variable [DecidableEq T] {t : T}

/-- What the table of a server's run knows. -/
theorem stable_of_reaches (h : (machine T).Reaches StillNull m) : Stable m :=
  h.invariant (fun _ hi => hi ▸ Stable.initial) fun _ _ _ hm hg hs => hm.step hg hs

/-- A `get` that makes nothing. -/
theorem step_get (hbusy : m.creating t = none) (fd : ℕ) :
    ∃ m', m.step (.get t fd false) = some m' ∧ m'.ctx = m.ctx ∧ m'.lookup = m.lookup ∧
      m'.creating = m.creating := by
  simp only [FdManager.step, ne_eq, hbusy, not_true_eq_false, if_false]
  cases (if m.intSize ≤ fd then none else m.slot fd) with
  | none => exact ⟨m,rfl,rfl,rfl,rfl⟩
  | some c => exact ⟨m.give fd c,rfl,ctx_congr rfl rfl,lookup_congr rfl,rfl⟩

/-- A `get` that is going to make a context. -/
theorem step_get_true (hbusy : m.creating t = none) (hnone : m.lookup fd = none) :
    ∃ m', m.step (.get t fd true) = some m' ∧ m'.ctx = m.ctx ∧
      m'.creating = Function.update m.creating t (some fd) := by
  unfold lookup at hnone
  simp only [FdManager.step, ne_eq, hbusy, not_true_eq_false, if_false, hnone]
  exact ⟨_,rfl,ctx_congr rfl rfl,rfl⟩

/-- The second part of this `get`, where there is no context yet. -/
theorem step_create (h : Stable m) (hcreating : m.creating t = some fd) (hnull : m.ctx fd = none)
    (hint : fd*3/2 < 2^31) (fstat : Option Bool) : StillNull m (.create t fstat) ∧
      ∃ m', m.step (.create t fstat) = some m' ∧
        (∀ fd', m'.ctx fd' = if fd = fd' then some (.new fd fstat) else m.ctx fd') ∧
        m'.creating = Function.update m.creating t none := by
  have hslot := (h.ctx_eq_none fd).mp hnull
  constructor
  · intro fd' hfd'
    cases hcreating.symm.trans hfd'
    exact ⟨hslot,fun _ => hint⟩
  · rw [FdManager.step, hcreating]
    exact ⟨_,rfl,h.ctx_create hslot (fun _ => hint) fstat _,rfl⟩

theorem step_del (h : Stable m) (fd : ℕ) : ∃ m', m.step (.del fd) = some m' ∧
    (∀ fd', m'.ctx fd' = if fd' = fd then none else m.ctx fd') ∧ m'.creating = m.creating :=
  ⟨_,rfl,h.ctx_del fd,by rw [FdManager.del]⟩

/-- A setter of the context that a `get` has returned. -/
theorem step_set (h : Stable m) {c : ℕ} (hlookup : m.lookup fd = some c)
    (setting : FdCtx.Setting) : ∃ m', m.step (.set c setting) = some m' ∧
      (∀ fd', m'.ctx fd' =
        if fd' = fd then (m.ctx fd').map (·.set setting) else m.ctx fd') ∧
      m'.creating = m.creating :=
  ⟨_,rfl,h.ctx_set (h.lookup fd ▸ hlookup) setting,rfl⟩

end CoroutineWebserve.FdManager
