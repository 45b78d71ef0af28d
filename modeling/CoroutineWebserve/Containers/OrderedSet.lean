import Mathlib.Data.List.TakeWhile
import Mathlib.Order.Defs.Unbundled
import Mathlib.Tactic.Common

/-!
# Sets in the order of a comparison

Elements that the comparison puts neither before nor behind each other count as one. The order is
that of the comparison as it is now: elements whose keys change have to be out of the set.
-/
namespace CoroutineWebserve.OrderedSet
variable {α : Type*} (lt : α → α → Prop) [DecidableRel lt]

/-- The element that counts as `k`. -/
def find (k : α) : List α → Option α
  | [] => none
  | y :: l => if lt y k then find k l else if lt k y then none else some y

/-- `k` is not inserted when there is an element that counts as `k`. -/
def insert (k : α) : List α → List α
  | [] => [k]
  | y :: l => if lt y k then y :: insert k l else if lt k y then k :: y :: l else y :: l

variable {lt} {k : α} {l : List α}

/-- An element of the set is found itself. -/
theorem find_of_mem [IsStrictOrder α lt] (hl : l.Pairwise lt) (hk : k ∈ l) :
    find lt k l = some k := by
  induction l with
  | nil => cases hk
  | cons y l ih =>
    obtain ⟨hy,hl⟩ := List.pairwise_cons.mp hl
    rw [find]
    rcases List.mem_cons.mp hk with rfl | hk
    · rw [if_neg (irrefl k), if_neg (irrefl k)]
    · rw [if_pos (hy k hk), ih hl hk]

/-- The comparison does not tell the keys apart. -/
theorem find_congr (k' : α) (h : ∀ y, (lt y k ↔ lt y k') ∧ (lt k y ↔ lt k' y)) :
    find lt k l = find lt k' l := by
  induction l with
  | nil => rfl
  | cons y l ih => simp only [find, (h y).1, (h y).2, ih]

/-- What is found is in the set, and the comparison does not tell it from `k`. -/
theorem mem_of_find {y : α} (h : find lt k l = some y) : y ∈ l ∧ ¬lt y k ∧ ¬lt k y := by
  induction l with
  | nil => cases h
  | cons z l ih =>
    rw [find] at h
    split_ifs at h with hzk hkz
    · exact ⟨List.mem_cons_of_mem z (ih h).1,(ih h).2⟩
    · cases h
      exact ⟨List.mem_cons_self,hzk,hkz⟩

theorem insert_perm (h : ∀ y ∈ l, lt y k ∨ lt k y) : (insert lt k l).Perm (k :: l) := by
  induction l with
  | nil => exact .refl _
  | cons y l ih =>
    have ih := ih fun z hz => h z (List.mem_cons_of_mem y hz)
    rw [insert]
    split_ifs with hyk hky
    · exact (ih.cons y).trans (.swap k y l)
    · exact .refl _
    · exact absurd (h y List.mem_cons_self) (not_or.mpr ⟨hyk,hky⟩)

theorem mem_or_eq_of_mem_insert {y : α} (h : y ∈ insert lt k l) : y = k ∨ y ∈ l := by
  induction l with
  | nil => exact .inl (List.mem_singleton.mp h)
  | cons z l ih =>
    rw [insert] at h
    split_ifs at h
    · rcases List.mem_cons.mp h with rfl | h
      · exact .inr List.mem_cons_self
      · exact (ih h).imp_right (List.mem_cons_of_mem z)
    · exact List.mem_cons.mp h
    · exact .inr h

theorem pairwise_insert [IsStrictOrder α lt] (hl : l.Pairwise lt) :
    (insert lt k l).Pairwise lt := by
  induction l with
  | nil => exact List.pairwise_singleton lt k
  | cons y l ih =>
    obtain ⟨hy,htail⟩ := List.pairwise_cons.mp hl
    rw [insert]
    split_ifs with hyk hky
    · refine List.pairwise_cons.mpr ⟨fun z hz => ?_,ih htail⟩
      rcases mem_or_eq_of_mem_insert hz with rfl | hz
      · exact hyk
      · exact hy z hz
    · refine List.pairwise_cons.mpr ⟨fun z hz => ?_,hl⟩
      rcases List.mem_cons.mp hz with rfl | hz
      · exact hky
      · exact IsTrans.trans _ _ _ hky (hy z hz)
    · exact hl

omit [DecidableRel lt] in
/-- The elements in front of a bound are those that are below it. -/
theorem mem_takeWhile_iff {p : α → Bool} {y : α} (hl : l.Pairwise lt)
    (hp : ∀ x ∈ l, ∀ y ∈ l, lt x y → p y → p x) : y ∈ l.takeWhile p ↔ y ∈ l ∧ p y := by
  induction l with
  | nil => simp
  | cons z l ih =>
    obtain ⟨hz,htail⟩ := List.pairwise_cons.mp hl
    have ih := ih htail fun x hx y hy =>
      hp x (List.mem_cons_of_mem z hx) y (List.mem_cons_of_mem z hy)
    by_cases hpz : p z
    · rw [List.takeWhile_cons_of_pos hpz, List.mem_cons, List.mem_cons, ih]
      refine ⟨fun h => ?_,fun h => h.1.imp_right fun hy => ⟨hy,h.2⟩⟩
      rcases h with rfl | h
      · exact ⟨.inl rfl,hpz⟩
      · exact ⟨.inr h.1,h.2⟩
    · rw [List.takeWhile_cons_of_neg hpz]
      refine ⟨fun h => absurd h List.not_mem_nil,fun ⟨hy,hpy⟩ => ?_⟩
      rcases List.mem_cons.mp hy with rfl | hmem
      · exact absurd hpy hpz
      · exact absurd (hp z List.mem_cons_self y hy (hz y hmem) hpy) hpz

end CoroutineWebserve.OrderedSet
