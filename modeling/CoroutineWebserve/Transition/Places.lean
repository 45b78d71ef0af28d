import Mathlib.Algebra.BigOperators.Group.Finset.Basic
import Mathlib.Algebra.Order.BigOperators.Group.Finset
import Mathlib.Algebra.Order.Group.Int
import Mathlib.Algebra.Group.Int.Defs
import Mathlib.Data.List.Perm.Basic
import Mathlib.Logic.Function.Basic
import Mathlib.Tactic.Abel

/-!
# Objects at places, and what threads owe

Objects that are handed from one owner to the next are at one place at a time. A counter that
threads adjust behind the fact is off by what their phases weigh together.
-/
namespace CoroutineWebserve.Transition

/-! ### Places -/

section Places
variable {P α : Type*} {holds holds' : P → List α} {p q : P} {c : α}

/-- Every object is at one place, and once there. -/
structure Exclusive (holds : P → List α) : Prop where
  nodup : ∀ p, (holds p).Nodup
  place_eq : ∀ {p q c}, c ∈ holds p → c ∈ holds q → p = q

namespace Exclusive

theorem notMem (h : Exclusive holds) (hc : c ∈ holds p) (hpq : p ≠ q) : c ∉ holds q :=
  fun hq => hpq (h.place_eq hc hq)

theorem perm (h : Exclusive holds) (hperm : ∀ r, (holds' r).Perm (holds r)) :
    Exclusive holds' where
  nodup r := (hperm r).nodup_iff.mpr (h.nodup r)
  place_eq hc hc' := h.place_eq ((hperm _).mem_iff.mp hc) ((hperm _).mem_iff.mp hc')

/-- A new object comes to `q`. -/
theorem add (h : Exclusive holds) (hnew : ∀ r, c ∉ holds r)
    (hto : (holds' q).Perm (c :: holds q)) (hother : ∀ r, r ≠ q → (holds' r).Perm (holds r)) :
    Exclusive holds' := by
  have hold : ∀ {r d}, d ∈ holds' r → r = q ∧ d = c ∨ d ∈ holds r := by
    intro r d hd
    by_cases hr : r = q
    · subst hr
      exact (List.mem_cons.mp (hto.mem_iff.mp hd)).imp_left fun hd => ⟨rfl,hd⟩
    · exact .inr ((hother r hr).mem_iff.mp hd)
  constructor
  · intro r
    by_cases hr : r = q
    · subst hr
      exact hto.nodup_iff.mpr (List.nodup_cons.mpr ⟨hnew r,h.nodup r⟩)
    · exact (hother r hr).nodup_iff.mpr (h.nodup r)
  · intro r r' d hd hd'
    rcases hold hd with ⟨rfl,rfl⟩ | hd
    · rcases hold hd' with ⟨rfl,-⟩ | hd'
      · rfl
      · exact absurd hd' (hnew _)
    · rcases hold hd' with ⟨rfl,rfl⟩ | hd'
      · exact absurd hd (hnew _)
      · exact h.place_eq hd hd'

/-- An object leaves `p`: it is at no place any more. -/
theorem remove (h : Exclusive holds) (hfrom : (holds p).Perm (c :: holds' p))
    (hother : ∀ r, r ≠ p → (holds' r).Perm (holds r)) :
    Exclusive holds' ∧ ∀ r, c ∉ holds' r := by
  have hp := List.nodup_cons.mp (hfrom.nodup_iff.mp (h.nodup p))
  have hsub : ∀ r d, d ∈ holds' r → d ∈ holds r := by
    intro r d hd
    by_cases hr : r = p
    · subst hr
      exact hfrom.mem_iff.mpr (List.mem_cons_of_mem c hd)
    · exact (hother r hr).mem_iff.mp hd
  refine ⟨⟨fun r => ?_,fun hd hd' => h.place_eq (hsub _ _ hd) (hsub _ _ hd')⟩,fun r hc => ?_⟩
  · by_cases hr : r = p
    · exact hr ▸ hp.2
    · exact (hother r hr).nodup_iff.mpr (h.nodup r)
  · obtain rfl := h.place_eq (hsub r c hc) (hfrom.mem_iff.mpr List.mem_cons_self)
    exact hp.1 hc

/-- An object moves from `p` to `q`. -/
theorem move [DecidableEq P] (h : Exclusive holds) (hpq : p ≠ q)
    (hfrom : (holds p).Perm (c :: holds' p)) (hto : (holds' q).Perm (c :: holds q))
    (hother : ∀ r, r ≠ p → r ≠ q → (holds' r).Perm (holds r)) : Exclusive holds' := by
  have hleft : (holds p).Perm (c :: Function.update holds p (holds' p) p) := by
    rwa [Function.update_self]
  have hmid := h.remove hleft fun r hr => by rw [Function.update_of_ne hr]
  refine hmid.1.add hmid.2 (q := q) ?_ fun r hr => ?_
  · rwa [Function.update_of_ne hpq.symm]
  · by_cases hrp : r = p
    · subst hrp
      rw [Function.update_self]
    · rw [Function.update_of_ne hrp]
      exact hother r hrp hr

/-- After a move every object is at a place where one was before. -/
theorem exists_of_move {d : α} {r : P} (hfrom : (holds p).Perm (c :: holds' p))
    (hto : (holds' q).Perm (c :: holds q))
    (hother : ∀ r, r ≠ p → r ≠ q → (holds' r).Perm (holds r)) (hd : d ∈ holds' r) :
    ∃ r', d ∈ holds r' := by
  by_cases hq : r = q
  · subst hq
    rcases List.mem_cons.mp (hto.mem_iff.mp hd) with rfl | hd
    · exact ⟨p,hfrom.mem_iff.mpr List.mem_cons_self⟩
    · exact ⟨r,hd⟩
  · by_cases hp : r = p
    · subst hp
      exact ⟨r,hfrom.mem_iff.mpr (List.mem_cons_of_mem c hd)⟩
    · exact ⟨r,(hother r hp hq).mem_iff.mp hd⟩

end Exclusive
end Places

/-! ### Weights -/

section Weights
variable {P T : Type*} {weight : P → ℤ} {phase : T → P} {z : ℤ}

/-- The phases of finitely many threads weigh `z` together, and the others nothing. -/
def Weighs (weight : P → ℤ) (phase : T → P) (z : ℤ) : Prop :=
  ∃ threads : Finset T, (∀ t, t ∉ threads → weight (phase t) = 0) ∧
    ∑ t ∈ threads, weight (phase t) = z

namespace Weighs

theorem zero (h : ∀ t, weight (phase t) = 0) : Weighs weight phase 0 :=
  ⟨∅,fun t _ => h t,rfl⟩

theorem eq_zero (hz : Weighs weight phase z) (h : ∀ t, weight (phase t) = 0) : z = 0 := by
  obtain ⟨threads,-,rfl⟩ := hz
  exact Finset.sum_eq_zero fun t _ => h t

/-- A thread comes to another phase. -/
theorem update [DecidableEq T] (h : Weighs weight phase z) (t : T) (p : P) :
    Weighs weight (Function.update phase t p) (z-weight (phase t)+weight p) := by
  obtain ⟨threads,hzero,rfl⟩ := h
  refine ⟨insert t threads,fun u hu => ?_,?_⟩
  · rw [Finset.mem_insert, not_or] at hu
    rw [Function.update_of_ne hu.1]
    exact hzero u hu.2
  · have hold : ∑ u ∈ insert t threads, weight (phase u) = ∑ u ∈ threads, weight (phase u) :=
      Finset.sum_insert_of_eq_zero_if_notMem (hzero t)
    have hrest : ∑ u ∈ (insert t threads).erase t, weight (Function.update phase t p u) =
        ∑ u ∈ (insert t threads).erase t, weight (phase u) :=
      Finset.sum_congr rfl fun u hu => by rw [Function.update_of_ne (Finset.ne_of_mem_erase hu)]
    rw [← hold, ← Finset.add_sum_erase _ _ (Finset.mem_insert_self t threads),
      ← Finset.add_sum_erase _ (fun u => weight (phase u)) (Finset.mem_insert_self t threads),
      hrest, Function.update_self]
    abel

/-- Where no phase weighs less than nothing, two threads weigh no more than all. -/
theorem pair_le (h : Weighs weight phase z) (hpos : ∀ p, 0 ≤ weight p) {t u : T} (htu : t ≠ u) :
    weight (phase t)+weight (phase u) ≤ z := by
  classical
  obtain ⟨threads,hzero,rfl⟩ := h
  have hall : ∑ v ∈ threads ∪ {t,u}, weight (phase v) = ∑ v ∈ threads, weight (phase v) :=
    (Finset.sum_subset Finset.subset_union_left fun v _ hv => hzero v hv).symm
  have hpair : ∑ v ∈ ({t,u} : Finset T), weight (phase v) = weight (phase t)+weight (phase u) :=
    Finset.sum_pair htu
  rw [← hpair, ← hall]
  exact Finset.sum_le_sum_of_subset_of_nonneg Finset.subset_union_right fun v _ _ => hpos _

theorem le (h : Weighs weight phase z) (hpos : ∀ p, 0 ≤ weight p) (t : T) :
    weight (phase t) ≤ z := by
  obtain ⟨threads,hzero,rfl⟩ := h
  by_cases ht : t ∈ threads
  · exact Finset.single_le_sum (f := fun v => weight (phase v)) (fun v _ => hpos _) ht
  · rw [hzero t ht]
    exact Finset.sum_nonneg fun v _ => hpos _

end Weighs
end Weights
end CoroutineWebserve.Transition
