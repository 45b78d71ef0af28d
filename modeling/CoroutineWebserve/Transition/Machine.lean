import Mathlib.Logic.Basic
import Mathlib.Tactic.Common

/-!
# Machines and their guarded runs

A machine is a partial step function. Whatever the environment may choose, such as the
thread that moves next or the answer of a system call, is part of the label, so a run is
a list of labels. Runs are restricted by a guard on the state before a step and its label.
-/
namespace CoroutineWebserve.Transition

structure Machine (σ ι : Type*) where
  init : σ → Prop
  step : σ → ι → Option σ

namespace Machine
variable {σ ι : Type*} (M : Machine σ ι)

/-- Execute the labels one after the other; `none` when one of them is not enabled. -/
def exec : σ → List ι → Option σ
  | s, [] => some s
  | s, i :: is => (M.step s i).bind fun t => exec t is

/-- The states reached by the runs all of whose steps satisfy the guard. -/
inductive Reaches (G : σ → ι → Prop) : σ → Prop
  | init {s} (h : M.init s) : Reaches G s
  | step {s t i} (h : Reaches G s) (g : G s i) (e : M.step s i = some t) : Reaches G t

/-- The states reached by any run at all. -/
abbrev Reachable : σ → Prop := M.Reaches fun _ _ => True

variable {M}

/-- An invariant of the guarded steps holds in every state their runs reach. -/
theorem Reaches.invariant {G : σ → ι → Prop} {I : σ → Prop} {s : σ} (h : M.Reaches G s)
    (hinit : ∀ s, M.init s → I s)
    (hstep : ∀ s i t, I s → G s i → M.step s i = some t → I t) : I s := by
  induction h with
  | init h => exact hinit _ h
  | step _ g e ih => exact hstep _ _ _ ih g e

/-- A weaker guard reaches more states. -/
theorem Reaches.mono {G H : σ → ι → Prop} {s : σ} (h : M.Reaches G s)
    (hGH : ∀ s i, G s i → H s i) : M.Reaches H s := by
  induction h with
  | init h => exact .init h
  | step _ g e ih => exact .step ih (hGH _ _ g) e

theorem Reaches.reachable {G : σ → ι → Prop} {s : σ} (h : M.Reaches G s) : M.Reachable s :=
  h.mono fun _ _ _ => trivial

/-- A machine whose states carry more than those of `M`, and whose steps are steps of `M` and
include all of them, reaches the same states as `M`. -/
theorem reachable_iff_exists {τ κ : Type*} {N : Machine τ κ} (proj : τ → σ)
    (hinit : ∀ s, M.init s ↔ ∃ t, N.init t ∧ proj t = s)
    (hfrom : ∀ t j t', N.step t j = some t' → ∃ i, M.step (proj t) i = some (proj t'))
    (hto : ∀ t i s, M.step (proj t) i = some s → ∃ j t', N.step t j = some t' ∧ proj t' = s)
    {s : σ} : M.Reachable s ↔ ∃ t, N.Reachable t ∧ proj t = s := by
  constructor
  · intro h
    induction h with
    | init h =>
      obtain ⟨t,ht,rfl⟩ := (hinit _).mp h
      exact ⟨t,.init ht,rfl⟩
    | step _ _ e ih =>
      obtain ⟨t,ht,rfl⟩ := ih
      obtain ⟨j,t',hj,rfl⟩ := hto t _ _ e
      exact ⟨t',ht.step trivial hj,rfl⟩
  · rintro ⟨t,ht,rfl⟩
    induction ht with
    | init ht => exact .init ((hinit _).mpr ⟨_,ht,rfl⟩)
    | step _ _ e ih =>
      obtain ⟨i,hi⟩ := hfrom _ _ _ e
      exact ih.step trivial hi

variable (M)

/-- Every step of the run of `is` from `s` satisfies the guard. -/
def Guarded (G : σ → ι → Prop) : σ → List ι → Prop
  | _, [] => True
  | s, i :: is => G s i ∧ ∀ t ∈ M.step s i, Guarded G t is

instance Guarded.decidable (G : σ → ι → Prop) [∀ s i, Decidable (G s i)] :
    ∀ s is, Decidable (M.Guarded G s is)
  | _, [] => isTrue trivial
  | s, i :: is =>
    match h : M.step s i with
    | none => decidable_of_iff (G s i) (by simp [Guarded, h])
    | some t =>
      have := Guarded.decidable G t is
      decidable_of_iff (G s i ∧ M.Guarded G t is) (by simp [Guarded, h])

variable {M}

/-- A guarded run from a reached state ends in a reached state. -/
theorem Reaches.exec {G : σ → ι → Prop} {s t : σ} {is : List ι} (h : M.Reaches G s)
    (hg : M.Guarded G s is) (he : M.exec s is = some t) : M.Reaches G t := by
  induction is generalizing s with
  | nil =>
    obtain rfl : s = t := by simpa [Machine.exec] using he
    exact h
  | cons i is ih =>
    obtain ⟨r,hr,he⟩ := Option.bind_eq_some_iff.mp he
    exact ih (h.step hg.1 hr) (hg.2 r hr) he

theorem guarded_true (s : σ) (is : List ι) : M.Guarded (fun _ _ => True) s is := by
  induction is generalizing s with
  | nil => trivial
  | cons i is ih => exact ⟨trivial,fun t _ => ih t⟩

/-- What every step of a run keeps exactly if it satisfies the guard holds at the end of the run
exactly if it holds at the beginning and the run is guarded. -/
theorem guarded_iff {G : σ → ι → Prop} {I P : σ → Prop} {s t : σ} {is : List ι}
    (hstep : ∀ s i t, I s → M.step s i = some t → I t ∧ (P t ↔ P s ∧ G s i)) (hs : I s)
    (he : M.exec s is = some t) : P t ↔ P s ∧ M.Guarded G s is := by
  induction is generalizing s with
  | nil =>
    obtain rfl : s = t := by simpa [Machine.exec] using he
    exact (and_iff_left trivial).symm
  | cons i is ih =>
    obtain ⟨r,hr,he⟩ := Option.bind_eq_some_iff.mp he
    obtain ⟨hI,hP⟩ := hstep s i r hs hr
    have hrest : (∀ u ∈ M.step s i, M.Guarded G u is) ↔ M.Guarded G r is := by simp [hr]
    rw [ih hI he, hP, Guarded, hrest, and_assoc]

/-- What a step that starts with it keeps exactly if it satisfies the guard holds in all the states
of a run exactly if the run is guarded. -/
theorem forall_prefix_iff {G : σ → ι → Prop} {I P : σ → Prop} {s t : σ} {is : List ι}
    (hstep : ∀ s i t, I s → P s → M.step s i = some t → I t ∧ (P t ↔ G s i)) (hs : I s) (hP : P s)
    (he : M.exec s is = some t) :
    (∀ js, js <+: is → ∀ u ∈ M.exec s js, P u) ↔ M.Guarded G s is := by
  induction is generalizing s with
  | nil =>
    refine iff_of_true (fun js hjs u hu => ?_) trivial
    rw [List.prefix_nil.mp hjs] at hu
    cases hu
    exact hP
  | cons i is ih =>
    obtain ⟨r,hr,hrest⟩ := Option.bind_eq_some_iff.mp he
    obtain ⟨hI,hG⟩ := hstep s i r hs hP hr
    have hexec : ∀ js, M.exec s (i::js) = M.exec r js := fun js => by rw [Machine.exec, hr]; rfl
    rw [Guarded, ← hG]
    constructor
    · intro hall
      have hPr : P r := hall [i] ⟨is,rfl⟩ r (hexec [])
      refine ⟨hPr,fun u hu => ?_⟩
      cases hr.symm.trans hu
      refine (ih hI hPr hrest).mp fun js hjs v hv => ?_
      exact hall (i::js) ((List.prefix_cons_inj i).mpr hjs) v ((hexec js).trans hv)
    · rintro ⟨hPr,hguarded⟩ js hjs u hu
      cases js with
      | nil =>
        cases hu
        exact hP
      | cons j js =>
        obtain ⟨rfl,hpre⟩ := List.cons_prefix_cons.mp hjs
        rw [hexec] at hu
        exact (ih hI hPr hrest).mpr (hguarded r hr) js hpre u hu

/-- A run that can be executed reaches a state that passes the test its end passes. -/
theorem exists_reaches {G : σ → ι → Prop} {s : σ} (hi : M.init s) (is : List ι)
    (P : σ → Prop) (hg : M.Guarded G s is) (hP : ∃ t ∈ M.exec s is, P t) :
    ∃ t, M.Reaches G t ∧ P t := by
  obtain ⟨t,ht,hP⟩ := hP
  exact ⟨t,(Reaches.init hi).exec hg ht,hP⟩

end Machine
end CoroutineWebserve.Transition
