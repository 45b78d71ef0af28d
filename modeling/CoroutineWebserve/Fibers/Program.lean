import Mathlib.Logic.Hydra
import Mathlib.Logic.Relation
import Mathlib.Tactic.Abel
import Mathlib.Tactic.Common

/-!
# Programs that are resumed

A program runs until it ends or gives up control, and goes on where it stood when it is resumed.
A pool holds the programs that wait for their turn, first come first served, and those that are
parked under a name until another program wakes them. However the programs branch on the state
that they share, a pool drains: every resumption replaces a program by finitely many of its parts.
-/
namespace CoroutineWebserve.Fibers
open Relation

/-! ### Wait lists -/

section WaitList
variable {N α β : Type*} [DecidableEq N]

/-- The first entry that waits under the name, and the others. -/
def takeFirst (n : N) : List (N × α) → Option (α × List (N × α))
  | [] => none
  | e :: l => if e.1 = n then some (e.2,l) else (takeFirst n l).map fun r => (r.1,e :: r.2)

theorem takeFirst_perm {n : N} {l l' : List (N × α)} {x : α} (h : takeFirst n l = some (x,l')) :
    l.Perm ((n,x) :: l') := by
  induction l generalizing l' with
  | nil => cases h
  | cons e l ih =>
    rw [takeFirst] at h
    split at h
    · next hn =>
      cases h
      rw [← hn]
    · obtain ⟨r,hr,heq⟩ := Option.map_eq_some_iff.mp h
      cases heq
      exact ((ih hr).cons e).trans (.swap ..)

theorem takeFirst_rel {R : α → β → Prop} {n : N} {l : List (N × α)} {k : List (N × β)}
    (h : List.Forall₂ (fun x y => x.1 = y.1 ∧ R x.2 y.2) l k) :
    (takeFirst n l = none ∧ takeFirst n k = none) ∨
      ∃ x l' y k', takeFirst n l = some (x,l') ∧ takeFirst n k = some (y,k') ∧ R x y ∧
        List.Forall₂ (fun x y => x.1 = y.1 ∧ R x.2 y.2) l' k' := by
  induction h with
  | nil => exact .inl ⟨rfl,rfl⟩
  | @cons d e l k hde htail ih =>
    rw [takeFirst, takeFirst, hde.1]
    by_cases hn : e.1 = n
    · rw [if_pos hn, if_pos hn]
      exact .inr ⟨_,_,_,_,rfl,rfl,hde.2,htail⟩
    · rw [if_neg hn, if_neg hn]
      rcases ih with ⟨hl,hk⟩ | ⟨x,l',y,k',hl,hk,hxy,hrest⟩
      · rw [hl, hk]
        exact .inl ⟨rfl,rfl⟩
      · rw [hl, hk]
        exact .inr ⟨_,_,_,_,rfl,rfl,hxy,.cons hde hrest⟩

end WaitList

/-! ### Programs and pools -/

/-- What a callback does, as far as the scheduler sees it. `act` works on the state that the
callbacks share, and the rest may depend on what it found there. `reschedule` schedules the
fiber that runs and holds it, `park` leaves it under a name for a `wake` to schedule. -/
inductive Program (N S : Type*)
  | done
  | throw
  | act (f : S → S) (next : S → Program N S)
  | schedule (cb next : Program N S)
  | yieldToReady (next : Program N S)
  | reschedule (next : Program N S)
  | park (n : N) (next : Program N S)
  | wake (n : N) (next : Program N S)

structure Pool (N S : Type*) where
  queue : List (Program N S)
  parked : List (N × Program N S)
  shared : S

variable {N S : Type*} [DecidableEq N]

namespace Pool

/-- Put a program at the end of the queue. -/
def push (a : Pool N S) (p : Program N S) : Pool N S := { a with queue := a.queue++[p] }

/-- Schedule the first program that is parked under the name, if there is one. -/
def wake (a : Pool N S) (n : N) : Pool N S :=
  match takeFirst n a.parked with
  | none => a
  | some (q,l) => { a with parked := l }.push q

/-- Run a program until it ends or gives up control. -/
def resume (a : Pool N S) : Program N S → Pool N S
  | .done => a
  | .throw => a
  | .act f next => resume { a with shared := f a.shared } (next a.shared)
  | .schedule cb next => (a.push cb).resume next
  | .yieldToReady next => a.push next
  | .reschedule next => a.push next
  | .park n next => { a with parked := a.parked++[(n,next)] }
  | .wake n next => (a.wake n).resume next

/-- One turn: the program that came first is resumed. -/
def turn (a : Pool N S) : Option (Pool N S) :=
  match a.queue with
  | [] => none
  | p :: rest => some ({ a with queue := rest }.resume p)

/-- The turns from one pool to another. -/
def Turns : Pool N S → Pool N S → Prop := ReflTransGen fun a b => a.turn = some b

end Pool

/-! ### Termination -/

/-- A program that another one goes on with or schedules. -/
inductive Program.Part : Program N S → Program N S → Prop
  | act (f next s) : Part (next s) (.act f next)
  | scheduled (cb next) : Part cb (.schedule cb next)
  | schedule (cb next) : Part next (.schedule cb next)
  | yieldToReady (next) : Part next (.yieldToReady next)
  | reschedule (next) : Part next (.reschedule next)
  | park (n next) : Part next (.park n next)
  | wake (n next) : Part next (.wake n next)

omit [DecidableEq N] in
theorem Program.part_wf : WellFounded (Part (N := N) (S := S)) := by
  refine ⟨fun p => ?_⟩
  induction p with
  | done => exact ⟨_,fun q h => nomatch h⟩
  | throw => exact ⟨_,fun q h => nomatch h⟩
  | act f next ih => exact ⟨_,fun | _,.act _ _ s => ih s⟩
  | schedule cb next ihcb ih => exact ⟨_,fun | _,.scheduled .. => ihcb | _,.schedule .. => ih⟩
  | yieldToReady next ih => exact ⟨_,fun | _,.yieldToReady _ => ih⟩
  | reschedule next ih => exact ⟨_,fun | _,.reschedule _ => ih⟩
  | park n next ih => exact ⟨_,fun | _,.park .. => ih⟩
  | wake n next ih => exact ⟨_,fun | _,.wake .. => ih⟩

namespace Pool

/-- The programs that a pool holds. -/
def programs (a : Pool N S) : Multiset (Program N S) := a.queue+a.parked.map Prod.snd

omit [DecidableEq N] in
theorem programs_push (a : Pool N S) (p : Program N S) :
    (a.push p).programs = a.programs+{p} := by
  simp only [programs, push, ← Multiset.coe_add, Multiset.coe_singleton]
  exact add_right_comm _ _ _

theorem programs_wake (a : Pool N S) (n : N) : (a.wake n).programs = a.programs := by
  rw [wake]
  split
  · rfl
  · next q l h =>
    have hperm := Multiset.coe_eq_coe.mpr ((takeFirst_perm h).map Prod.snd)
    rw [programs_push, programs, programs, hperm, List.map_cons, ← Multiset.cons_coe,
      ← Multiset.singleton_add]
    abel

/-- A resumed program leaves finitely many of its parts. -/
theorem programs_resume (a : Pool N S) (p : Program N S) :
    ∃ t : Multiset (Program N S), (∀ q ∈ t, TransGen Program.Part q p) ∧
      (a.resume p).programs = a.programs+t := by
  induction p generalizing a with
  | done => exact ⟨0,by simp,(add_zero _).symm⟩
  | throw => exact ⟨0,by simp,(add_zero _).symm⟩
  | act f next ih =>
    obtain ⟨t,ht,heq⟩ := ih a.shared { a with shared := f a.shared }
    exact ⟨t,fun q hq => (ht q hq).tail (.act ..),heq⟩
  | schedule cb next _ ih =>
    obtain ⟨t,ht,heq⟩ := ih (a.push cb)
    refine ⟨{cb}+t,fun q hq => ?_,?_⟩
    · rcases Multiset.mem_add.mp hq with hq | hq
      · obtain rfl := Multiset.mem_singleton.mp hq
        exact .single (.scheduled ..)
      · exact (ht q hq).tail (.schedule ..)
    · rw [resume, heq, programs_push, add_assoc]
  | yieldToReady next _ =>
    exact ⟨{next},fun q hq => .single (Multiset.mem_singleton.mp hq ▸ .yieldToReady _),
      programs_push a next⟩
  | reschedule next _ =>
    exact ⟨{next},fun q hq => .single (Multiset.mem_singleton.mp hq ▸ .reschedule _),
      programs_push a next⟩
  | park n next _ =>
    refine ⟨{next},fun q hq => .single (Multiset.mem_singleton.mp hq ▸ .park ..),?_⟩
    rw [resume, programs, programs, List.map_append, ← Multiset.coe_add, add_assoc]
    rfl
  | wake n next ih =>
    obtain ⟨t,ht,heq⟩ := ih (a.wake n)
    exact ⟨t,fun q hq => (ht q hq).tail (.wake ..),by rw [resume, heq, programs_wake]⟩

/-- The programs after a turn are fewer in the order that lets one be replaced by its parts. -/
theorem turn_cut {a b : Pool N S} (h : a.turn = some b) :
    CutExpand (TransGen Program.Part) b.programs a.programs := by
  rw [turn] at h
  split at h
  · cases h
  · next p rest hqueue =>
    cases h
    obtain ⟨t,ht,heq⟩ := programs_resume { a with queue := rest } p
    refine ⟨t,p,ht,?_⟩
    rw [heq, programs, programs, hqueue, ← Multiset.cons_coe, ← Multiset.singleton_add]
    abel

/-- Every pool drains. -/
theorem drains (a : Pool N S) : ∃ b, a.Turns b ∧ b.queue = [] := by
  have hwf := (Program.part_wf (N := N) (S := S)).transGen.cutExpand
  induction h : a.programs using hwf.induction generalizing a with
  | _ s ih =>
    cases hturn : a.turn with
    | none =>
      refine ⟨a,.refl,?_⟩
      rw [turn] at hturn
      split at hturn
      · assumption
      · cases hturn
    | some b =>
      obtain ⟨c,hc,hnil⟩ := ih b.programs (h ▸ turn_cut hturn) b rfl
      exact ⟨c,.head hturn hc,hnil⟩

end Pool
end CoroutineWebserve.Fibers
