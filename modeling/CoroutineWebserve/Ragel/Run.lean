import Mathlib.Tactic.Common

/-!
# Runs of a machine over bytes

A generated machine goes from byte to byte until one stops it. A part of the input is read
whatever follows it, and parts that are read one after the other are read together.
-/
namespace CoroutineWebserve.Ragel
variable {σ κ : Type*}

/-- What a machine in state `σ` does with a byte: it stops before the byte or behind it, or it
goes on; `calls` are what it calls back with. -/
inductive Outcome (σ κ : Type*)
  | stop (s : σ)
  | done (s : σ) (calls : List κ)
  | go (s : σ) (calls : List κ)

/-- The state at the end of a run from offset `p` on, the offset at which it stops, and its
calls. -/
def run (next : σ → ℕ → UInt8 → Outcome σ κ) : σ → ℕ → List UInt8 → σ × ℕ × List κ
  | s, p, [] => (s,p,[])
  | s, p, b :: bs =>
    match next s p b with
    | .stop s => (s,p,[])
    | .done s calls => (s,p+1,calls)
    | .go s calls =>
      let (s,q,more) := run next s (p+1) bs
      (s,q,calls++more)

variable {next : σ → ℕ → UInt8 → Outcome σ κ} {s t u : σ} {p : ℕ} {b : UInt8}
  {bs cs : List UInt8} {calls more : List κ}

theorem run_done (h : next s p b = .done t calls) (rest : List UInt8) :
    run next s p (b :: rest) = (t,p+1,calls) := by
  rw [run, h]

/-- From offset `p` on, `bs` is read with these calls and leads from `s` to `t`. -/
def Reads (next : σ → ℕ → UInt8 → Outcome σ κ) (p : ℕ) (s : σ) (bs : List UInt8)
    (calls : List κ) (t : σ) : Prop :=
  ∀ rest, run next s p (bs++rest) = ((run next t (p+bs.length) rest).1,
    (run next t (p+bs.length) rest).2.1,calls++(run next t (p+bs.length) rest).2.2)

namespace Reads

theorem refl (next : σ → ℕ → UInt8 → Outcome σ κ) (p : ℕ) (s : σ) : Reads next p s [] [] s :=
  fun _ => rfl

theorem trans (h : Reads next p s bs calls t) (h' : Reads next (p+bs.length) t cs more u) :
    Reads next p s (bs++cs) (calls++more) u := by
  intro rest
  rw [List.append_assoc, h, h', List.length_append, Nat.add_assoc, List.append_assoc]

/-- One byte. -/
theorem of_go (h : next s p b = .go t calls) : Reads next p s [b] calls t := by
  intro rest
  rw [List.singleton_append, run, h]
  rfl

theorem cons (h : Reads next p s [b] calls t) (h' : Reads next (p+1) t bs more u) :
    Reads next p s (b :: bs) (calls++more) u := h.trans h'

/-- A part is read in one way. -/
theorem unique (h : Reads next p s bs calls t) (h' : Reads next p s bs more u) : t = u := by
  have hend := (h []).symm.trans (h' [])
  simp only [run] at hend
  exact congrArg Prod.fst hend

/-- A part, and the byte that ends the run. -/
theorem run_done (h : Reads next p s bs calls t) (h' : next t (p+bs.length) b = .done u more)
    (rest : List UInt8) :
    run next s p (bs++b :: rest) = (u,p+bs.length+1,calls++more) := by
  rw [h, Ragel.run_done h']

end Reads

/-! ### Bytes at which nothing is done -/

section Silent
variable {S A : Type*} [DecidableEq S] (error : S) (step : S → UInt8 → S × List A)

/-- The state behind bytes at which a machine with transitions `step` only moves on. -/
def silent : S → List UInt8 → Option S
  | s, [] => some s
  | s, b :: bs =>
    if (step s b).1 = error ∨ (step s b).2.isEmpty = false then none
    else silent (step s b).1 bs

variable {error step}

theorem silent_cons {s t : S} {b : UInt8} (hstep : step s b = (t,[])) (ht : t ≠ error)
    (bs : List UInt8) : silent error step s (b :: bs) = silent error step t bs := by
  rw [silent, hstep, if_neg (by simp [ht])]

theorem silent_loop {s : S} (hs : s ≠ error) {bs : List UInt8}
    (h : ∀ b ∈ bs, step s b = (s,[])) : silent error step s bs = some s := by
  induction bs with
  | nil => rfl
  | cons b bs ih =>
    rw [silent_cons (h b List.mem_cons_self) hs]
    exact ih fun c hc => h c (List.mem_cons_of_mem _ hc)

/-- What is read silently is read without a call, if nothing but the state changes at a byte
without actions. -/
theorem Reads.of_silent (put : S → σ)
    (hput : ∀ s t p b, step s b = (t,[]) → t ≠ error → next (put s) p b = .go (put t) [])
    {s t : S} (h : silent error step s bs = some t) (p : ℕ) :
    Reads next p (put s) bs [] (put t) := by
  induction bs generalizing s p with
  | nil =>
    cases h
    exact .refl next p _
  | cons b bs ih =>
    rw [silent] at h
    split_ifs at h with hno
    rw [not_or, Bool.not_eq_false, List.isEmpty_iff] at hno
    have hgo := hput s (step s b).1 p b (Prod.ext rfl hno.2) hno.1
    exact (Reads.of_go hgo).cons (ih h (p+1))

end Silent
end CoroutineWebserve.Ragel
