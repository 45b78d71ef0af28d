import CoroutineWebserve.ByteArray.Model

/-!
# The flat buffer a `ByteArray` stands for

A flat array of readable cells with a cursor. A cell that became readable by moving the
cursor, without having been written, is `none`. The room grows by whole blocks, as few as
hold what is written.
-/
namespace CoroutineWebserve.ByteArray
open Buffer

/-- The fewest blocks of `b` cells that hold `n` cells. -/
def blocksFor (b n : ℕ) : ℕ := (n+b-1)/b

theorem le_blocksFor_mul {b : ℕ} (hb : 0 < b) (n : ℕ) : n ≤ blocksFor b n*b := by
  have h := Nat.div_add_mod (n+b-1) b
  have := Nat.mod_lt (n+b-1) hb
  rw [Nat.mul_comm] at h
  unfold blocksFor
  omega

theorem blocksFor_le {b n k : ℕ} (hb : 0 < b) (h : n ≤ k*b) : blocksFor b n ≤ k := by
  refine Nat.lt_succ_iff.mp ((Nat.div_lt_iff_lt_mul hb).mpr ?_)
  rw [Nat.succ_mul]
  omega

@[simp] theorem blocksFor_zero {b : ℕ} (hb : 0 < b) : blocksFor b 0 = 0 :=
  Nat.le_zero.mp (blocksFor_le hb (Nat.zero_le _))

structure FlatBuffer (β : Type*) where
  block : ℕ
  capacity : ℕ
  cells : List (Option β)
  cursor : ℕ
  block_pos : 0 < block
  cursor_le : cursor ≤ cells.length
  cells_le : cells.length ≤ capacity

namespace FlatBuffer
variable {β : Type*}

def new (b : ℕ) (hb : 0 < b) : FlatBuffer β where
  block := b
  capacity := b
  cells := []
  cursor := 0
  block_pos := hb
  cursor_le := le_rfl
  cells_le := Nat.zero_le _

/-- The room left at the cursor. -/
def free (f : FlatBuffer β) : ℕ := f.capacity-f.cursor

theorem cursor_add_free (f : FlatBuffer β) : f.cursor+f.free = f.capacity := by
  have := f.cursor_le
  have := f.cells_le
  unfold free
  omega

/-- Overwrite or extend at the cursor. -/
def write (f : FlatBuffer β) (bs : List β) : FlatBuffer β where
  block := f.block
  capacity := f.capacity+blocksFor f.block (bs.length-f.free)*f.block
  cells := overwrite f.cells f.cursor (bs.map some)
  cursor := f.cursor+bs.length
  block_pos := f.block_pos
  cursor_le := by
    rw [overwrite_length _ _ _ f.cursor_le, List.length_map]
    exact le_max_right ..
  cells_le := by
    have h := le_blocksFor_mul f.block_pos (bs.length-f.free)
    have := f.cursor_add_free
    have := f.cells_le
    rw [overwrite_length _ _ _ f.cursor_le, List.length_map]
    omega

/-- Copy `n` cells from the cursor on and move it behind them. -/
def read (f : FlatBuffer β) (n : ℕ) (h : n ≤ f.cells.length-f.cursor) :
    List (Option β) × FlatBuffer β :=
  (window f.cells f.cursor n, { f with
    cursor := f.cursor+n
    cursor_le := by have := f.cursor_le; omega })

/-- Move the cursor; the cells it passes over become readable. -/
def setPosition (f : FlatBuffer β) (v : ℕ) (h : v ≤ f.capacity) : FlatBuffer β where
  block := f.block
  capacity := f.capacity
  cells := f.cells++List.replicate (v-f.cells.length) none
  cursor := v
  block_pos := f.block_pos
  cursor_le := by rw [List.length_append, List.length_replicate]; omega
  cells_le := by
    have := f.cells_le
    rw [List.length_append, List.length_replicate]
    omega

def clear (f : FlatBuffer β) : FlatBuffer β := new f.block f.block_pos

def call (f : FlatBuffer UInt8) : Op → Answer (Option UInt8) × FlatBuffer UInt8
  | .write buf => (.unit,f.write buf)
  | .read n =>
    if h : n ≤ f.cells.length-f.cursor then (.bytes (f.read n h).1,(f.read n h).2)
    else (.thrown "not enough len",f)
  | .setPosition v =>
    if h : v ≤ f.capacity then (.unit,f.setPosition v h)
    else (.thrown "set_position out of range",f)
  | .clear => (.unit,f.clear)
  | .toString => (.bytes (f.cells.drop f.cursor),f)
  | .getPosition => (.number f.cursor,f)
  | .getSize => (.number f.cells.length,f)
  | .getReadSize => (.number (f.cells.length-f.cursor),f)

def run : FlatBuffer UInt8 → List Op → List (Observation (Option UInt8))
  | _, [] => []
  | f, op :: ops =>
    let r := f.call op
    ⟨r.1,r.2.cursor,r.2.cells.length⟩ :: run r.2 ops

/-- The steps on which the chain keeps up with the flat buffer. A write that has to grow
needs a remainder which the comparison with the free room counts; an empty read needs a
node at the cursor. -/
def Safe (f : FlatBuffer UInt8) : Op → Prop
  | .write buf => buf.length ≤ f.free ∨ (buf.length-f.free)%f.block = 0 ∨
      f.free < (buf.length-f.free)%f.block
  | .read n => n = 0 → f.cursor < f.capacity
  | _ => True

def SafeRun : FlatBuffer UInt8 → List Op → Prop
  | _, [] => True
  | f, op :: ops => f.Safe op ∧ SafeRun (f.call op).2 ops

instance Safe.decidable (f : FlatBuffer UInt8) : ∀ op, Decidable (f.Safe op)
  | .write _ => inferInstanceAs (Decidable (_ ∨ _ ∨ _))
  | .read _ => inferInstanceAs (Decidable (_ → _))
  | .setPosition _ | .clear | .toString | .getPosition | .getSize | .getReadSize => isTrue trivial

instance SafeRun.decidable : ∀ (f : FlatBuffer UInt8) ops, Decidable (f.SafeRun ops)
  | _, [] => isTrue trivial
  | f, op :: ops =>
    have := SafeRun.decidable (f.call op).2 ops
    inferInstanceAs (Decidable (f.Safe op ∧ (f.call op).2.SafeRun ops))

end FlatBuffer

/-! ### Agreement with the specification -/

/-- The bytes that the cells leave open are arbitrary, the others are as specified. -/
def SpecifiesBytes (cells : List (Option UInt8)) (bytes : List UInt8) : Prop :=
  List.Forall₂ (fun c b => ∀ v ∈ c, v = b) cells bytes

def SpecifiesAnswer : Answer (Option UInt8) → Answer UInt8 → Prop
  | .unit, .unit => True
  | .number n, .number m => n = m
  | .bytes cs, .bytes bs => SpecifiesBytes cs bs
  | .thrown w, .thrown v => w = v
  | _, _ => False

def Specifies (o : Observation (Option UInt8)) (p : Observation UInt8) : Prop :=
  SpecifiesAnswer o.answer p.answer ∧ o.position = p.position ∧ o.size = p.size

/-- The run ends without a fault and every observation is as specified. -/
def Refines : Except Fault (List (Observation UInt8)) → List (Observation (Option UInt8)) → Prop
  | .ok obs, spec => List.Forall₂ Specifies spec obs
  | .error _, _ => False

end CoroutineWebserve.ByteArray
