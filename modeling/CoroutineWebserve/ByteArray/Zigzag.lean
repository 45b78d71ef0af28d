import CoroutineWebserve.ByteArray.Codec

/-!
# The arithmetic of the zigzag maps

`EncodeZigzag32` and `EncodeZigzag64` negate and double in a signed type. The language gives such
an operation a value only if the mathematical result lies in the range of the type.
-/
namespace CoroutineWebserve

namespace Bits
variable {w : ℕ}

/-- A signed operation whose result is outside the range of the type. -/
inductive Overflow
  | neg (a : ℤ)
  | mul (a b : ℤ)
deriving Repr, DecidableEq

/-- The values of the signed type of `w` bits. -/
def Representable (w : ℕ) (z : ℤ) : Prop := -2^(w-1) ≤ z ∧ z < 2^(w-1)

instance (w : ℕ) (z : ℤ) : Decidable (Representable w z) := inferInstanceAs (Decidable (_ ∧ _))

/-- `-a` in the signed type. -/
def neg (a : BitVec w) : Except Overflow (BitVec w) :=
  if Representable w (-a.toInt) then .ok (-a) else .error (.neg a.toInt)

/-- `a * b` in the signed type. -/
def mul (a b : BitVec w) : Except Overflow (BitVec w) :=
  if Representable w (a.toInt*b.toInt) then .ok (a*b) else .error (.mul a.toInt b.toInt)

/-- `encodeZigzag` operation by operation; those behind the cast to the unsigned type wrap. -/
def evalZigzag (v : BitVec w) : Except Overflow (BitVec w) :=
  if v.toInt < 0 then do
    let u ← neg v
    return u*2#w-1#w
  else mul v 2#w

/-- What the zigzag map is on the integers. -/
def zigzag (z : ℤ) : ℤ := if 0 ≤ z then 2*z else -2*z-1

/-- The bits are the right ones for every word. -/
theorem toNat_encodeZigzag (hw : 1 < w) (v : BitVec w) :
    ((encodeZigzag v).toNat : ℤ) = zigzag v.toInt := by
  have hp := two_pow_eq hw
  have hlt := v.isLt
  rw [zigzag, BitVec.toInt_eq_toNat_cond]
  by_cases hneg : v.slt 0#w
  · have hge := (slt_zero_iff v).mp hneg
    rw [toNat_encodeZigzag_neg hw hneg]
    split_ifs <;> omega
  · have hge := mt (slt_zero_iff v).mpr hneg
    rw [toNat_encodeZigzag_nonneg hw hneg]
    split_ifs <;> omega

theorem toInt_two (hw : 2 < w) : (2#w).toInt = 2 := by
  have hpow : 2^3 ≤ 2^w := Nat.pow_le_pow_right (by decide) hw
  rw [BitVec.toInt_eq_toNat_cond, BitVec.toNat_ofNat, Nat.mod_eq_of_lt (by omega),
    if_pos (by omega)]
  rfl

theorem neg_eq_ok {a r : BitVec w} : neg a = .ok r ↔ Representable w (-a.toInt) ∧ r = -a := by
  unfold neg
  split_ifs with h <;> simp [h, eq_comm]

theorem mul_eq_ok {a b r : BitVec w} :
    mul a b = .ok r ↔ Representable w (a.toInt*b.toInt) ∧ r = a*b := by
  unfold mul
  split_ifs with h <;> simp [h, eq_comm]

/-- The negation fails for the smallest value, and the product from a quarter of the range on. -/
theorem evalZigzag_eq_ok (hw : 2 < w) {v r : BitVec w} : evalZigzag v = .ok r ↔
    (-2^(w-1) < v.toInt ∧ v.toInt < 2^(w-2)) ∧ r = encodeZigzag v := by
  have hhalf : (2:ℤ)^(w-1) = 2*2^(w-2) := by
    rw [show w-1 = w-2+1 by omega, pow_succ']
  have hpos : (0:ℤ) < 2^(w-2) := Int.pow_pos (by decide)
  have hslt : v.slt 0#w ↔ v.toInt < 0 := by
    rw [BitVec.slt_iff_toInt_lt, BitVec.toInt_zero]
  unfold evalZigzag encodeZigzag
  by_cases hneg : v.toInt < 0
  · rw [if_pos hneg, if_pos (hslt.mpr hneg)]
    have hbind : (do let u ← neg v; return u*2#w-1#w) = .ok r ↔
        ∃ u, neg v = .ok u ∧ r = u*2#w-1#w := by
      cases neg v <;> simp [bind, Except.bind, pure, Except.pure, eq_comm]
    rw [hbind]
    simp only [neg_eq_ok, Representable]
    constructor
    · rintro ⟨u,⟨hu,rfl⟩,rfl⟩
      exact ⟨by omega,rfl⟩
    · rintro ⟨hv,rfl⟩
      exact ⟨_,⟨by omega,rfl⟩,rfl⟩
  · rw [if_neg hneg, if_neg (mt hslt.mp hneg), mul_eq_ok, toInt_two hw, Representable]
    apply and_congr_left'
    omega

end Bits

namespace ByteArray
open Bits

/-! ### `EncodeZigzag32` and `EncodeZigzag64` -/

namespace Checked

def EncodeZigzag32 (v : BitVec 32) : Except Overflow (BitVec 32) := evalZigzag v
def EncodeZigzag64 (v : BitVec 64) : Except Overflow (BitVec 64) := evalZigzag v

/-- What `writeInt32` hands to `writeUint32` is what the operations give. -/
theorem writeInt32_eq {σ : Type} (B : Base σ) {v r : BitVec 32} (h : EncodeZigzag32 v = .ok r)
    (s : σ) : writeInt32 B v s = writeUint32 B r s := by
  obtain ⟨-,rfl⟩ := (evalZigzag_eq_ok (by decide)).mp h
  rfl

theorem writeInt64_eq {σ : Type} (B : Base σ) {v r : BitVec 64} (h : EncodeZigzag64 v = .ok r)
    (s : σ) : writeInt64 B v s = writeUint64 B r s := by
  obtain ⟨-,rfl⟩ := (evalZigzag_eq_ok (by decide)).mp h
  rfl

end Checked

/-- The operations of `encode` stay in the range of the signed type, and the result is that of the
zigzag map on the integers. -/
def Encodes {w : ℕ} (encode : BitVec w → Except Overflow (BitVec w)) (v : BitVec w) : Prop :=
  ∃ r, encode v = .ok r ∧ (r.toNat : ℤ) = zigzag v.toInt

theorem evalZigzag_encodes_iff {w : ℕ} (hw : 2 < w) (v : BitVec w) :
    Encodes evalZigzag v ↔ -2^(w-1) < v.toInt ∧ v.toInt < 2^(w-2) := by
  constructor
  · rintro ⟨r,hr,-⟩
    exact ((evalZigzag_eq_ok hw).mp hr).1
  · intro hv
    exact ⟨_,(evalZigzag_eq_ok hw).mpr ⟨hv,rfl⟩,toNat_encodeZigzag (by omega) v⟩

/-- The smallest value cannot be negated, and a value is doubled in the signed type. -/
theorem encodes_iff (v : BitVec 32) (v' : BitVec 64) :
    (Encodes Checked.EncodeZigzag32 v ↔ -2^31 < v.toInt ∧ v.toInt < 2^30) ∧
      (Encodes Checked.EncodeZigzag64 v' ↔ -2^63 < v'.toInt ∧ v'.toInt < 2^62) :=
  ⟨evalZigzag_encodes_iff (by decide) v,evalZigzag_encodes_iff (by decide) v'⟩

/-- `-INT32_MIN` and `2^30 * 2`. -/
theorem not_encodes : Checked.EncodeZigzag32 (BitVec.intMin 32) = .error (.neg (-2^31)) ∧
    Checked.EncodeZigzag32 0x40000000#32 = .error (.mul (2^30) 2) ∧
    ¬((∀ v, Encodes Checked.EncodeZigzag32 v) ∧ ∀ v, Encodes Checked.EncodeZigzag64 v) := by
  have hneg : Checked.EncodeZigzag32 (BitVec.intMin 32) = .error (.neg (-2^31)) := by decide
  refine ⟨hneg,by decide,fun h => ?_⟩
  obtain ⟨r,hr,-⟩ := h.1 (BitVec.intMin 32)
  rw [hneg] at hr
  cases hr

end ByteArray
end CoroutineWebserve
