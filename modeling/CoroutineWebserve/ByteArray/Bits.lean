import Mathlib.Data.BitVec
import Mathlib.Data.List.Basic

/-!
# Words, their bytes and their base-128 numerals

Facts about `w`-bit words: the bytes they consist of, the zigzag maps between signed and
unsigned words, and the numerals of seven bits to the byte, lowest first.
-/
namespace CoroutineWebserve.Bits

/-- The lowest `k` bytes of a number, lowest first. -/
def littleEndian : ℕ → ℕ → List UInt8
  | 0, _ => []
  | k+1, n => UInt8.ofNat n :: littleEndian k (n/256)

/-- The number with these bytes, lowest first. -/
def ofLittleEndian : List UInt8 → ℕ
  | [] => 0
  | b :: bs => b.toNat+256*ofLittleEndian bs

@[simp] theorem littleEndian_length (k n : ℕ) : (littleEndian k n).length = k := by
  induction k generalizing n with
  | zero => rfl
  | succ k ih => rw [littleEndian, List.length_cons, ih]

theorem ofLittleEndian_littleEndian (k n : ℕ) :
    ofLittleEndian (littleEndian k n) = n%256^k := by
  induction k generalizing n with
  | zero => simp [littleEndian, ofLittleEndian, Nat.mod_one]
  | succ k ih =>
    rw [littleEndian, ofLittleEndian, ih, Nat.pow_succ', Nat.mod_mul]
    rfl

theorem littleEndian_ofLittleEndian (bs : List UInt8) :
    littleEndian bs.length (ofLittleEndian bs) = bs := by
  induction bs with
  | nil => rfl
  | cons b bs ih =>
    have hb := b.toNat_lt
    have hdiv : (b.toNat+256*ofLittleEndian bs)/256 = ofLittleEndian bs := by omega
    rw [List.length_cons, ofLittleEndian, littleEndian, hdiv, ih]
    congr 1
    apply UInt8.toNat_inj.mp
    rw [UInt8.toNat_ofNat']
    omega

theorem ofLittleEndian_lt (bs : List UInt8) : ofLittleEndian bs < 256^bs.length := by
  induction bs with
  | nil => exact Nat.one_pos
  | cons b bs ih =>
    have hb := b.toNat_lt
    rw [ofLittleEndian, List.length_cons, Nat.pow_succ']
    omega

theorem getElem?_littleEndian {k j : ℕ} (hj : j < k) (n : ℕ) :
    (littleEndian k n)[j]? = some (UInt8.ofNat (n/256^j)) := by
  induction k generalizing j n with
  | zero => exact absurd hj (Nat.not_lt_zero j)
  | succ k ih =>
    cases j with
    | zero => simp [littleEndian]
    | succ j =>
      rw [littleEndian, List.getElem?_cons_succ, ih (Nat.lt_of_succ_lt_succ hj),
        Nat.div_div_eq_div_mul, Nat.pow_succ']

theorem testBit_ofLittleEndian (bs : List UInt8) (i : ℕ) :
    (ofLittleEndian bs).testBit i = (bs[i/8]?.any fun b => b.toNat.testBit (i%8)) := by
  induction bs generalizing i with
  | nil => simp [ofLittleEndian]
  | cons b bs ih =>
    have hb : b.toNat < 2^8 := b.toNat_lt
    rw [ofLittleEndian, Nat.add_comm, show 256 = 2^8 from rfl,
      Nat.testBit_two_pow_mul_add _ hb]
    split_ifs with hi
    · rw [Nat.div_eq_of_lt hi, Nat.mod_eq_of_lt hi]
      rfl
    · obtain ⟨j,rfl⟩ := Nat.exists_eq_add_of_le' (Nat.not_lt.mp hi)
      rw [ih, Nat.add_sub_cancel, Nat.add_div_right j (by decide), Nat.add_mod_right,
        List.getElem?_cons_succ]

section words
variable {w : ℕ}

/-- The bytes of a word, lowest first. -/
def toBytes (v : BitVec w) : List UInt8 := littleEndian (w/8) v.toNat

def ofBytes (bs : List UInt8) : BitVec w := BitVec.ofNat w (ofLittleEndian bs)

@[simp] theorem toBytes_length (v : BitVec w) : (toBytes v).length = w/8 :=
  littleEndian_length ..

theorem pow_256 (hw : 8 ∣ w) : 256^(w/8) = 2^w := by
  rw [show 256 = 2^8 from rfl, ← Nat.pow_mul, Nat.mul_div_cancel' hw]

theorem ofBytes_toBytes (hw : 8 ∣ w) (v : BitVec w) : ofBytes (toBytes v) = v := by
  apply BitVec.eq_of_toNat_eq
  rw [ofBytes, toBytes, BitVec.toNat_ofNat, ofLittleEndian_littleEndian, pow_256 hw,
    Nat.mod_mod, Nat.mod_eq_of_lt v.isLt]

theorem toBytes_ofBytes (hw : 8 ∣ w) {bs : List UInt8} (hbs : bs.length = w/8) :
    toBytes (ofBytes bs : BitVec w) = bs := by
  have hlt := ofLittleEndian_lt bs
  rw [hbs, pow_256 hw] at hlt
  rw [toBytes, ofBytes, BitVec.toNat_ofNat, Nat.mod_eq_of_lt hlt, ← hbs,
    littleEndian_ofLittleEndian]

/-- The word with the bytes in the other order. -/
def reverse (v : BitVec w) : BitVec w := ofBytes (toBytes v).reverse

theorem reverse_reverse (hw : 8 ∣ w) (v : BitVec w) : reverse (reverse v) = v := by
  have hlen : (toBytes v).reverse.length = w/8 := by rw [List.length_reverse, toBytes_length]
  rw [reverse, reverse, toBytes_ofBytes hw hlen, List.reverse_reverse, ofBytes_toBytes hw]

/-- A bit keeps its place in its byte. -/
theorem getLsbD_reverse (hw : 8 ∣ w) (v : BitVec w) {i : ℕ} (hi : i < w) :
    (reverse v).getLsbD i = v.getLsbD (8*(w/8-1-i/8)+i%8) := by
  have hlt : i/8 < w/8 := Nat.div_lt_div_of_lt_of_dvd hw hi
  have hbyte : (toBytes v).reverse[i/8]? = some (UInt8.ofNat (v.toNat/256^(w/8-1-i/8))) := by
    rw [List.getElem?_reverse (by simpa using hlt), toBytes_length, toBytes,
      getElem?_littleEndian (by omega)]
  rw [reverse, ofBytes, BitVec.getLsbD_ofNat, testBit_ofLittleEndian, hbyte]
  have hpow : ∀ k, 256^k = 2^(8*k) := fun k => by rw [Nat.pow_mul]
  simp only [hi, decide_true, Bool.true_and, Option.any_some, UInt8.toNat_ofNat', hpow]
  rw [Nat.testBit_mod_two_pow, Nat.testBit_div_two_pow]
  simp [Nat.mod_lt, BitVec.getLsbD, Nat.add_comm]

theorem reverse_and (hw : 8 ∣ w) (v u : BitVec w) : reverse (v &&& u) = reverse v &&& reverse u := by
  apply BitVec.eq_of_getLsbD_eq
  intro i hi
  simp only [BitVec.getLsbD_and, getLsbD_reverse hw _ hi]

theorem reverse_or (hw : 8 ∣ w) (v u : BitVec w) : reverse (v ||| u) = reverse v ||| reverse u := by
  apply BitVec.eq_of_getLsbD_eq
  intro i hi
  simp only [BitVec.getLsbD_or, getLsbD_reverse hw _ hi]

theorem reverse_not (hw : 8 ∣ w) (v : BitVec w) : reverse (~~~v) = ~~~reverse v := by
  apply BitVec.eq_of_getLsbD_eq
  intro i hi
  have hother : 8*(w/8-1-i/8)+i%8 < w := by omega
  simp only [BitVec.getLsbD_not, getLsbD_reverse hw _ hi, hi, hother, decide_true]

/-! ### Zigzag -/

/-- `-1` is 1, `1` is 2, `-2` is 3 and so on. -/
def encodeZigzag (v : BitVec w) : BitVec w :=
  if v.slt 0#w then -v*2#w-1#w else v*2#w

def decodeZigzag (v : BitVec w) : BitVec w := v>>>1 ^^^ -(v &&& 1#w)

theorem toNat_one (hw : 1 < w) : (1#w).toNat = 1 := by
  rw [BitVec.toNat_ofNat, Nat.mod_eq_of_lt (Nat.one_lt_two_pow (by omega))]

theorem and_one (hw : 1 < w) (v : BitVec w) : v &&& 1#w = BitVec.ofNat w (v.toNat%2) := by
  have := Nat.one_lt_two_pow (n := w) (by omega)
  apply BitVec.eq_of_toNat_eq
  rw [BitVec.toNat_and, toNat_one hw, Nat.and_one_is_mod, BitVec.toNat_ofNat,
    Nat.mod_eq_of_lt (show v.toNat%2 < 2^w by omega)]

theorem decodeZigzag_even (hw : 1 < w) {v : BitVec w} (h : v.toNat%2 = 0) :
    decodeZigzag v = v>>>1 := by
  rw [decodeZigzag, and_one hw, h]
  simp

theorem decodeZigzag_odd (hw : 1 < w) {v : BitVec w} (h : v.toNat%2 = 1) :
    decodeZigzag v = ~~~(v>>>1) := by
  rw [decodeZigzag, and_one hw, h, BitVec.neg_one_eq_allOnes, BitVec.xor_allOnes]

theorem two_pow_eq (hw : 1 < w) : 2^w = 2*2^(w-1) := by
  rw [← Nat.pow_succ', Nat.succ_eq_add_one, Nat.sub_add_cancel (by omega)]

theorem slt_zero_iff (v : BitVec w) : v.slt 0#w ↔ 2^(w-1) ≤ v.toNat := by
  rw [BitVec.slt_zero_eq_msb, BitVec.msb_eq_decide, decide_eq_true_iff]

theorem toNat_encodeZigzag_neg (hw : 1 < w) {v : BitVec w} (hneg : v.slt 0#w) :
    (encodeZigzag v).toNat = 2*2^w-2*v.toNat-1 := by
  have hp := two_pow_eq hw
  have hpos := Nat.one_lt_two_pow (n := w-1) (by omega)
  have hlt := v.isLt
  have hge := (slt_zero_iff v).mp hneg
  have h2 : (2#w).toNat = 2%2^w := by rw [BitVec.toNat_ofNat]
  rw [encodeZigzag, if_pos hneg, BitVec.toNat_sub, BitVec.toNat_mul, BitVec.toNat_neg,
    toNat_one hw, h2, hp]
  generalize 2^(w-1) = p at *
  rw [Nat.mod_eq_of_lt (show 2*p-v.toNat < 2*p by omega), Nat.mul_mod_mod, Nat.add_mod_mod,
    show 2*p-1+(2*p-v.toNat)*2 = 2*p+(2*(2*p)-2*v.toNat-1) by omega, Nat.add_mod_left,
    Nat.mod_eq_of_lt (by omega)]

theorem toNat_encodeZigzag_nonneg (hw : 1 < w) {v : BitVec w} (hneg : ¬v.slt 0#w) :
    (encodeZigzag v).toNat = 2*v.toNat := by
  have hp := two_pow_eq hw
  have hlt := mt (slt_zero_iff v).mpr hneg
  have h2 : (2#w).toNat = 2%2^w := by rw [BitVec.toNat_ofNat]
  rw [encodeZigzag, if_neg hneg, BitVec.toNat_mul, h2, Nat.mul_mod_mod,
    Nat.mod_eq_of_lt (by omega), Nat.mul_comm]

theorem decodeZigzag_encodeZigzag (hw : 1 < w) (v : BitVec w) :
    decodeZigzag (encodeZigzag v) = v := by
  have hp := two_pow_eq hw
  have hlt := v.isLt
  by_cases hneg : v.slt 0#w
  · have he := toNat_encodeZigzag_neg hw hneg
    have hge := (slt_zero_iff v).mp hneg
    rw [decodeZigzag_odd hw (by omega)]
    apply BitVec.eq_of_toNat_eq
    rw [BitVec.toNat_not, BitVec.toNat_ushiftRight, he, Nat.shiftRight_eq_div_pow]
    omega
  · have he := toNat_encodeZigzag_nonneg hw hneg
    rw [decodeZigzag_even hw (by omega)]
    apply BitVec.eq_of_toNat_eq
    rw [BitVec.toNat_ushiftRight, he, Nat.shiftRight_eq_div_pow]
    omega

/-! ### Base 128 -/

/-- The lowest seven bits in each byte, and its high bit if more bytes follow. -/
def encodeVarint (v : BitVec w) : List UInt8 :=
  if v.toNat < 128 then [⟨v.setWidth 8⟩]
  else ⟨((v &&& 0x7F#w) ||| 0x80#w).setWidth 8⟩ :: encodeVarint (v>>>7)
termination_by v.toNat
decreasing_by
  rw [BitVec.toNat_ushiftRight, Nat.shiftRight_eq_div_pow]
  omega

/-- The rules of the loop: induction on the bytes that are written. -/
theorem varint_induction {P : BitVec w → Prop} (last : ∀ v : BitVec w, v.toNat < 128 → P v)
    (more : ∀ v : BitVec w, 128 ≤ v.toNat → P (v>>>7) → P v) (v : BitVec w) : P v := by
  fun_induction encodeVarint v with
  | case1 v h => exact last v h
  | case2 v h ih => exact more v (Nat.le_of_not_lt h) ih

theorem encodeVarint_last {v : BitVec w} (h : v.toNat < 128) :
    encodeVarint v = [⟨v.setWidth 8⟩] := by
  rw [encodeVarint, if_pos h]

theorem encodeVarint_more {v : BitVec w} (h : 128 ≤ v.toNat) :
    encodeVarint v = ⟨((v &&& 0x7F#w) ||| 0x80#w).setWidth 8⟩ :: encodeVarint (v>>>7) := by
  rw [encodeVarint, if_neg (Nat.not_lt.mpr h)]

theorem toNat_shiftRight_seven (v : BitVec w) : (v>>>7).toNat = v.toNat/128 := by
  rw [BitVec.toNat_ushiftRight, Nat.shiftRight_eq_div_pow]

theorem encodeVarint_ne_nil (v : BitVec w) : encodeVarint v ≠ [] := by
  rw [encodeVarint]
  split <;> simp

/-- A byte holds seven bits. -/
theorem encodeVarint_length_le {k : ℕ} {v : BitVec w} (h : v.toNat < 128^(k+1)) :
    (encodeVarint v).length ≤ k+1 := by
  induction k generalizing v with
  | zero => rw [encodeVarint_last (by omega)]; rfl
  | succ k ih =>
    rcases Nat.lt_or_ge v.toNat 128 with hlt | hge
    · rw [encodeVarint_last hlt, List.length_singleton]
      omega
    · rw [encodeVarint_more hge, List.length_cons]
      refine Nat.succ_le_succ (ih ?_)
      rw [toNat_shiftRight_seven]
      rw [Nat.pow_succ] at h
      omega

theorem getLsbD_seven (j : ℕ) : (0x7F#w).getLsbD j = decide (j < w ∧ j < 7) := by
  rw [BitVec.getLsbD_ofNat, show 0x7F = 2^7-1 from rfl, Nat.testBit_two_pow_sub_one]
  simp

/-- The high bit of a byte says that more bytes follow. -/
theorem more_byte_ge (hw : 8 ≤ w) (v : BitVec w) :
    ¬((v &&& 0x7F#w) ||| 0x80#w).setWidth 8 < 0x80#8 := by
  rw [BitVec.not_lt, BitVec.setWidth_or, BitVec.setWidth_ofNat_of_le hw]
  generalize BitVec.setWidth 8 (v &&& 0x7F#w) = x
  revert x
  decide

/-- The other bits are the lowest ones of the word. -/
theorem more_byte_and (hw : 8 ≤ w) (v : BitVec w) :
    (((v &&& 0x7F#w) ||| 0x80#w).setWidth 8 &&& 0x7F#8).setWidth w = v &&& 0x7F#w := by
  have hmask : ∀ x : BitVec 8, (x ||| 0x80#8) &&& 0x7F#8 = x &&& 0x7F#8 := by decide
  rw [BitVec.setWidth_or, BitVec.setWidth_ofNat_of_le hw, hmask]
  apply BitVec.eq_of_getLsbD_eq
  intro j hj
  simp only [BitVec.getLsbD_setWidth, BitVec.getLsbD_and, getLsbD_seven]
  by_cases h7 : j < 7
  · simp [h7, hj, show j < 8 by omega]
  · simp [h7]

theorem last_byte {v : BitVec w} (h : v.toNat < 128) :
    v.setWidth 8 < 0x80#8 ∧ (v.setWidth 8).setWidth w = v := by
  have hsmall : (v.setWidth 8).toNat = v.toNat := by
    rw [BitVec.toNat_setWidth, Nat.mod_eq_of_lt (by omega)]
  constructor
  · rw [BitVec.lt_def]
    exact hsmall.trans_lt h
  · apply BitVec.eq_of_toNat_eq
    rw [BitVec.toNat_setWidth, hsmall, Nat.mod_eq_of_lt v.isLt]

/-- The bits from `i` on are the next seven and those behind them. -/
theorem shiftLeft_split (result v : BitVec w) (i : ℕ) :
    result ||| (v &&& 0x7F#w)<<<i ||| (v>>>7)<<<(i+7) = result ||| v<<<i := by
  apply BitVec.eq_of_getLsbD_eq
  intro j hj
  simp only [BitVec.getLsbD_or, BitVec.getLsbD_shiftLeft, BitVec.getLsbD_and,
    BitVec.getLsbD_ushiftRight, getLsbD_seven]
  rcases Nat.lt_or_ge j i with hlt | hge
  · simp [hlt, show j < i+7 by omega]
  rcases Nat.lt_or_ge j (i+7) with hlt | hge'
  · simp [hlt, show j-i < w by omega, show j-i < 7 by omega]
  · simp [Nat.not_lt.mpr hge, Nat.not_lt.mpr hge', show ¬j-i < 7 by omega,
      show 7+(j-(i+7)) = j-i by omega]

end words
end CoroutineWebserve.Bits
