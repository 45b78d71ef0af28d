import CoroutineWebserve.ByteArray.TypedReads
import Mathlib.Algebra.BigOperators.Group.List.Basic
import Mathlib.Algebra.BigOperators.Ring.Finset

/-!
# Varints from arbitrary bytes

`readUint32` and `readUint64` once more, beside each call the amounts by which it has shifted. What
the bytes are does not matter: the loop ends at its bound if no byte ends the number before.
-/
namespace CoroutineWebserve.ByteArray
open scoped BigOperators

/-- A call and the amounts by which it has shifted. -/
structure Shifting where
  call : Call
  shifts : List ℕ

namespace Shifting

abbrev Reading (α : Type) := EStateM Thrown Shifting α

variable (B : Base ByteArray) {w : ℕ}

def readFuint8 : Reading (BitVec 8) := fun s =>
  match ByteArray.Reading.readFuint8 B s.call with
  | .ok b call => .ok b { s with call }
  | .error e call => .error e { s with call }

/-- `v << i`. -/
def shiftLeft (v : BitVec w) (i : ℕ) : Reading (BitVec w) := fun s =>
  .ok (v<<<i) { s with shifts := s.shifts++[i] }

/-- The loop of `readUint32` and `readUint64` from bit `i` on. -/
def readVarint (i : ℕ) (result : BitVec w) : Reading (BitVec w) :=
  if i < w then do
    let b ← readFuint8 B
    if b < 0x80#8 then
      let group ← shiftLeft (b.setWidth w) i
      return result ||| group
    else
      let group ← shiftLeft ((b &&& 0x7F#8).setWidth w) i
      readVarint (i+7) (result ||| group)
  else return result
termination_by w-i

def readUint32 : Reading (BitVec 32) := readVarint B 0 0#32
def readUint64 : Reading (BitVec 64) := readVarint B 0 0#64

/-- What the caller of a read sees. -/
def forget {α : Type} : EStateM.Result Thrown Shifting α → EStateM.Result Thrown Call α
  | .ok v s => .ok v s.call
  | .error e s => .error e s.call

variable {B} {s : Shifting} {i : ℕ} {result : BitVec w}

/-! ### One round -/

/-- The array ends in front of the byte, which ends the call. -/
theorem readVarint_error (hi : i < w) {e : Thrown} {call : Call}
    (h : ByteArray.Reading.readFuint8 B s.call = .error e call) :
    readVarint B i result s = .error e { s with call } := by
  have hread : readFuint8 B s = .error e { s with call } := by rw [readFuint8, h]
  rw [readVarint, if_pos hi]
  change EStateM.bind (readFuint8 B) _ s = _
  rw [EStateM.bind, hread]

theorem readVarint_last (hi : i < w) {b : BitVec 8} (hb : b < 0x80#8) {call : Call}
    (h : ByteArray.Reading.readFuint8 B s.call = .ok b call) :
    readVarint B i result s = .ok (result ||| (b.setWidth w)<<<i) ⟨call,s.shifts++[i]⟩ := by
  have hread : readFuint8 B s = .ok b { s with call } := by rw [readFuint8, h]
  rw [readVarint, if_pos hi]
  change EStateM.bind (readFuint8 B) _ s = _
  rw [EStateM.bind, hread]
  simp only [if_pos hb]
  rfl

theorem readVarint_more (hi : i < w) {b : BitVec 8} (hb : ¬b < 0x80#8) {call : Call}
    (h : ByteArray.Reading.readFuint8 B s.call = .ok b call) :
    readVarint B i result s =
      readVarint B (i+7) (result ||| ((b &&& 0x7F#8).setWidth w)<<<i) ⟨call,s.shifts++[i]⟩ := by
  have hread : readFuint8 B s = .ok b { s with call } := by rw [readFuint8, h]
  rw [readVarint, if_pos hi]
  change EStateM.bind (readFuint8 B) _ s = _
  rw [EStateM.bind, hread]
  simp only [if_neg hb]
  rfl

theorem readVarint_done (hi : ¬i < w) : readVarint B i result s = .ok result s := by
  rw [readVarint, if_neg hi]
  rfl

/-- The amounts are written down and not looked at. -/
theorem forget_readVarint (B : Base ByteArray) (i : ℕ) (result : BitVec w) (s : Shifting) :
    forget (readVarint B i result s) = ByteArray.Reading.readVarint B i result s.call := by
  by_cases hi : i < w
  · cases h : ByteArray.Reading.readFuint8 B s.call with
    | error e call =>
      rw [readVarint_error hi h, ByteArray.Reading.readVarint, if_pos hi,
        ByteArray.Reading.bind_error h]
      rfl
    | ok b call =>
      rw [ByteArray.Reading.readVarint, if_pos hi, ByteArray.Reading.bind_ok h]
      by_cases hb : b < 0x80#8
      · rw [readVarint_last hi hb h, if_pos hb]
        rfl
      · rw [readVarint_more hi hb h, if_neg hb]
        exact forget_readVarint B (i+7) _ _
  · rw [readVarint_done hi, ByteArray.Reading.readVarint, if_neg hi]
    rfl
termination_by w-i

end Shifting

/-! ### What the bytes say -/

/-- Up to the first byte below `0x80`, but at most `n` bytes. -/
def consumed (n : ℕ) (bytes : List UInt8) : ℕ :=
  match bytes.findIdx? (· < 0x80) with
  | some j => if j+1 ≤ n then j+1 else n
  | none => n

/-- The number whose groups of seven bits are in the first `k` bytes. -/
def groupSum (bytes : List UInt8) (k : ℕ) : ℕ :=
  ∑ i ∈ Finset.range k, (bytes.getD i 0 &&& 0x7F).toNat*2^(7*i)

theorem consumed_zero (bytes : List UInt8) : consumed 0 bytes = 0 := by
  unfold consumed
  split <;> simp

theorem consumed_nil (n : ℕ) : consumed n [] = n := rfl

theorem consumed_last {b : UInt8} (hb : b < 0x80) (n : ℕ) (bytes : List UInt8) :
    consumed (n+1) (b :: bytes) = 1 := by
  simp [consumed, List.findIdx?_cons, hb]

theorem consumed_more {b : UInt8} (hb : ¬b < 0x80) (n : ℕ) (bytes : List UInt8) :
    consumed (n+1) (b :: bytes) = consumed n bytes+1 := by
  unfold consumed
  rw [List.findIdx?_cons, if_neg (by simpa using hb)]
  cases bytes.findIdx? (· < 0x80) with
  | none => rfl
  | some j =>
    simp only [Option.map_some]
    split_ifs <;> omega

theorem groupSum_zero (bytes : List UInt8) : groupSum bytes 0 = 0 := rfl

theorem groupSum_cons (b : UInt8) (bytes : List UInt8) (k : ℕ) :
    groupSum (b :: bytes) (k+1) = (b &&& 0x7F).toNat+2^7*groupSum bytes k := by
  simp only [groupSum, Finset.sum_range_succ', List.getD_cons_succ, List.getD_cons_zero,
    Finset.mul_sum, Nat.mul_add, Nat.pow_add, Nat.mul_zero, Nat.pow_zero, Nat.mul_one]
  rw [Nat.add_comm]
  congr 1
  apply Finset.sum_congr rfl
  intro i _
  rw [Nat.mul_left_comm (2^7), Nat.mul_comm (2^7)]

section words
variable {w i : ℕ}

/-- Bits that come behind those of a number are added to it. -/
theorem toNat_or_shiftLeft {result : BitVec w} (hresult : result.toNat < 2^i) (group : ℕ) :
    (result ||| BitVec.ofNat w group<<<i).toNat = (result.toNat+group*2^i)%2^w := by
  have hgroup : (BitVec.ofNat w group<<<i).toNat = group<<<i%2^w := by
    rw [BitVec.toNat_shiftLeft, BitVec.toNat_ofNat, Nat.shiftLeft_eq, Nat.mod_mul_mod,
      Nat.shiftLeft_eq]
  have hsum : group*2^i+result.toNat = group<<<i ||| result.toNat := by
    rw [← Nat.shiftLeft_eq, Nat.shiftLeft_add_eq_or_of_lt hresult]
  rw [BitVec.toNat_or, hgroup, Nat.add_comm, hsum, Nat.or_mod_two_pow,
    Nat.mod_eq_of_lt result.isLt, Nat.or_comm]

theorem setWidth_last {b : UInt8} (hb : b < 0x80) :
    b.toBitVec.setWidth w = BitVec.ofNat w (b &&& 0x7F).toNat := by
  have hsame : (b &&& 0x7F).toNat = b.toNat := by
    have hlt : b.toNat < 2^7 := hb
    rw [UInt8.toNat_and, show (0x7F : UInt8).toNat = 2^7-1 from rfl,
      Nat.and_two_pow_sub_one_eq_mod, Nat.mod_eq_of_lt hlt]
  rw [hsame, ← BitVec.ofNat_toNat]
  rfl

theorem setWidth_more (b : UInt8) :
    (b.toBitVec &&& 0x7F#8).setWidth w = BitVec.ofNat w (b &&& 0x7F).toNat := by
  rw [← BitVec.ofNat_toNat]
  rfl

/-- With the next group the number is still below the next bit. -/
theorem round_lt {result : BitVec w} (hresult : result.toNat < 2^i) (b : UInt8) :
    (result ||| BitVec.ofNat w (b &&& 0x7F).toNat<<<i).toNat < 2^(i+7) := by
  have hb : (b &&& 0x7F).toNat ≤ 127 := Nat.and_le_right
  have hle := Nat.mul_le_mul_right (2^i) hb
  have hpow : 2^(i+7) = 128*2^i := by rw [Nat.pow_add, Nat.mul_comm]
  have hmod := Nat.mod_le (result.toNat+(b &&& 0x7F).toNat*2^i) (2^w)
  rw [toNat_or_shiftLeft hresult]
  omega

theorem round_value {result : BitVec w} (hresult : result.toNat < 2^i) (b : UInt8)
    (bytes : List UInt8) (k : ℕ) :
    ((result ||| BitVec.ofNat w (b &&& 0x7F).toNat<<<i).toNat+groupSum bytes k*2^(i+7))%2^w =
      (result.toNat+groupSum (b :: bytes) (k+1)*2^i)%2^w := by
  have hpow : groupSum bytes k*2^(i+7) = 2^7*groupSum bytes k*2^i := by
    rw [Nat.pow_add, Nat.mul_comm (2^i), ← Nat.mul_assoc, Nat.mul_comm (2^7)]
  rw [toNat_or_shiftLeft hresult, Nat.mod_add_mod, groupSum_cons, hpow, Nat.add_mul,
    Nat.add_assoc]

end words

namespace Shifting
variable (memory : ℕ → ℕ → UInt8) (host byteOrder : Endian)

/-- What the loop does from bit `i` on, where it takes at most `n` more bytes: the induction is on
these, and all that has been collected so far stands below bit `i`. -/
theorem readVarint_spec {w i n : ℕ} (hn : n = (w-i+6)/7) {result : BitVec w}
    (hresult : result.toNat < 2^i) (s : Shifting) (h : s.call.array.WellFormed)
    (hs : ∀ j ∈ s.shifts, j < w) : ∃ shifts, (∀ j ∈ shifts, j < w) ∧
      (consumed n s.call.array.rest ≤ s.call.array.rest.length ∧
          (∃ v, readVarint (base memory host byteOrder) i result s =
              .ok v ⟨{ s.call with
                array := s.call.array.skip (consumed n s.call.array.rest) },shifts⟩ ∧
            v.toNat = (result.toNat+
              groupSum s.call.array.rest (consumed n s.call.array.rest)*2^i)%2^w) ∨
        s.call.array.rest.length < consumed n s.call.array.rest ∧
          readVarint (base memory host byteOrder) i result s =
            .error (.fault (.outOfRange "not enough len"))
              ⟨{ s.call with array := s.call.array.skip s.call.array.rest.length },shifts⟩) := by
  induction n generalizing i result s with
  | zero =>
    have hi : ¬i < w := by omega
    refine ⟨s.shifts,hs,.inl ?_⟩
    rw [consumed_zero, groupSum_zero, h.skip_zero]
    refine ⟨Nat.zero_le _,result,readVarint_done hi,?_⟩
    rw [Nat.zero_mul, Nat.add_zero, Nat.mod_eq_of_lt result.isLt]
  | succ n ih =>
    have hi : i < w := by omega
    cases hrest : s.call.array.rest with
    | nil =>
      refine ⟨s.shifts,hs,.inr ⟨Nat.succ_pos n,?_⟩⟩
      rw [readVarint_error hi (ByteArray.Reading.readFuint8_short h hrest), List.length_nil,
        h.skip_zero]
    | cons b bytes =>
      have hread : ByteArray.Reading.readFuint8 (base memory host byteOrder) s.call =
          .ok b.toBitVec { s.call with array := s.call.array.skip 1 } :=
        ByteArray.Reading.readFuint8_ok h hrest
      have hshifts : ∀ j ∈ s.shifts++[i], j < w := by
        intro j hj
        rcases List.mem_append.mp hj with hj | hj
        · exact hs j hj
        · rwa [List.mem_singleton.mp hj]
      by_cases hb : b < 0x80
      · -- the last byte
        refine ⟨_,hshifts,.inl ?_⟩
        rw [consumed_last hb]
        refine ⟨by simp,_,readVarint_last hi hb hread,?_⟩
        rw [setWidth_last hb, toNat_or_shiftLeft hresult, groupSum_cons, groupSum_zero,
          Nat.mul_zero, Nat.add_zero]
      · have hwell : (s.call.array.skip 1).WellFormed := h.skip (by simp [hrest])
        have hmore : readVarint (base memory host byteOrder) i result s = _ :=
          readVarint_more hi hb hread
        have hskip := ByteArray.Reading.skip_one_rest hrest
        rw [setWidth_more] at hmore
        have hn' : n = (w-(i+7)+6)/7 := by omega
        obtain ⟨shifts,hshifts,hspec⟩ := ih hn' (round_lt hresult b)
          ⟨{ s.call with array := s.call.array.skip 1 },s.shifts++[i]⟩ hwell hshifts
        dsimp only at hspec
        rw [hskip] at hspec
        refine ⟨shifts,hshifts,?_⟩
        rw [consumed_more hb, hmore, List.length_cons]
        refine hspec.imp ?_ ?_
        · rintro ⟨hk,v,hrun,hv⟩
          refine ⟨Nat.succ_le_succ hk,v,?_,?_⟩
          · rw [hrun, skip_skip, Nat.add_comm 1]
          · rw [hv, round_value hresult]
        · rintro ⟨hk,hrun⟩
          refine ⟨Nat.succ_lt_succ hk,?_⟩
          rw [hrun, skip_skip, Nat.add_comm 1]

end Shifting

/-- `read` takes the bytes up to the one that ends the number, but at most `n`, and gives their sum
modulo the size of the word, or it throws because there are fewer. It shifts by less than the
width of the word. -/
def Decodes {w : ℕ} (read : Shifting.Reading (BitVec w)) (n : ℕ) (a : ByteArray) : Prop :=
  ∃ shifts, (∀ i ∈ shifts, i < w) ∧
    (consumed n a.rest ≤ a.rest.length ∧
        (∃ v, read ⟨⟨a,[]⟩,[]⟩ = .ok v ⟨⟨a.skip (consumed n a.rest),[]⟩,shifts⟩ ∧
          v.toNat = groupSum a.rest (consumed n a.rest)%2^w) ∨
      a.rest.length < consumed n a.rest ∧
        ∃ left, read ⟨⟨a,[]⟩,[]⟩ = .error (.fault (.outOfRange "not enough len")) ⟨left,shifts⟩)

theorem readVarint_decodes (memory : ℕ → ℕ → UInt8) (host byteOrder : Endian) {a : ByteArray}
    (h : a.WellFormed) (w : ℕ) :
    Decodes (Shifting.readVarint (base memory host byteOrder) 0 0#w) ((w+6)/7) a := by
  have hn : (w+6)/7 = (w-0+6)/7 := rfl
  have hresult : (0#w).toNat < 2^0 := by simp
  obtain ⟨shifts,hshifts,hspec⟩ := Shifting.readVarint_spec memory host byteOrder hn hresult
    ⟨⟨a,[]⟩,[]⟩ h nofun
  refine ⟨shifts,hshifts,hspec.imp ?_ ?_⟩
  · rintro ⟨hk,v,hrun,hv⟩
    refine ⟨hk,v,hrun,?_⟩
    simpa using hv
  · rintro ⟨hk,hrun⟩
    exact ⟨hk,_,hrun⟩

/-- Whatever stands at the cursor. -/
theorem decodes (memory : ℕ → ℕ → UInt8) (host byteOrder : Endian) {a : ByteArray}
    (h : a.WellFormed) :
    Decodes (Shifting.readUint32 (base memory host byteOrder)) 5 a ∧
      Decodes (Shifting.readUint64 (base memory host byteOrder)) 10 a :=
  ⟨readVarint_decodes memory host byteOrder h 32,readVarint_decodes memory host byteOrder h 64⟩

/-- Any bytes can stand at the cursor. -/
theorem exists_rest (bytes : List UInt8) : ∃ a : ByteArray, a.WellFormed ∧ a.rest = bytes := by
  let a : ByteArray := ⟨bytes.length+1,0,bytes.length+1,bytes.length,
    [⟨bytes.length+1,bytes++[0],by simp⟩],some 0,1⟩
  refine ⟨a,⟨Nat.succ_pos _,.cons rfl fun n hn => absurd hn List.not_mem_nil,List.cons_ne_nil _ _,
    (Nat.one_mul _).symm,Nat.zero_le _,Nat.le_succ _,?_⟩,?_⟩
  · simp [a, nodeAt]
  · simp [a, rest, contents, Buffer.window]

/-- Eleven bytes, none of which ends a number. -/
theorem decodes_eleven : ∃ a : ByteArray, consumed 5 a.rest = 5 ∧ consumed 10 a.rest = 10 ∧
    Decodes (Shifting.readUint32 (base (fun _ _ => 0) .LITTLE_ENDIAN .LITTLE_ENDIAN)) 5 a ∧
      Decodes (Shifting.readUint64 (base (fun _ _ => 0) .LITTLE_ENDIAN .LITTLE_ENDIAN)) 10 a := by
  obtain ⟨a,ha,hrest⟩ := exists_rest (List.replicate 11 0xFF)
  refine ⟨a,?_,?_,decodes _ _ _ ha⟩
  · rw [hrest]
    decide
  · rw [hrest]
    decide

end CoroutineWebserve.ByteArray
