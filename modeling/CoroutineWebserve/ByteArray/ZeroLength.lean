import CoroutineWebserve.ByteArray.TypedReads

/-!
# Transfers of nothing

A transfer of no bytes needs no node. The writers, the views and `toString` return before they
look at one; the reads look at `m_cur` first.
-/
namespace CoroutineWebserve.ByteArray
open Buffer

/-- The transfers of no bytes. A string has a length of 0, which takes `n` bytes. -/
inductive ZeroLength
  | read
  | readAt (position : ℕ)
  | readString (f : Format) (n : ℕ)
  | write
  | getReadBuffers (buffers : List IoVec)
  | getReadBuffersAt (buffers : List IoVec) (position : ℕ)
  | getWriteBuffers (buffers : List IoVec)
  | toString
deriving DecidableEq

namespace ZeroLength
variable (memory : ℕ → ℕ → UInt8) (host byteOrder endian : Endian) (maxSize : ℕ) (a : ByteArray)

/-- There is nothing to transfer. -/
def Applies : ZeroLength → Prop
  | readString f n => f.lengthKind.encodedLength a.rest = some n ∧
      f.storedLength host byteOrder endian a.rest = 0
  | toString => a.position = a.size
  | _ => True

/-- The call returns, and apart from the length of a string it leaves the array as it was. -/
def Returns : ZeroLength → Prop
  | read => a.read 0 = .ok ([],a)
  | readAt position => a.readAt 0 position = .ok []
  | readString f n => ∃ strings,
      f.reading (base memory host byteOrder) endian maxSize ⟨a,[]⟩ = .ok [] ⟨a.skip n,strings⟩
  | write => a.write memory [] = .ok a
  | getReadBuffers buffers => a.getReadBuffers buffers 0 = .ok (0,buffers)
  | getReadBuffersAt buffers position => a.getReadBuffersAt buffers 0 position = .ok (0,buffers)
  | getWriteBuffers buffers => a.getWriteBuffers memory buffers 0 = .ok (0,buffers,a)
  | toString => a.toString = .ok []

/-- A read finds a node at the cursor, where it starts. -/
def NodeThere : ZeroLength → Prop
  | read | readAt _ => a.position < a.capacity
  | readString _ n => a.position+n < a.capacity
  | _ => True

end ZeroLength

section zero
variable {memory : ℕ → ℕ → UInt8} {host byteOrder endian : Endian} {maxSize : ℕ} {a : ByteArray}

/-- The loop of the reads for no bytes, which still looks at the first node. -/
theorem WellFormed.readLoop_zero (h : a.WellFormed) (npos : ℕ) :
    ByteArray.readLoop a.fromCur npos 0 =
      if a.position < a.capacity then .ok ([],0) else .error .nullNode := by
  split
  · next hp =>
    rw [h.fromCur_eq hp, List.drop_eq_getElem_cons (h.index_lt hp), ByteArray.readLoop]
    rfl
  · next hp =>
    have hfull : a.position = a.capacity :=
      Nat.le_antisymm (h.position_le.trans h.size_le) (Nat.not_lt.mp hp)
    rw [h.fromCur_null hfull]
    rfl

theorem WellFormed.read_zero (h : a.WellFormed) :
    a.read 0 = if a.position < a.capacity then .ok ([],a) else .error .nullNode := by
  rw [ByteArray.read, if_neg (Nat.not_lt_zero _)]
  simp only [h.readLoop_zero]
  split
  · next hp =>
    have hstay := h.advance_eq hp 0
    rw [Nat.add_zero, Nat.div_eq_of_lt (Nat.mod_lt _ h.base_pos), Nat.add_zero, ← h.cur_eq] at hstay
    simp only [bind, Except.bind, pure, Except.pure, hstay, Nat.add_zero]
  · rfl

theorem WellFormed.readAt_zero (h : a.WellFormed) (position : ℕ) :
    a.readAt 0 position = if a.position < a.capacity then .ok [] else .error .nullNode := by
  rw [ByteArray.readAt, if_neg (Nat.not_lt_zero _)]
  simp only [h.readLoop_zero]
  split <;> rfl

theorem readString_zero (h : a.WellFormed) {f : Format} {n : ℕ}
    (hlength : f.lengthKind.encodedLength a.rest = some n)
    (hstored : f.storedLength host byteOrder endian a.rest = 0) :
    f.reading (base memory host byteOrder) endian maxSize ⟨a,[]⟩ =
      if a.position+n < a.capacity then .ok [] ⟨a.skip n,[(0,a.rest.length-n)]⟩
      else .error (.fault .nullNode) ⟨a.skip n,[(0,a.rest.length-n)]⟩ := by
  obtain ⟨hn,hrun⟩ := string_run memory host byteOrder endian maxSize h hlength
  have hread := (h.skip hn).read_zero
  rw [hrun, hstored, if_neg (Nat.not_lt_zero _), Reading.read]
  by_cases hp : a.position+n < a.capacity
  · rw [if_pos (show (a.skip n).position < (a.skip n).capacity from hp)] at hread
    simp only [base, hread, if_pos hp]
  · rw [if_neg (show ¬(a.skip n).position < (a.skip n).capacity from hp)] at hread
    simp only [base, hread, if_neg hp]

theorem ok_iff {α : Type} {p : Prop} [Decidable p] {v : α} :
    (if p then (.ok v : Except Fault α) else .error .nullNode) = .ok v ↔ p := by
  by_cases hp : p
  · exact iff_of_true (if_pos hp) hp
  · rw [if_neg hp]
    exact iff_of_false (fun herror => by cases herror) hp

/-- A transfer of no bytes returns, unless it is a read without a node at the cursor. -/
theorem zeroLength_iff (memory : ℕ → ℕ → UInt8) (host byteOrder endian : Endian) (maxSize : ℕ)
    {a : ByteArray} (h : a.WellFormed) (t : ZeroLength) (ht : t.Applies host byteOrder endian a) :
    t.Returns memory host byteOrder endian maxSize a ↔ t.NodeThere a := by
  cases t with
  | read =>
    rw [ZeroLength.Returns, ZeroLength.NodeThere, h.read_zero]
    exact ok_iff
  | readAt position =>
    rw [ZeroLength.Returns, ZeroLength.NodeThere, h.readAt_zero]
    exact ok_iff
  | readString f n =>
    obtain ⟨hlength,hstored⟩ := ht
    rw [ZeroLength.Returns, ZeroLength.NodeThere, readString_zero h hlength hstored]
    by_cases hp : a.position+n < a.capacity
    · exact iff_of_true ⟨_,if_pos hp⟩ hp
    · rw [if_neg hp]
      refine iff_of_false ?_ hp
      rintro ⟨strings,herror⟩
      cases herror
  | write => exact iff_of_true rfl trivial
  | getReadBuffers buffers =>
    refine iff_of_true ?_ trivial
    rw [ZeroLength.Returns, ByteArray.getReadBuffers, if_neg (Nat.not_lt_zero _)]
    rfl
  | getReadBuffersAt buffers position =>
    refine iff_of_true ?_ trivial
    rw [ZeroLength.Returns, ByteArray.getReadBuffersAt, if_neg (Nat.not_lt_zero _)]
    rfl
  | getWriteBuffers buffers => exact iff_of_true rfl trivial
  | toString =>
    have hend : a.position = a.size := ht
    refine iff_of_true ?_ trivial
    rw [ZeroLength.Returns, h.toString, hend, Nat.sub_self, window_zero]

end zero

/-- A node of two bytes that hold a length of 0, with the cursor at the start. -/
def emptyString : ByteArray where
  baseSize := 2
  position := 0
  capacity := 2
  size := 2
  root := [⟨2,[0,0],rfl⟩]
  cur := some 0
  blocks := 1

theorem emptyString_wellFormed : emptyString.WellFormed where
  base_pos := by decide
  uniform := .cons rfl fun n hn => absurd hn List.not_mem_nil
  root_ne := List.cons_ne_nil _ _
  capacity_eq := rfl
  position_le := by decide
  size_le := by decide
  cur_eq := rfl

theorem zeroLength_read : ZeroLength.read.Returns (fun _ _ => 0) .LITTLE_ENDIAN .LITTLE_ENDIAN
    .LITTLE_ENDIAN (2^62-1) emptyString :=
  (zeroLength_iff _ _ _ _ _ emptyString_wellFormed .read trivial).mpr (show 0 < 2 by decide)

/-- Behind the length of the empty string `m_cur` is null, and the string is read all the same. -/
theorem not_zeroLength : ¬∀ (memory : ℕ → ℕ → UInt8) (host byteOrder endian : Endian)
    (maxSize : ℕ) (a : ByteArray) (t : ZeroLength), a.WellFormed →
    t.Applies host byteOrder endian a → t.Returns memory host byteOrder endian maxSize a := by
  intro h
  obtain ⟨strings,hreturns⟩ := h (fun _ _ => 0) .LITTLE_ENDIAN .LITTLE_ENDIAN .LITTLE_ENDIAN
    (2^62-1) emptyString (.readString .F16 2) emptyString_wellFormed ⟨rfl,rfl⟩
  have hrun : Format.reading (base (fun _ _ => 0) .LITTLE_ENDIAN .LITTLE_ENDIAN) .LITTLE_ENDIAN
      (2^62-1) .F16 ⟨emptyString,[]⟩ = .error (.fault .nullNode) ⟨emptyString.skip 2,[(0,0)]⟩ := rfl
  cases hrun.symm.trans hreturns

end CoroutineWebserve.ByteArray
