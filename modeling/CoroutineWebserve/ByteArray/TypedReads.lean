import CoroutineWebserve.ByteArray.Codec
import CoroutineWebserve.ByteArray.Views

/-!
# Typed reads that fail

The readers once more, in a form that keeps the state in which an exception leaves the array,
and the lengths of the strings that were allocated before it.
-/
namespace CoroutineWebserve.ByteArray
open Buffer

/-- What ends a typed read: a fault of a read of bytes, or `std::length_error`. -/
inductive Thrown
  | fault (f : Fault)
  | lengthError
deriving DecidableEq

/-- The array during a call, and for each string that was allocated its length and the number of
bytes that remained to be read. -/
structure Call where
  array : ByteArray
  strings : List (ℕ × ℕ)
deriving DecidableEq

abbrev Reading (α : Type) := EStateM Thrown Call α

namespace Reading
variable (B : Base ByteArray) (endian : Endian) (maxSize : ℕ)

/-- `read(buf, size)`. -/
def read (size : ℕ) : Reading (List UInt8) := fun s =>
  match B.read size s.array with
  | .ok (bytes,a) => .ok bytes { s with array := a }
  | .error f => .error (.fault f) s

/-- `buff.resize(len)`, where `maxSize` is the value of `max_size()`. -/
def resize (len : ℕ) : Reading Unit := fun s =>
  if len > maxSize then .error .lengthError s
  else .ok () { s with strings := s.strings++[(len,s.array.getReadSize)] }

def readObject (w : ℕ) : Reading (BitVec w) := do
  let bytes ← read B (w/8)
  return B.ofObject bytes

/-- `XX(type)`. -/
def readFixed (w : ℕ) : Reading (BitVec w) := do
  let v ← readObject B w
  return if endian = B.byteOrder then v else byteswap v

def readFint8 : Reading (BitVec 8) := readObject B 8
def readFuint8 : Reading (BitVec 8) := readObject B 8
def readFint16 : Reading (BitVec 16) := readFixed B endian 16
def readFuint16 : Reading (BitVec 16) := readFixed B endian 16
def readFint32 : Reading (BitVec 32) := readFixed B endian 32
def readFuint32 : Reading (BitVec 32) := readFixed B endian 32
def readFint64 : Reading (BitVec 64) := readFixed B endian 64
def readFuint64 : Reading (BitVec 64) := readFixed B endian 64

/-- The loop of `readUint32` and `readUint64` from bit `i` on. -/
def readVarint {w : ℕ} (i : ℕ) (result : BitVec w) : Reading (BitVec w) :=
  if i < w then do
    let b ← readFuint8 B
    if b < 0x80#8 then return result ||| (b.setWidth w)<<<i
    else readVarint (i+7) (result ||| ((b &&& 0x7F#8).setWidth w)<<<i)
  else return result
termination_by w-i

def readUint32 : Reading (BitVec 32) := readVarint B 0 0#32
def readUint64 : Reading (BitVec 64) := readVarint B 0 0#64

def readInt32 : Reading (BitVec 32) := do
  let v ← readUint32 B
  return DecodeZigzag32 v

def readInt64 : Reading (BitVec 64) := do
  let v ← readUint64 B
  return DecodeZigzag64 v

def readFloat : Reading (BitVec 32) := readFuint32 B endian
def readDouble : Reading (BitVec 64) := readFuint64 B endian

/-- What the readers of strings do behind that of the length. -/
def readString {w : ℕ} (readLength : Reading (BitVec w)) : Reading (List UInt8) := do
  let len ← readLength
  resize maxSize len.toNat
  read B len.toNat

def readStringF16 : Reading (List UInt8) := readString B maxSize (readFuint16 B endian)
def readStringF32 : Reading (List UInt8) := readString B maxSize (readFuint32 B endian)
def readStringF64 : Reading (List UInt8) := readString B maxSize (readFuint64 B endian)
def readStringVint : Reading (List UInt8) := readString B maxSize (readUint64 B)

end Reading

def Kind.reading (B : Base ByteArray) (endian : Endian) : (k : Kind) → Reading (BitVec k.width)
  | .Fint8 => Reading.readFint8 B
  | .Fuint8 => Reading.readFuint8 B
  | .Fint16 => Reading.readFint16 B endian
  | .Fuint16 => Reading.readFuint16 B endian
  | .Fint32 => Reading.readFint32 B endian
  | .Fuint32 => Reading.readFuint32 B endian
  | .Fint64 => Reading.readFint64 B endian
  | .Fuint64 => Reading.readFuint64 B endian
  | .Int32 => Reading.readInt32 B
  | .Uint32 => Reading.readUint32 B
  | .Int64 => Reading.readInt64 B
  | .Uint64 => Reading.readUint64 B
  | .Float => Reading.readFloat B endian
  | .Double => Reading.readDouble B endian

def Format.reading (B : Base ByteArray) (endian : Endian) (maxSize : ℕ) :
    Format → Reading (List UInt8)
  | .F16 => Reading.readStringF16 B endian maxSize
  | .F32 => Reading.readStringF32 B endian maxSize
  | .F64 => Reading.readStringF64 B endian maxSize
  | .Vint => Reading.readStringVint B maxSize

/-! ### What an encoding takes -/

/-- The length of a varint of at most so many groups of bits, if it is complete. -/
def varintLength : ℕ → List UInt8 → Option ℕ
  | 0, _ => some 0
  | _+1, [] => none
  | groups+1, b :: rest => if b < 0x80 then some 1 else (varintLength groups rest).map (·+1)

def Kind.isVarint : Kind → Bool
  | Int32 | Uint32 | Int64 | Uint64 => true
  | _ => false

/-- The length of the number that the bytes begin with, if it is complete. -/
def Kind.encodedLength (k : Kind) (rest : List UInt8) : Option ℕ :=
  if k.isVarint then varintLength ((k.width+6)/7) rest
  else if k.width/8 ≤ rest.length then some (k.width/8) else none

/-- The number in front of a string. -/
def Format.lengthKind : Format → Kind
  | F16 => .Fuint16
  | F32 => .Fuint32
  | F64 => .Fuint64
  | Vint => .Uint64

/-- The bytes from the position to the size. -/
def rest (a : ByteArray) : List UInt8 := window (contents a.root) a.position (a.size-a.position)

/-- The array behind a read of `n` bytes. -/
def skip (a : ByteArray) (n : ℕ) : ByteArray :=
  { a with
    position := a.position+n
    cur := nodeAt a.root ((a.position+n)/a.baseSize) }

namespace WellFormed
variable {a : ByteArray}

theorem rest_length (h : a.WellFormed) : a.rest.length = a.size-a.position := by
  have hle := h.position_le
  have hsize := h.size_le
  exact window_length _ _ _ (by rw [h.contents_length]; omega)

theorem skip_zero (h : a.WellFormed) : a.skip 0 = a := by
  rw [skip, Nat.add_zero, ← h.cur_eq]

theorem skip (h : a.WellFormed) {n : ℕ} (hn : n ≤ a.rest.length) : (a.skip n).WellFormed := by
  have hle := h.position_le
  rw [h.rest_length] at hn
  exact h.moved (by omega) h.size_le

end WellFormed

theorem rest_skip (a : ByteArray) (n : ℕ) : (a.skip n).rest = a.rest.drop n := by
  simp only [rest, skip, window, List.drop_take, List.drop_drop]
  congr 1
  omega

theorem skip_skip (a : ByteArray) (n m : ℕ) : (a.skip n).skip m = a.skip (n+m) := by
  simp only [skip, Nat.add_assoc]

/-! ### The readers, one by one -/

namespace Reading
variable {α β : Type} {s s' : Call}

theorem bind_ok {r : Reading α} {v : α} (h : r s = .ok v s') (f : α → Reading β) :
    (r >>= f) s = f v s' := by
  change EStateM.bind r f s = _
  rw [EStateM.bind, h]

theorem bind_error {r : Reading α} {e : Thrown} (h : r s = .error e s') (f : α → Reading β) :
    (r >>= f) s = .error e s' := by
  change EStateM.bind r f s = _
  rw [EStateM.bind, h]

/-- What the readers of numbers do: they read a number that is there and move behind it, or they
throw behind `n` bytes. -/
def Ends (r : Reading α) (s : Call) (flatRead : List UInt8 → Except Fault (α × List UInt8))
    (n : ℕ) : Option ℕ → Prop
  | some m => m ≤ s.array.rest.length ∧
      ∃ v, flatRead s.array.rest = .ok (v,s.array.rest.drop m) ∧
        r s = .ok v { s with array := s.array.skip m }
  | none => r s = .error (.fault (.outOfRange "not enough len")) { s with array := s.array.skip n }

section base
variable {memory : ℕ → ℕ → UInt8} {host byteOrder endian : Endian}

theorem read_short (h : s.array.WellFormed) {size : ℕ} (hs : s.array.rest.length < size) :
    read (base memory host byteOrder) size s =
      .error (.fault (.outOfRange "not enough len")) s := by
  have herror : s.array.read size = .error (.outOfRange "not enough len") := by
    rw [ByteArray.read, if_pos (by rw [h.readSize_eq, ← h.rest_length]; exact hs)]
  simp only [read, base, herror]

theorem read_ok (h : s.array.WellFormed) {size : ℕ} (hs : size ≤ s.array.rest.length)
    (hp : s.array.position < s.array.capacity) :
    read (base memory host byteOrder) size s =
      .ok (s.array.rest.take size) { s with array := s.array.skip size } := by
  have hlength := h.rest_length
  have hle := h.position_le
  have hok : s.array.read size = .ok (s.array.rest.take size,s.array.skip size) := by
    rw [h.read hp (by omega)]
    simp only [rest, window, List.take_take, Nat.min_eq_left (hlength ▸ hs)]
    rfl
  simp only [read, base, hok]

/-- At the end of the chain a read of nothing follows the null node too. -/
theorem read_null (h : s.array.WellFormed) (hp : s.array.position = s.array.capacity) :
    read (base memory host byteOrder) 0 s = .error (.fault .nullNode) s := by
  have herror : s.array.read 0 = .error .nullNode := by
    rw [ByteArray.read, if_neg (Nat.not_lt_zero _), h.fromCur_null hp]
    rfl
  simp only [read, base, herror]

/-- An object of a fixed size is read whole or not at all. -/
theorem readObject_ends (h : s.array.WellFormed) {w : ℕ} (hw : 0 < w/8) :
    Ends (readObject (base memory host byteOrder) w) s ((flat host byteOrder).readObject w) 0
      (if w/8 ≤ s.array.rest.length then some (w/8) else none) := by
  split
  · next hle =>
    have hlength := h.rest_length
    have hsize := h.size_le
    refine ⟨hle,(flat host byteOrder).ofObject (s.array.rest.take (w/8)),?_,?_⟩
    · have hshort : ¬w/8 > s.array.rest.length := Nat.not_lt.mpr hle
      simp only [Base.readObject, flat, if_neg hshort, bind, Except.bind, pure, Except.pure]
    · rw [readObject, bind_ok (read_ok h hle (by omega))]
      rfl
  · next hlt =>
    rw [Ends, readObject, bind_error (read_short h (Nat.not_le.mp hlt)), h.skip_zero]

/-- What is done with a number does not change how its reader ends. -/
theorem Ends.map {r : Reading α} {flatRead : List UInt8 → Except Fault (α × List UInt8)} {n : ℕ}
    {length : Option ℕ} (h : Ends r s flatRead n length) (f : α → β) :
    Ends (do let v ← r; return f v) s
      (fun bytes => do let (v,bytes) ← flatRead bytes; return (f v,bytes)) n length := by
  cases length with
  | none => exact bind_error h _
  | some m =>
    obtain ⟨hm,v,hflat,hrun⟩ := h
    refine ⟨hm,f v,?_,?_⟩
    · dsimp only
      rw [hflat]
      rfl
    · rw [bind_ok hrun]
      rfl

theorem readFixed_ends (h : s.array.WellFormed) {w : ℕ} (hw : 0 < w/8) :
    Ends (readFixed (base memory host byteOrder) endian w) s
      (ByteArray.readFixed (flat host byteOrder) endian w) 0
      (if w/8 ≤ s.array.rest.length then some (w/8) else none) :=
  (readObject_ends h hw).map _

theorem readFuint8_ok (h : s.array.WellFormed) {b : UInt8} {bytes : List UInt8}
    (hrest : s.array.rest = b :: bytes) :
    readFuint8 (base memory host byteOrder) s =
      .ok b.toBitVec { s with array := s.array.skip 1 } := by
  have hends : Ends (readObject (base memory host byteOrder) 8) s
      ((flat host byteOrder).readObject 8) 0
      (if 8/8 ≤ s.array.rest.length then some (8/8) else none) := readObject_ends h (by decide)
  rw [if_pos (by rw [hrest, List.length_cons]; omega)] at hends
  obtain ⟨-,v,hflat,hrun⟩ := hends
  have hcons : ByteArray.readFuint8 (flat host byteOrder) (b :: bytes) = .ok (b.toBitVec,bytes) :=
    readFuint8_cons b bytes
  rw [ByteArray.readFuint8, ← hrest, hflat] at hcons
  cases hcons
  exact hrun

theorem readFuint8_short (h : s.array.WellFormed) (hrest : s.array.rest = []) :
    readFuint8 (base memory host byteOrder) s =
      .error (.fault (.outOfRange "not enough len")) s :=
  bind_error (read_short h (by rw [hrest]; decide)) _

theorem skip_one_rest {b : UInt8} {bytes : List UInt8} (hrest : s.array.rest = b :: bytes) :
    (s.array.skip 1).rest = bytes := by
  rw [rest_skip, hrest]
  rfl

/-- What a reader does behind a byte that it has taken. -/
theorem Ends.behind {r next : Reading α}
    {flatRead flatNext : List UInt8 → Except Fault (α × List UInt8)} {n : ℕ} {length : Option ℕ}
    {b : UInt8} {bytes : List UInt8} (hrest : s.array.rest = b :: bytes)
    (hflat : flatRead (b :: bytes) = flatNext bytes)
    (hrun : r s = next { s with array := s.array.skip 1 })
    (h : Ends next { s with array := s.array.skip 1 } flatNext n length) :
    Ends r s flatRead (n+1) (length.map (·+1)) := by
  have hskip := skip_one_rest hrest
  cases length with
  | none =>
    rw [Ends] at h
    rw [Option.map_none, Ends, hrun, h, skip_skip, Nat.add_comm]
  | some m =>
    obtain ⟨hm,v,hvalue,hnext⟩ := h
    dsimp only at hm hvalue hnext
    rw [hskip] at hm hvalue
    refine ⟨?_,v,?_,?_⟩
    · rw [hrest, List.length_cons]
      exact Nat.succ_le_succ hm
    · rw [hrest, hflat, hvalue]
      rfl
    · rw [hrun, hnext, skip_skip, Nat.add_comm]

/-- From bit `i` on the loop reads up to a byte without the high bit, or it throws where the
bytes end. -/
theorem readVarint_ends {w groups i : ℕ} (hgroups : groups = (w-i+6)/7) (result : BitVec w)
    (h : s.array.WellFormed) :
    Ends (readVarint (base memory host byteOrder) i result) s
      (ByteArray.readVarint (flat host byteOrder) i result) s.array.rest.length
      (varintLength groups s.array.rest) := by
  induction groups generalizing i result s with
  | zero =>
    have hi : ¬i < w := by omega
    refine ⟨Nat.zero_le _,result,?_,?_⟩
    · rw [ByteArray.readVarint, if_neg hi]
      rfl
    · rw [readVarint, if_neg hi, h.skip_zero]
      rfl
  | succ groups ih =>
    have hi : i < w := by omega
    cases hrest : s.array.rest with
    | nil =>
      rw [varintLength, Ends, readVarint, if_pos hi, bind_error (readFuint8_short h hrest),
        List.length_nil, h.skip_zero]
    | cons b bytes =>
      have hread : readFuint8 (base memory host byteOrder) s =
          .ok b.toBitVec { s with array := s.array.skip 1 } := readFuint8_ok h hrest
      have hflat : ByteArray.readFuint8 (flat host byteOrder) (b :: bytes) =
          .ok (b.toBitVec,bytes) := readFuint8_cons b bytes
      rw [varintLength]
      by_cases hb : b < 0x80
      · -- the last byte
        have hlt : b.toBitVec < 0x80#8 := hb
        rw [if_pos hb]
        refine ⟨by rw [hrest, List.length_cons]; omega,
          result ||| (b.toBitVec.setWidth w)<<<i,?_,?_⟩
        · rw [ByteArray.readVarint, if_pos hi, hrest, hflat]
          simp only [bind, Except.bind, if_pos hlt]
          rfl
        · rw [readVarint, if_pos hi, bind_ok hread, if_pos hlt]
          rfl
      · have hge : ¬b.toBitVec < 0x80#8 := hb
        have hwell : (s.array.skip 1).WellFormed :=
          h.skip (by rw [hrest, List.length_cons]; omega)
        have hends := ih (i := i+7) (by omega)
          (result ||| ((b.toBitVec &&& 0x7F#8).setWidth w)<<<i)
          (s := { s with array := s.array.skip 1 }) hwell
        dsimp only at hends
        rw [skip_one_rest hrest] at hends
        rw [if_neg hb, List.length_cons]
        refine hends.behind hrest ?_ ?_
        · rw [ByteArray.readVarint, if_pos hi, hflat]
          simp only [bind, Except.bind, if_neg hge]
        · rw [readVarint, if_pos hi, bind_ok hread, if_neg hge]

variable (memory host byteOrder endian) in
/-- How the reader of a number ends: with the number, or with an exception behind all of the
bytes for a varint and in front of them for a number of fixed width. -/
theorem number_ends (k : Kind) (h : s.array.WellFormed) :
    Ends (k.reading (base memory host byteOrder) endian) s (k.read (flat host byteOrder) endian)
      (if k.isVarint then s.array.rest.length else 0) (k.encodedLength s.array.rest) := by
  cases k with
  | Fint8 | Fuint8 => exact readObject_ends h (by decide)
  | Fint16 | Fuint16 | Fint32 | Fuint32 | Fint64 | Fuint64 | Float | Double =>
    exact readFixed_ends h (by decide)
  | Uint32 | Uint64 => exact readVarint_ends rfl _ h
  | Int32 | Int64 => exact (readVarint_ends rfl _ h).map _

end base
end Reading

/-! ### Reads that leave the array as it was -/

/-- The typed reads. -/
inductive TypedRead
  | number (k : Kind)
  | string (f : Format)
deriving DecidableEq

namespace TypedRead
variable (endian : Endian) (maxSize : ℕ)

/-- What a typed read gives. -/
def Value : TypedRead → Type
  | number k => BitVec k.width
  | string _ => List UInt8

def reading (B : Base ByteArray) : (t : TypedRead) → Reading t.Value
  | number k => k.reading B endian
  | string f => f.reading B endian maxSize

end TypedRead

/-- The length that stands in front of a string. -/
def Format.storedLength (host byteOrder endian : Endian) (f : Format) (rest : List UInt8) : ℕ :=
  match f.lengthKind.read (flat host byteOrder) endian rest with
  | .ok (len,_) => len.toNat
  | .error _ => 0

/-- The length of the string that the bytes begin with, if it is complete. -/
def Format.encodedLength (host byteOrder endian : Endian) (f : Format) (rest : List UInt8) :
    Option ℕ :=
  (f.lengthKind.encodedLength rest).bind fun n =>
    if n+f.storedLength host byteOrder endian rest ≤ rest.length then
      some (n+f.storedLength host byteOrder endian rest)
    else none

def TypedRead.encodedLength (host byteOrder endian : Endian) : TypedRead → List UInt8 → Option ℕ
  | number k => k.encodedLength
  | string f => f.encodedLength host byteOrder endian

/-- The read gives a value and moves by the length of its encoding, or it throws
`std::out_of_range` and leaves the array as it was; and no string that it allocates is longer than
what remains. -/
def CleanRead (memory : ℕ → ℕ → UInt8) (host byteOrder endian : Endian) (maxSize : ℕ)
    (t : TypedRead) (a : ByteArray) : Prop :=
  ∃ s : Call, (∀ p ∈ s.strings, p.1 ≤ p.2) ∧
    ((∃ v n, t.reading endian maxSize (base memory host byteOrder) ⟨a,[]⟩ = .ok v s ∧
        t.encodedLength host byteOrder endian a.rest = some n ∧
        s.array.position = a.position+n) ∨
      ∃ what, t.reading endian maxSize (base memory host byteOrder) ⟨a,[]⟩ =
          .error (.fault (.outOfRange what)) s ∧
        s.array.position = a.position ∧ s.array.size = a.size ∧ s.array.cur = a.cur)

/-- A number of fixed width may be cut off anywhere, a varint only in front of its first byte. -/
def Kind.CutOff (k : Kind) (a : ByteArray) : Prop :=
  k.encodedLength a.rest = none → k.isVarint → a.rest = []

/-- The bytes of a string are all there, and there is a node to read them from. -/
def Format.Follows (host byteOrder endian : Endian) (maxSize : ℕ) (f : Format) (a : ByteArray)
    (n : ℕ) : Prop :=
  n+f.storedLength host byteOrder endian a.rest ≤ a.rest.length ∧
    f.storedLength host byteOrder endian a.rest ≤ maxSize ∧
    (f.storedLength host byteOrder endian a.rest = 0 → a.position+n < a.capacity)

/-- When a typed read does not leave the array elsewhere. -/
def TypedRead.Sound (host byteOrder endian : Endian) (maxSize : ℕ) (a : ByteArray) :
    TypedRead → Prop
  | number k => k.CutOff a
  | string f => f.lengthKind.CutOff a ∧
      ∀ n, f.lengthKind.encodedLength a.rest = some n → f.Follows host byteOrder endian maxSize a n

section clean
variable {memory : ℕ → ℕ → UInt8} {host byteOrder endian : Endian} {maxSize : ℕ} {a : ByteArray}

/-- A read that throws anything but `std::out_of_range` is not clean. -/
theorem not_cleanRead_of_thrown {t : TypedRead} {e : Thrown} {s : Call}
    (hrun : t.reading endian maxSize (base memory host byteOrder) ⟨a,[]⟩ = .error e s)
    (he : ∀ what, e ≠ .fault (.outOfRange what)) :
    ¬CleanRead memory host byteOrder endian maxSize t a := by
  rintro ⟨s',-,⟨v,n,hrun',-,-⟩ | ⟨what,hrun',-,-,-⟩⟩
  · cases hrun.symm.trans hrun'
  · cases hrun.symm.trans hrun'
    exact he what rfl

/-- A read that ends where its number is cut off. -/
theorem cutOff_iff (h : a.WellFormed) {t : TypedRead} {k : Kind}
    (hlength : k.encodedLength a.rest = none)
    (hrun : t.reading endian maxSize (base memory host byteOrder) ⟨a,[]⟩ =
      .error (.fault (.outOfRange "not enough len"))
        ⟨a.skip (if k.isVarint then a.rest.length else 0),[]⟩) :
    CleanRead memory host byteOrder endian maxSize t a ↔ k.CutOff a := by
  constructor
  · rintro ⟨s,-,⟨v,n,hrun',-,-⟩ | ⟨what,hrun',hposition,-,-⟩⟩ _ hvarint
    · cases hrun.symm.trans hrun'
    · cases hrun.symm.trans hrun'
      rw [if_pos hvarint] at hposition
      exact List.length_eq_zero_iff.mp (Nat.add_eq_left.mp hposition)
  · intro hcut
    have hzero : (if k.isVarint then a.rest.length else 0) = 0 := by
      split
      · next hvarint => rw [hcut hlength hvarint, List.length_nil]
      · rfl
    rw [hzero, h.skip_zero] at hrun
    exact ⟨_,fun p hp => absurd hp List.not_mem_nil,.inr ⟨_,hrun,rfl,rfl,rfl⟩⟩

theorem number_clean_iff (h : a.WellFormed) (k : Kind) :
    CleanRead memory host byteOrder endian maxSize (.number k) a ↔ k.CutOff a := by
  have hends := Reading.number_ends memory host byteOrder endian (s := ⟨a,[]⟩) k h
  dsimp only at hends
  cases hlength : k.encodedLength a.rest with
  | none =>
    rw [hlength] at hends
    exact cutOff_iff h hlength hends
  | some n =>
    rw [hlength] at hends
    obtain ⟨-,v,-,hrun⟩ := hends
    refine iff_of_true ⟨_,?_,.inl ⟨v,n,hrun,hlength,rfl⟩⟩ fun hnone => ?_
    · exact fun p hp => absurd hp List.not_mem_nil
    · cases hlength.symm.trans hnone

theorem Format.reading_eq (B : Base ByteArray) (f : Format) :
    f.reading B endian maxSize =
      Reading.readString B maxSize (f.lengthKind.reading B endian) := by
  cases f <;> rfl

variable (memory host byteOrder endian maxSize) in
/-- What a reader of strings does behind the length, which it has read in `n` bytes. -/
theorem string_run (h : a.WellFormed) {f : Format} {n : ℕ}
    (hlength : f.lengthKind.encodedLength a.rest = some n) :
    n ≤ a.rest.length ∧
      f.reading (base memory host byteOrder) endian maxSize ⟨a,[]⟩ =
        if f.storedLength host byteOrder endian a.rest > maxSize then
          .error .lengthError ⟨a.skip n,[]⟩
        else Reading.read (base memory host byteOrder) (f.storedLength host byteOrder endian a.rest)
          ⟨a.skip n,[(f.storedLength host byteOrder endian a.rest,a.rest.length-n)]⟩ := by
  have hends := Reading.number_ends memory host byteOrder endian (s := ⟨a,[]⟩) f.lengthKind h
  dsimp only at hends
  rw [hlength] at hends
  obtain ⟨hn,v,hflat,hrun⟩ := hends
  have hstored : f.storedLength host byteOrder endian a.rest = v.toNat := by
    rw [Format.storedLength, hflat]
  have hremains : (a.skip n).getReadSize = a.rest.length-n := by
    have hskip := h.skip hn
    rw [hskip.readSize_eq, ← hskip.rest_length, rest_skip, List.length_drop]
  refine ⟨hn,?_⟩
  rw [Format.reading_eq, Reading.readString, Reading.bind_ok hrun, hstored]
  split
  · next hlong => exact Reading.bind_error (if_pos hlong) _
  · next hshort =>
    rw [Reading.bind_ok (if_neg hshort), hremains]
    rfl

theorem string_clean_iff (h : a.WellFormed) (f : Format) :
    CleanRead memory host byteOrder endian maxSize (.string f) a ↔
      TypedRead.Sound host byteOrder endian maxSize a (.string f) := by
  rw [TypedRead.Sound]
  cases hlength : f.lengthKind.encodedLength a.rest with
  | none =>
    have hends := Reading.number_ends memory host byteOrder endian (s := ⟨a,[]⟩) f.lengthKind h
    dsimp only at hends
    rw [hlength] at hends
    rw [and_iff_left (by simp)]
    refine cutOff_iff h hlength ?_
    change f.reading (base memory host byteOrder) endian maxSize ⟨a,[]⟩ = _
    rw [Format.reading_eq]
    exact Reading.bind_error hends _
  | some n =>
    obtain ⟨hn,hrun⟩ := string_run memory host byteOrder endian maxSize h hlength
    have hskip := h.skip hn
    have hremains : (a.skip n).rest.length = a.rest.length-n := by rw [rest_skip, List.length_drop]
    generalize hlen : f.storedLength host byteOrder endian a.rest = len at hrun
    have hcut : f.lengthKind.CutOff a := fun hnone => by cases hlength.symm.trans hnone
    rw [and_iff_right hcut]
    have hfollows : (∀ m, some n = some m → f.Follows host byteOrder endian maxSize a m) ↔
        f.Follows host byteOrder endian maxSize a n :=
      ⟨fun hall => hall n rfl,fun hf m hm => Option.some.inj hm ▸ hf⟩
    rw [hfollows, Format.Follows, hlen]
    have hrest := h.rest_length
    have hsize := h.size_le
    have hle := h.position_le
    rcases Nat.lt_or_ge maxSize len with hlong | hmax
    · -- `std::length_error`
      rw [if_pos hlong] at hrun
      exact iff_of_false (not_cleanRead_of_thrown hrun fun what he => by cases he)
        fun hf => Nat.not_lt.mpr hf.2.1 hlong
    rw [if_neg (Nat.not_lt.mpr hmax)] at hrun
    rcases Nat.lt_or_ge (a.rest.length-n) len with hmissing | hall
    · -- the string is allocated before it is compared with what remains
      rw [Reading.read_short hskip (by rw [hremains]; exact hmissing)] at hrun
      refine iff_of_false ?_ fun hf => by omega
      rintro ⟨s,hs,⟨v,m,hrun',-,-⟩ | ⟨what,hrun',-,-,-⟩⟩
      · cases hrun.symm.trans hrun'
      · cases hrun.symm.trans hrun'
        have hfits := hs _ (List.mem_singleton.mpr rfl)
        exact absurd hfits (Nat.not_le.mpr hmissing)
    rcases Nat.lt_or_ge (a.position+n) a.capacity with hp | hfull
    · rw [Reading.read_ok hskip (by rw [hremains]; exact hall) hp] at hrun
      refine iff_of_true ⟨_,?_,.inl ⟨_,n+len,hrun,?_,?_⟩⟩ ⟨by omega,hmax,fun _ => hp⟩
      · intro p hmem
        cases List.mem_singleton.mp hmem
        exact hall
      · rw [TypedRead.encodedLength, Format.encodedLength, hlength, Option.bind_some, hlen,
          if_pos (by omega)]
      · exact Nat.add_assoc a.position n len
    · -- an empty string at the end of the chain
      have hzero : len = 0 := by omega
      have hend : (a.skip n).position = (a.skip n).capacity := by
        dsimp only [skip]
        omega
      rw [hzero, Reading.read_null hskip hend] at hrun
      exact iff_of_false (not_cleanRead_of_thrown hrun fun what he => by cases he)
        fun hf => Nat.not_lt.mpr hfull (hf.2.2 hzero)

end clean

/-- A typed read is clean if no varint is cut off behind its first byte, and the bytes of a string
are there, with a node behind the length. -/
theorem cleanRead_iff (memory : ℕ → ℕ → UInt8) (host byteOrder endian : Endian) (maxSize : ℕ)
    {a : ByteArray} (h : a.WellFormed) (t : TypedRead) :
    CleanRead memory host byteOrder endian maxSize t a ↔
      t.Sound host byteOrder endian maxSize a := by
  cases t with
  | number k => exact number_clean_iff h k
  | string f => exact string_clean_iff h f

theorem cleanRead_two : CleanRead (fun _ _ => 0) .LITTLE_ENDIAN .LITTLE_ENDIAN .LITTLE_ENDIAN
    (2^62-1) (.number .Fint32) twoOfFour :=
  (cleanRead_iff _ _ _ _ _ twoOfFour_wellFormed _).mpr fun _ hvarint => by cases hvarint

/-- A string with a length of 16 bits, of which only the length is there. -/
theorem not_cleanRead : ¬∀ (memory : ℕ → ℕ → UInt8) (host byteOrder endian : Endian)
    (maxSize : ℕ) (t : TypedRead) (a : ByteArray), a.WellFormed →
    CleanRead memory host byteOrder endian maxSize t a := by
  intro h
  obtain ⟨s,hs,hends⟩ := h (fun _ _ => 0) .LITTLE_ENDIAN .LITTLE_ENDIAN .LITTLE_ENDIAN
    (2^62-1) (.string .F16) twoOfFour twoOfFour_wellFormed
  have hrun : TypedRead.reading .LITTLE_ENDIAN (2^62-1)
      (base (fun _ _ => 0) .LITTLE_ENDIAN .LITTLE_ENDIAN) (.string .F16) ⟨twoOfFour,[]⟩ =
        .error (.fault (.outOfRange "not enough len")) ⟨twoOfFour.skip 2,[(513,0)]⟩ := by
    rfl
  rcases hends with ⟨v,n,hrun',-,-⟩ | ⟨what,hrun',hposition,-,-⟩
  · cases hrun.symm.trans hrun'
  · cases hrun.symm.trans hrun'
    exact absurd hposition (by decide)

end CoroutineWebserve.ByteArray
