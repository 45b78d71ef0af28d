import CoroutineWebserve.ByteArray.Bits
import CoroutineWebserve.ByteArray.Model
import Mathlib.Order.Interval.Finset.Nat

/-!
# Numbers and strings in a `ByteArray`

The codecs call `write` and `read`. Here they call those of any state, such as a
`ByteArray` or a flat string to which bytes are appended and from which they are consumed.
-/
namespace CoroutineWebserve.ByteArray
open Bits

inductive Endian
  | LITTLE_ENDIAN
  | BIG_ENDIAN
deriving DecidableEq, Repr

/-- What the codecs work on: `write` and `read`, the order of the bytes of an integer in
memory, and `SYLAR_BYTE_ORDER`. -/
structure Base (σ : Type) where
  write : List UInt8 → σ → Except Fault σ
  read : ℕ → σ → Except Fault (List UInt8 × σ)
  host : Endian
  byteOrder : Endian

/-- The operations of a `ByteArray`. -/
def base (memory : ℕ → ℕ → UInt8) (host byteOrder : Endian) : Base ByteArray where
  write := ByteArray.write memory
  read := ByteArray.read
  host := host
  byteOrder := byteOrder

/-- Append to and consume from a string. -/
def flat (host byteOrder : Endian) : Base (List UInt8) where
  write buf s := .ok (s++buf)
  read size s :=
    if size > s.length then .error (.outOfRange "not enough len")
    else .ok (s.take size,s.drop size)
  host := host
  byteOrder := byteOrder

namespace Base
variable {σ : Type} (B : Base σ) (endian : Endian) {w : ℕ}

/-- The bytes of an integer as they lie in memory. -/
def object (v : BitVec w) : List UInt8 :=
  match B.host with
  | .LITTLE_ENDIAN => toBytes v
  | .BIG_ENDIAN => (toBytes v).reverse

/-- The integer with these bytes. -/
def ofObject (bytes : List UInt8) : BitVec w :=
  match B.host with
  | .LITTLE_ENDIAN => ofBytes bytes
  | .BIG_ENDIAN => ofBytes bytes.reverse

/-- `write(&value, sizeof(value))`. -/
def writeObject (value : BitVec w) (s : σ) : Except Fault σ := B.write (B.object value) s

/-- `read(&v, sizeof(v))`. -/
def readObject (w : ℕ) (s : σ) : Except Fault (BitVec w × σ) := do
  let (bytes,s) ← B.read (w/8) s
  return (B.ofObject bytes,s)

end Base

/-- `byteswap(value)`, that is `bswap_16`, `bswap_32` or `bswap_64`. -/
def byteswap {w : ℕ} (value : BitVec w) : BitVec w := reverse value

/-! ### The writers and readers -/

section codecs
variable {σ : Type} (B : Base σ) (endian : Endian)

/-- A number of fixed width, in the byte order of the array. -/
def writeFixed {w : ℕ} (value : BitVec w) (s : σ) : Except Fault σ :=
  B.writeObject (if endian ≠ B.byteOrder then byteswap value else value) s

def readFixed (w : ℕ) (s : σ) : Except Fault (BitVec w × σ) := do
  let (v,s) ← B.readObject w s
  return (if endian = B.byteOrder then v else byteswap v,s)

def writeFint8 (value : BitVec 8) (s : σ) : Except Fault σ := B.writeObject value s
def writeFuint8 (value : BitVec 8) (s : σ) : Except Fault σ := B.writeObject value s
def writeFint16 (value : BitVec 16) (s : σ) : Except Fault σ := writeFixed B endian value s
def writeFuint16 (value : BitVec 16) (s : σ) : Except Fault σ := writeFixed B endian value s
def writeFint32 (value : BitVec 32) (s : σ) : Except Fault σ := writeFixed B endian value s
def writeFuint32 (value : BitVec 32) (s : σ) : Except Fault σ := writeFixed B endian value s
def writeFint64 (value : BitVec 64) (s : σ) : Except Fault σ := writeFixed B endian value s
def writeFuint64 (value : BitVec 64) (s : σ) : Except Fault σ := writeFixed B endian value s

def EncodeZigzag32 (v : BitVec 32) : BitVec 32 := encodeZigzag v
def EncodeZigzag64 (v : BitVec 64) : BitVec 64 := encodeZigzag v
def DecodeZigzag32 (v : BitVec 32) : BitVec 32 := decodeZigzag v
def DecodeZigzag64 (v : BitVec 64) : BitVec 64 := decodeZigzag v

def writeUint32 (value : BitVec 32) (s : σ) : Except Fault σ := B.write (encodeVarint value) s
def writeUint64 (value : BitVec 64) (s : σ) : Except Fault σ := B.write (encodeVarint value) s
def writeInt32 (value : BitVec 32) (s : σ) : Except Fault σ :=
  writeUint32 B (EncodeZigzag32 value) s
def writeInt64 (value : BitVec 64) (s : σ) : Except Fault σ :=
  writeUint64 B (EncodeZigzag64 value) s

/-- A float, by its bits. -/
def writeFloat (value : BitVec 32) (s : σ) : Except Fault σ := writeFuint32 B endian value s
def writeDouble (value : BitVec 64) (s : σ) : Except Fault σ := writeFuint64 B endian value s

def readFint8 (s : σ) : Except Fault (BitVec 8 × σ) := B.readObject 8 s
def readFuint8 (s : σ) : Except Fault (BitVec 8 × σ) := B.readObject 8 s
def readFint16 (s : σ) : Except Fault (BitVec 16 × σ) := readFixed B endian 16 s
def readFuint16 (s : σ) : Except Fault (BitVec 16 × σ) := readFixed B endian 16 s
def readFint32 (s : σ) : Except Fault (BitVec 32 × σ) := readFixed B endian 32 s
def readFuint32 (s : σ) : Except Fault (BitVec 32 × σ) := readFixed B endian 32 s
def readFint64 (s : σ) : Except Fault (BitVec 64 × σ) := readFixed B endian 64 s
def readFuint64 (s : σ) : Except Fault (BitVec 64 × σ) := readFixed B endian 64 s

/-- The loop of `readUint32` and `readUint64` from bit `i` on. -/
def readVarint {w : ℕ} (i : ℕ) (result : BitVec w) (s : σ) : Except Fault (BitVec w × σ) :=
  if i < w then do
    let (b,s) ← readFuint8 B s
    if b < 0x80#8 then return (result ||| (b.setWidth w)<<<i,s)
    else readVarint (i+7) (result ||| ((b &&& 0x7F#8).setWidth w)<<<i) s
  else return (result,s)
termination_by w-i

def readUint32 (s : σ) : Except Fault (BitVec 32 × σ) := readVarint B 0 0#32 s
def readUint64 (s : σ) : Except Fault (BitVec 64 × σ) := readVarint B 0 0#64 s

def readInt32 (s : σ) : Except Fault (BitVec 32 × σ) := do
  let (v,s) ← readUint32 B s
  return (DecodeZigzag32 v,s)

def readInt64 (s : σ) : Except Fault (BitVec 64 × σ) := do
  let (v,s) ← readUint64 B s
  return (DecodeZigzag64 v,s)

def readFloat (s : σ) : Except Fault (BitVec 32 × σ) := readFuint32 B endian s
def readDouble (s : σ) : Except Fault (BitVec 64 × σ) := readFuint64 B endian s

def writeStringF16 (value : List UInt8) (s : σ) : Except Fault σ := do
  let s ← writeFuint16 B endian (BitVec.ofNat 16 value.length) s
  B.write value s

def writeStringF32 (value : List UInt8) (s : σ) : Except Fault σ := do
  let s ← writeFuint32 B endian (BitVec.ofNat 32 value.length) s
  B.write value s

def writeStringF64 (value : List UInt8) (s : σ) : Except Fault σ := do
  let s ← writeFuint64 B endian (BitVec.ofNat 64 value.length) s
  B.write value s

def writeStringVint (value : List UInt8) (s : σ) : Except Fault σ := do
  let s ← writeUint64 B (BitVec.ofNat 64 value.length) s
  B.write value s

def readStringF16 (s : σ) : Except Fault (List UInt8 × σ) := do
  let (len,s) ← readFuint16 B endian s
  B.read len.toNat s

def readStringF32 (s : σ) : Except Fault (List UInt8 × σ) := do
  let (len,s) ← readFuint32 B endian s
  B.read len.toNat s

def readStringF64 (s : σ) : Except Fault (List UInt8 × σ) := do
  let (len,s) ← readFuint64 B endian s
  B.read len.toNat s

def readStringVint (s : σ) : Except Fault (List UInt8 × σ) := do
  let (len,s) ← readUint64 B s
  B.read len.toNat s

end codecs

/-! ### Lists of values -/

section lists
variable {σ α β κ : Type}

def writeAll (write : α → σ → Except Fault σ) : List α → σ → Except Fault σ
  | [], s => .ok s
  | a :: values, s => do
    let s ← write a s
    writeAll write values s

def readAll (read : κ → σ → Except Fault (β × σ)) : List κ → σ → Except Fault (List β × σ)
  | [], s => .ok ([],s)
  | k :: kinds, s => do
    let (b,s) ← read k s
    let (values,s) ← readAll read kinds s
    return (b :: values,s)

end lists

/-- The functions for numbers, a writer and its reader each. -/
inductive Kind
  | Fint8 | Fuint8 | Fint16 | Fuint16 | Fint32 | Fuint32 | Fint64 | Fuint64
  | Int32 | Uint32 | Int64 | Uint64 | Float | Double
deriving DecidableEq, Repr

namespace Kind
variable {σ : Type} (B : Base σ) (endian : Endian)

def width : Kind → ℕ
  | Fint8 | Fuint8 => 8
  | Fint16 | Fuint16 => 16
  | Fint32 | Fuint32 | Int32 | Uint32 | Float => 32
  | Fint64 | Fuint64 | Int64 | Uint64 | Double => 64

def write : (k : Kind) → BitVec k.width → σ → Except Fault σ
  | Fint8, value, s => writeFint8 B value s
  | Fuint8, value, s => writeFuint8 B value s
  | Fint16, value, s => writeFint16 B endian value s
  | Fuint16, value, s => writeFuint16 B endian value s
  | Fint32, value, s => writeFint32 B endian value s
  | Fuint32, value, s => writeFuint32 B endian value s
  | Fint64, value, s => writeFint64 B endian value s
  | Fuint64, value, s => writeFuint64 B endian value s
  | Int32, value, s => writeInt32 B value s
  | Uint32, value, s => writeUint32 B value s
  | Int64, value, s => writeInt64 B value s
  | Uint64, value, s => writeUint64 B value s
  | Float, value, s => writeFloat B endian value s
  | Double, value, s => writeDouble B endian value s

def read : (k : Kind) → σ → Except Fault (BitVec k.width × σ)
  | Fint8, s => readFint8 B s
  | Fuint8, s => readFuint8 B s
  | Fint16, s => readFint16 B endian s
  | Fuint16, s => readFuint16 B endian s
  | Fint32, s => readFint32 B endian s
  | Fuint32, s => readFuint32 B endian s
  | Fint64, s => readFint64 B endian s
  | Fuint64, s => readFuint64 B endian s
  | Int32, s => readInt32 B s
  | Uint32, s => readUint32 B s
  | Int64, s => readInt64 B s
  | Uint64, s => readUint64 B s
  | Float, s => readFloat B endian s
  | Double, s => readDouble B endian s

/-- The numbers of bytes that a number may take. -/
def bytes : Kind → Finset ℕ
  | Int32 | Uint32 => Finset.Icc 1 5
  | Int64 | Uint64 => Finset.Icc 1 10
  | k => {k.width/8}

end Kind

/-- A number with the functions that write and read it. -/
abbrev Number := Σ k : Kind, BitVec k.width

def Number.write {σ : Type} (B : Base σ) (endian : Endian) (n : Number) (s : σ) :
    Except Fault σ := n.1.write B endian n.2 s

def Number.read {σ : Type} (B : Base σ) (endian : Endian) (k : Kind) (s : σ) :
    Except Fault (Number × σ) := do
  let (v,s) ← k.read B endian s
  return (⟨k,v⟩,s)

/-! ### The round trip of a value -/

/-- What `write` appends, in one of these lengths, `read` consumes and gives `b`. -/
def RoundTrips {β : Type} (write : List UInt8 → Except Fault (List UInt8))
    (read : List UInt8 → Except Fault (β × List UInt8)) (b : β) (lengths : Finset ℕ) : Prop :=
  ∃ bs : List UInt8, bs.length ∈ lengths ∧ (∀ s, write s = .ok (s++bs)) ∧
    ∀ rest, read (bs++rest) = .ok (b,rest)

/-- Values that round trip one by one do so one behind the other. -/
theorem roundTrips_all {α β κ : Type}
    {write : α → List UInt8 → Except Fault (List UInt8)}
    {read : κ → List UInt8 → Except Fault (β × List UInt8)} {kind : α → κ} {value : α → β}
    {lengths : α → Finset ℕ}
    (h : ∀ a, RoundTrips (write a) (read (kind a)) (value a) (lengths a)) (values : List α) :
    ∃ chunks : List (List UInt8), List.Forall₂ (fun a bs => bs.length ∈ lengths a) values chunks ∧
      (∀ s, writeAll write values s = .ok (s++chunks.flatten)) ∧
      ∀ rest, readAll read (values.map kind) (chunks.flatten++rest) =
        .ok (values.map value,rest) := by
  induction values with
  | nil => exact ⟨[],.nil,fun s => by simp [writeAll],fun rest => rfl⟩
  | cons a values ih =>
    obtain ⟨bs,hlength,hwrite,hread⟩ := h a
    obtain ⟨chunks,hlengths,hwrites,hreads⟩ := ih
    refine ⟨bs :: chunks,.cons hlength hlengths,fun s => ?_,fun rest => ?_⟩
    · simp only [writeAll, hwrite, bind, Except.bind, hwrites, List.flatten_cons,
        List.append_assoc]
    · simp only [List.map_cons, readAll, List.flatten_cons, List.append_assoc, hread, bind,
        Except.bind, hreads, pure, Except.pure]

section numbers
variable {host byteOrder endian : Endian} {w : ℕ}

theorem flat_read {bs : List UInt8} {n : ℕ} (h : bs.length = n) (rest : List UInt8) :
    (flat host byteOrder).read n (bs++rest) = .ok (bs,rest) := by
  subst h
  have hlen : ¬bs.length > (bs++rest).length := by simp
  simp only [flat, if_neg hlen, List.take_left, List.drop_left]

theorem object_length {σ : Type} (B : Base σ) (v : BitVec w) : (B.object v).length = w/8 := by
  unfold Base.object
  split <;> simp

theorem ofObject_object {σ : Type} (B : Base σ) (hw : 8 ∣ w) (v : BitVec w) :
    B.ofObject (B.object v) = v := by
  unfold Base.ofObject Base.object
  split
  · exact ofBytes_toBytes hw v
  · rw [List.reverse_reverse, ofBytes_toBytes hw]

theorem object_roundTrips (hw : 8 ∣ w) (v : BitVec w) :
    RoundTrips ((flat host byteOrder).writeObject v) ((flat host byteOrder).readObject w) v
      {w/8} := by
  refine ⟨(flat host byteOrder).object v,?_,fun s => rfl,fun rest => ?_⟩
  · rw [object_length, Finset.mem_singleton]
  · simp only [Base.readObject, flat_read (object_length ..), bind, Except.bind, pure,
      Except.pure, ofObject_object _ hw]

theorem fixed_roundTrips (hw : 8 ∣ w) (v : BitVec w) :
    RoundTrips (writeFixed (flat host byteOrder) endian v)
      (readFixed (flat host byteOrder) endian w) v {w/8} := by
  have hobject : RoundTrips (writeFixed (flat host byteOrder) endian v)
      ((flat host byteOrder).readObject w) (if endian ≠ byteOrder then byteswap v else v) {w/8} :=
    object_roundTrips hw _
  obtain ⟨bs,hlength,hwrite,hread⟩ := hobject
  refine ⟨bs,hlength,hwrite,fun rest => ?_⟩
  simp only [readFixed, hread, bind, Except.bind, pure, Except.pure]
  by_cases he : endian = byteOrder
  · simp [flat, he]
  · simp only [flat, he, ne_eq, not_false_eq_true, if_true, if_false]
    rw [byteswap, byteswap, reverse_reverse hw]

theorem readFuint8_cons (b : UInt8) (rest : List UInt8) :
    readFuint8 (flat host byteOrder) (b :: rest) = .ok (b.toBitVec,rest) := by
  have hvalue : (flat host byteOrder).ofObject [b] = b.toBitVec := by
    have hbytes : (ofBytes [b] : BitVec 8) = b.toBitVec := by
      apply BitVec.eq_of_toNat_eq
      rw [ofBytes, BitVec.toNat_ofNat,
        Nat.mod_eq_of_lt (show ofLittleEndian [b] < 2^8 from ofLittleEndian_lt [b])]
      simp [ofLittleEndian]
    cases host <;> exact hbytes
  have hread : (flat host byteOrder).read 1 (b :: rest) = .ok ([b],rest) :=
    flat_read (show [b].length = 1 from rfl) rest
  simp only [readFuint8, Base.readObject, hread, bind, Except.bind, pure, Except.pure, hvalue]

/-- From bit `i` on the reader collects what the writer has cut into bytes. -/
theorem readVarint_encodeVarint (hw : 8 ≤ w) (v : BitVec w) {i : ℕ} (hi : v.toNat*2^i < 2^w)
    (hiw : i < w) (result : BitVec w) (rest : List UInt8) :
    readVarint (flat host byteOrder) i result (encodeVarint v++rest) =
      .ok (result ||| v<<<i,rest) := by
  induction v using varint_induction generalizing i result with
  | last v hv =>
    obtain ⟨hlt,hset⟩ := last_byte hv
    rw [encodeVarint_last hv, List.singleton_append, readVarint, if_pos hiw, readFuint8_cons]
    simp only [bind, Except.bind, if_pos hlt, hset, pure, Except.pure]
  | more v hv ih =>
    have hge := more_byte_ge hw v
    have hpow : 2^(i+7) = 128*2^i := by rw [Nat.pow_add, Nat.mul_comm]
    have hle : 128*2^i ≤ v.toNat*2^i := Nat.mul_le_mul_right _ hv
    have hiw' : i+7 < w := (Nat.pow_lt_pow_iff_right (by decide)).mp (show 2^(i+7) < 2^w by omega)
    have hi' : (v>>>7).toNat*2^(i+7) < 2^w := by
      rw [toNat_shiftRight_seven, hpow, ← Nat.mul_assoc]
      have := Nat.mul_le_mul_right (2^i) (Nat.div_mul_le_self v.toNat 128)
      omega
    rw [encodeVarint_more hv, List.cons_append, readVarint, if_pos hiw, readFuint8_cons]
    simp only [bind, Except.bind, if_neg hge, more_byte_and hw]
    rw [ih hi' hiw', shiftLeft_split]

theorem varint_roundTrips (hw : 8 ≤ w) {k : ℕ} (hk : 2^w ≤ 128^(k+1)) (v : BitVec w) :
    RoundTrips ((flat host byteOrder).write (encodeVarint v))
      (readVarint (flat host byteOrder) 0 0#w) v (Finset.Icc 1 (k+1)) := by
  refine ⟨encodeVarint v,?_,fun s => rfl,fun rest => ?_⟩
  · rw [Finset.mem_Icc]
    exact ⟨List.length_pos_iff.mpr (encodeVarint_ne_nil v),
      encodeVarint_length_le (v.isLt.trans_le hk)⟩
  · rw [readVarint_encodeVarint hw v (by rw [Nat.pow_zero, Nat.mul_one]; exact v.isLt) (by omega),
      BitVec.shiftLeft_zero, BitVec.zero_or]

/-- A word that is decoded behind its reader is encoded before its writer. -/
theorem RoundTrips.zigzag (hw : 1 < w) {v : BitVec w} {lengths : Finset ℕ}
    {write : List UInt8 → Except Fault (List UInt8)}
    {read : List UInt8 → Except Fault (BitVec w × List UInt8)}
    (h : RoundTrips write read (encodeZigzag v) lengths) :
    RoundTrips write
      (fun s => do
        let (v,s) ← read s
        return (decodeZigzag v,s)) v lengths := by
  obtain ⟨bs,hlength,hwrite,hread⟩ := h
  refine ⟨bs,hlength,hwrite,fun rest => ?_⟩
  simp only [hread, bind, Except.bind, pure, Except.pure, decodeZigzag_encodeZigzag hw]

theorem kind_roundTrips (k : Kind) (v : BitVec k.width) :
    RoundTrips (k.write (flat host byteOrder) endian v) (k.read (flat host byteOrder) endian) v
      k.bytes := by
  cases k with
  | Fint8 | Fuint8 => exact object_roundTrips (by decide) v
  | Fint16 | Fuint16 | Fint32 | Fuint32 | Fint64 | Fuint64 | Float | Double =>
    exact fixed_roundTrips (by decide) v
  | Uint32 | Uint64 => exact varint_roundTrips (by decide) (by decide) v
  | Int32 | Int64 =>
    exact (varint_roundTrips (by decide) (by decide) (encodeZigzag v)).zigzag (by decide)

theorem number_roundTrips (n : Number) :
    RoundTrips (n.write (flat host byteOrder) endian)
      (Number.read (flat host byteOrder) endian n.1) n n.1.bytes := by
  have hkind : RoundTrips (n.1.write (flat host byteOrder) endian n.2)
      (n.1.read (flat host byteOrder) endian) n.2 n.1.bytes := kind_roundTrips n.1 n.2
  obtain ⟨bs,hlength,hwrite,hread⟩ := hkind
  refine ⟨bs,hlength,hwrite,fun rest => ?_⟩
  simp only [Number.read, hread, bind, Except.bind, pure, Except.pure]

variable (host byteOrder endian)

/-- Numbers of any kinds, written one behind the other, are read back, and what is read are
the bytes that were written: as many as the width says, or up to 5 or 10 for a varint. -/
theorem numbers_round_trip (numbers : List Number) :
    ∃ chunks : List (List UInt8),
      List.Forall₂ (fun n bs => bs.length ∈ n.1.bytes) numbers chunks ∧
      (∀ s, writeAll (Number.write (flat host byteOrder) endian) numbers s =
        .ok (s++chunks.flatten)) ∧
      ∀ rest, readAll (Number.read (flat host byteOrder) endian) (numbers.map Sigma.fst)
        (chunks.flatten++rest) = .ok (numbers,rest) := by
  have h : ∀ n : Number, RoundTrips (n.write (flat host byteOrder) endian)
      (Number.read (flat host byteOrder) endian n.1) (id n) n.1.bytes := number_roundTrips
  simpa only [List.map_id] using roundTrips_all h numbers

end numbers

/-! ### Strings -/

inductive Format
  | F16 | F32 | F64 | Vint
deriving DecidableEq, Repr

namespace Format
variable {σ : Type} (B : Base σ) (endian : Endian)

/-- The width of the length in front of a string. -/
def width : Format → ℕ
  | F16 => 16
  | F32 => 32
  | F64 | Vint => 64

def write : Format → List UInt8 → σ → Except Fault σ
  | F16, value, s => writeStringF16 B endian value s
  | F32, value, s => writeStringF32 B endian value s
  | F64, value, s => writeStringF64 B endian value s
  | Vint, value, s => writeStringVint B value s

def read : Format → σ → Except Fault (List UInt8 × σ)
  | F16, s => readStringF16 B endian s
  | F32, s => readStringF32 B endian s
  | F64, s => readStringF64 B endian s
  | Vint, s => readStringVint B s

end Format

section strings
variable {host byteOrder endian : Endian}

/-- A string is read as far as its narrowed length says. -/
theorem string_of_length {w : ℕ} {value : List UInt8} {lengths : Finset ℕ}
    {write : List UInt8 → Except Fault (List UInt8)}
    {read : List UInt8 → Except Fault (BitVec w × List UInt8)}
    (h : RoundTrips write read (BitVec.ofNat w value.length) lengths) :
    ∃ bs : List UInt8,
      (∀ s, (do let s ← write s; (flat host byteOrder).write value s) = .ok (s++(bs++value))) ∧
      ∀ rest,
        (do let (len,s) ← read (bs++value++rest); (flat host byteOrder).read len.toNat s) =
          .ok (value.take (value.length%2^w),value.drop (value.length%2^w)++rest) := by
  obtain ⟨bs,-,hwrite,hread⟩ := h
  refine ⟨bs,fun s => ?_,fun rest => ?_⟩
  · simp only [hwrite, bind, Except.bind, flat, List.append_assoc]
  · have hle : value.length%2^w ≤ value.length := Nat.mod_le ..
    have hsplit : value++rest =
        value.take (value.length%2^w)++(value.drop (value.length%2^w)++rest) := by
      rw [← List.append_assoc, List.take_append_drop]
    rw [List.append_assoc]
    simp only [hread, bind, Except.bind, BitVec.toNat_ofNat]
    rw [hsplit, flat_read (by rw [List.length_take, min_eq_left hle])]

variable (host byteOrder endian)

theorem string_read (f : Format) (value : List UInt8) :
    ∃ bs : List UInt8, (∀ s, f.write (flat host byteOrder) endian value s = .ok (s++(bs++value))) ∧
      ∀ rest, f.read (flat host byteOrder) endian (bs++value++rest) =
        .ok (value.take (value.length%2^f.width),value.drop (value.length%2^f.width)++rest) := by
  cases f with
  | F16 | F32 | F64 => exact string_of_length (fixed_roundTrips (by decide) _)
  | Vint => exact string_of_length (varint_roundTrips (by decide) (show _ ≤ 128^(9+1) by decide) _)

/-- Strings are read back exactly when their lengths fit. -/
theorem strings_read (strings : List (Format × List UInt8)) :
    ∃ bs : List UInt8,
      (∀ s, writeAll (fun p => p.1.write (flat host byteOrder) endian p.2) strings s =
        .ok (s++bs)) ∧
      ∀ rest, readAll (Format.read (flat host byteOrder) endian) (strings.map Prod.fst)
          (bs++rest) = .ok (strings.map Prod.snd,rest) ↔
        ∀ p ∈ strings, p.2.length < 2^p.1.width := by
  induction strings with
  | nil => exact ⟨[],fun s => by simp [writeAll],fun rest => by simp [readAll]⟩
  | cons p strings ih =>
    obtain ⟨f,value⟩ := p
    obtain ⟨bs,hwrite,hread⟩ := string_read host byteOrder endian f value
    obtain ⟨more,hwrites,hreads⟩ := ih
    refine ⟨bs++value++more,fun s => ?_,fun rest => ?_⟩
    · simp only [writeAll, hwrite, bind, Except.bind, hwrites, List.append_assoc]
    rw [List.append_assoc]
    simp only [List.map_cons, readAll, hread, bind, Except.bind, List.forall_mem_cons]
    rcases Nat.lt_or_ge value.length (2^f.width) with hlt | hge
    · simp only [Nat.mod_eq_of_lt hlt, List.take_length, List.drop_length, List.nil_append, hlt,
        true_and]
      rw [← hreads rest]
      cases readAll (Format.read (flat host byteOrder) endian) (strings.map Prod.fst)
        (more++rest) <;> simp [pure, Except.pure, Prod.ext_iff]
    · -- The string comes back shorter than it was.
      have hshort : value.take (value.length%2^f.width) ≠ value := by
        intro h0
        have hlen := congrArg List.length h0
        have hmod := Nat.mod_lt value.length (Nat.two_pow_pos f.width)
        rw [List.length_take] at hlen
        omega
      simp only [Nat.not_lt.mpr hge, false_and, iff_false]
      intro h
      split at h
      · cases h
      · have hhead := (Prod.mk.inj (Except.ok.inj h)).1
        exact hshort (List.cons.inj hhead).1

/-- Strings are read back, up to the last written byte, exactly when those written with a
length of 16 bits are shorter than 2^16. -/
theorem strings_round_trip_iff {strings : List (Format × List UInt8)}
    (hlength : ∀ p ∈ strings, p.2.length < 2^32) (rest : List UInt8) :
    (∃ bs, writeAll (fun p => p.1.write (flat host byteOrder) endian p.2) strings [] = .ok bs ∧
      readAll (Format.read (flat host byteOrder) endian) (strings.map Prod.fst) (bs++rest) =
        .ok (strings.map Prod.snd,rest)) ↔
      ∀ p ∈ strings, p.1 = .F16 → p.2.length < 2^16 := by
  obtain ⟨bs,hwrite,hread⟩ := strings_read host byteOrder endian strings
  have hfits : (∀ p ∈ strings, p.2.length < 2^p.1.width) ↔
      ∀ p ∈ strings, p.1 = .F16 → p.2.length < 2^16 := by
    refine forall₂_congr fun p hp => ?_
    have h32 := hlength p hp
    cases p.1 <;> simp only [Format.width, forall_const, reduceCtorEq, false_imp_iff, iff_true] <;>
      omega
  rw [← hfits, ← hread rest]
  constructor
  · rintro ⟨bs',hbs',h⟩
    cases (hwrite []).symm.trans hbs'
    exact h
  · exact fun h => ⟨bs,hwrite [],h⟩

end strings

/-- An empty string with a length of 16 bits, and one of two bytes with a varint. -/
theorem strings_round_trip_iff_two :
    (∃ bs, writeAll (fun p => p.1.write (flat .LITTLE_ENDIAN .LITTLE_ENDIAN) .BIG_ENDIAN p.2)
        [(Format.F16,[]),(.Vint,[1,2])] [] = .ok bs ∧
      readAll (Format.read (flat .LITTLE_ENDIAN .LITTLE_ENDIAN) .BIG_ENDIAN) [.F16,.Vint]
        (bs++[3]) = .ok ([[],[1,2]],[3])) ↔
      ∀ p ∈ [(Format.F16,[]),(.Vint,([1,2] : List UInt8))], p.1 = .F16 → p.2.length < 2^16 :=
  strings_round_trip_iff _ _ _ (by decide) [3]

/-- A string of 2^16 bytes comes back empty. -/
theorem string_of_two_pow_sixteen : ¬∀ (host byteOrder endian : Endian)
    (strings : List (Format × List UInt8)), (∀ p ∈ strings, p.2.length < 2^32) →
    ∃ bs, writeAll (fun p => p.1.write (flat host byteOrder) endian p.2) strings [] = .ok bs ∧
      readAll (Format.read (flat host byteOrder) endian) (strings.map Prod.fst) bs =
        .ok (strings.map Prod.snd,[]) := by
  intro h
  have hlength : (List.replicate (2^16) (0 : UInt8)).length = 2^16 := List.length_replicate
  generalize List.replicate (2^16) (0 : UInt8) = value at hlength
  obtain ⟨bs,hwrite,hread⟩ := strings_read .LITTLE_ENDIAN .LITTLE_ENDIAN .BIG_ENDIAN
    [(.F16,value)]
  obtain ⟨bs',hbs',hread'⟩ := h .LITTLE_ENDIAN .LITTLE_ENDIAN .BIG_ENDIAN [(.F16,value)]
    fun p hp => by
      rw [List.mem_singleton.mp hp, hlength]
      decide
  cases (hwrite []).symm.trans hbs'
  rw [List.nil_append, ← List.append_nil bs] at hread'
  have hlong := (hread []).mp hread' _ (List.mem_singleton.mpr rfl)
  rw [hlength] at hlong
  exact lt_irrefl _ hlong

end ByteArray
end CoroutineWebserve
