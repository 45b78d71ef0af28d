import Mathlib.Algebra.Group.Int.Defs
import Mathlib.Algebra.Group.Nat.Defs
import Mathlib.Algebra.Ring.Int.Defs
import Mathlib.Data.List.Basic
import Mathlib.Tactic.Common

/-!
# `Stream`: reads and writes of a fixed size

A stream is what its `read` and `write` do, on a state of their own. They may return less than they
were asked for; `readFixSize` and `writeFixSize` call them until all has gone through or a call
fails. The loop keeps a ghost record of its calls.
-/
namespace CoroutineWebserve

/-- The byte at every address. -/
abbrev Memory := ℕ → UInt8

namespace Memory

def store (memory : Memory) (p : ℕ) (bytes : List UInt8) : Memory := fun i =>
  if p ≤ i then (bytes[i-p]?).getD (memory i) else memory i

def load (memory : Memory) (p n : ℕ) : List UInt8 := (List.range n).map fun i => memory (p+i)

@[simp] theorem load_length (memory : Memory) (p n : ℕ) : (memory.load p n).length = n := by
  simp [load]

theorem load_append (memory : Memory) (p m n : ℕ) :
    memory.load p m++memory.load (p+m) n = memory.load p (m+n) := by
  simp [load, List.range_add, Function.comp_def, Nat.add_assoc]

@[simp] theorem store_nil (memory : Memory) (p : ℕ) : memory.store p [] = memory := by
  funext i
  simp [store]

theorem store_append (memory : Memory) (p : ℕ) (xs ys : List UInt8) :
    (memory.store p xs).store (p+xs.length) ys = memory.store p (xs++ys) := by
  funext i
  unfold store
  by_cases hp : p ≤ i
  · by_cases hx : p+xs.length ≤ i
    · have hsub : i-(p+xs.length) = i-p-xs.length := by omega
      have hnone : xs[i-p]? = none := List.getElem?_eq_none (by omega)
      rw [if_pos hx, if_pos hp, if_pos hp, List.getElem?_append_right (by omega), hnone, hsub,
        Option.getD_none]
    · rw [if_neg hx, if_pos hp, if_pos hp, List.getElem?_append_left (by omega)]
  · rw [if_neg (by omega), if_neg hp, if_neg hp]

end Memory

/-- What a call for `length` bytes returns: a count of them, or a value that is not positive. -/
structure Count (length : ℕ) where
  rt : Int32
  le : rt.toInt ≤ length

/-- What a call returns, with the bytes that it transferred. -/
structure Transfer (length : ℕ) extends Count length where
  bytes : List UInt8
  count : bytes.length = rt.toInt.toNat

/-- A count as it is returned. -/
def Count.ofNat {length : ℕ} (n : ℕ) (h : n ≤ length) (hint : n < 2^31) : Count length where
  rt := Int32.ofInt n
  le := by
    rw [Int32.toInt_ofInt_of_le (by omega) (by omega)]
    omega

/-- The return value `-1`. -/
def Count.failed (length : ℕ) : Count length :=
  ⟨-1,Int.le_trans (by decide : (-1 : Int32).toInt ≤ 0) (Int.natCast_nonneg length)⟩

/-- A call that transfers nothing and returns `-1`. -/
def Transfer.failed (length : ℕ) : Transfer length := ⟨.failed length,[],rfl⟩

/-- A transfer of these bytes. -/
def Transfer.ofBytes {length : ℕ} (bytes : List UInt8) (h : bytes.length ≤ length)
    (hint : bytes.length < 2^31) : Transfer length where
  toCount := .ofNat bytes.length h hint
  bytes
  count := by
    rw [Count.ofNat, Int32.toInt_ofInt_of_le (by omega) (by omega), Int.toNat_natCast]

/-- The calls that a stream overrides; `length` is positive. -/
structure Stream (σ : Type*) where
  read (memory : Memory) (buffer length : ℕ) (s : σ) : Transfer length × σ
  write (memory : Memory) (buffer length : ℕ) (s : σ) : Count length × σ

namespace Stream

/-- A call that the loop has made, `offset` bytes behind the beginning of its buffer. -/
structure Call where
  offset : ℕ
  length : ℕ
  rt : ℤ
  bytes : List UInt8
deriving DecidableEq, Repr

/-- The end of a loop: its return value, the calls and the state behind them. -/
structure FixSize (σ : Type*) where
  rt : ℤ
  calls : List Call
  state : σ

variable {σ : Type*}

/-- The conversion to `int`. -/
@[irreducible] def int (n : ℕ) : ℤ := Int.bmod n (2^32)

/-- The conversion to `int64_t`. -/
def int64 (n : ℕ) : ℤ := Int.bmod n (2^64)

/-- The loop of `readFixSize` and `writeFixSize`. -/
def fixSizeLoop (call : (offset left : ℕ) → σ → Transfer left × σ) (length offset : ℕ) (left : ℤ)
    (s : σ) : FixSize σ :=
  if left > 0 then
    let (t,s) := call offset left.toNat s
    let len := t.rt.toInt
    let c : Call := ⟨offset,left.toNat,len,t.bytes⟩
    if len ≤ 0 then ⟨len,[c],s⟩
    else
      let r := fixSizeLoop call length ((offset+len.toNat)%2^64) (left-len) s
      { r with calls := c :: r.calls }
  else ⟨int length,[],s⟩
termination_by left.toNat

/-- `read(buffer + offset, left)`. -/
def readAt (p : Stream σ) (buffer offset left : ℕ) (s : Memory × σ) : Transfer left × Memory × σ :=
  let (t,s') := p.read s.1 (buffer+offset) left s.2
  (t,s.1.store (buffer+offset) t.bytes,s')

/-- `write(buffer + offset, left)`: a positive count is that of the first bytes. -/
def writeAt (p : Stream σ) (memory : Memory) (buffer offset left : ℕ) (s : σ) :
    Transfer left × σ :=
  let (t,s') := p.write memory (buffer+offset) left s
  (⟨t,memory.load (buffer+offset) t.rt.toInt.toNat,Memory.load_length ..⟩,s')

/-- `Stream::readFixSize(void* buffer, size_t length)`. -/
def readFixSize (p : Stream σ) (memory : Memory) (buffer length : ℕ) (s : σ) :
    FixSize (Memory × σ) :=
  fixSizeLoop (p.readAt buffer) length 0 (int64 length) (memory,s)

/-- `Stream::writeFixSize(const void* buffer, size_t length)`. -/
def writeFixSize (p : Stream σ) (memory : Memory) (buffer length : ℕ) (s : σ) : FixSize σ :=
  fixSizeLoop (p.writeAt memory buffer) length 0 (int64 length) s

end Stream

/-! ### Sockets -/

/-- A `SocketStream`: `m_isConnected` of its socket, if it has one, and what is behind it. -/
structure SocketStream (κ : Type*) where
  m_socket : Option Bool
  peer : κ

namespace SocketStream
variable {κ : Type*}

def isConnected (s : SocketStream κ) : Bool := s.m_socket.getD false

/-- The overrides, over `::recv` and `::send`. The sockets test `isConnected` once more. -/
def stream (kernel : Stream κ) : Stream (SocketStream κ) where
  read memory buffer length s :=
    if !s.isConnected then (.failed length,s)
    else
      let (t,peer) := kernel.read memory buffer length s.peer
      (t,{ s with peer })
  write memory buffer length s :=
    if !s.isConnected then (.failed length,s)
    else
      let (t,peer) := kernel.write memory buffer length s.peer
      (t,{ s with peer })

end SocketStream
end CoroutineWebserve
