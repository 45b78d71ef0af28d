import CoroutineWebserve.ByteArray.File
import CoroutineWebserve.ByteArray.Wire
import CoroutineWebserve.Stream.Arrays

/-!
# Values over a connection

One side writes numbers and strings into an array and sends it, the other receives into an array of
its own and reads them. The connection delivers a prefix of what was sent.
-/
namespace CoroutineWebserve.ByteArray
open Buffer

/-! ### The sender's array -/

section writes
variable {a : ByteArray} {f : FlatBuffer UInt8}

/-- The calls of `write` that write the items. -/
def writes (endian : Endian) (items : List Item) : List Op :=
  (items.flatMap (Item.chunks endian)).map .write

theorem Represents.writeAll (h : a.Represents f) (memory : ℕ → ℕ → UInt8)
    {chunks : List (List UInt8)} (hsafe : f.SafeRun (chunks.map .write)) :
    ∃ a', ByteArray.writeAll (ByteArray.write memory) chunks a = .ok a' ∧
      a'.Represents (chunks.foldl FlatBuffer.write f) := by
  induction chunks generalizing a f with
  | nil => exact ⟨a,rfl,h⟩
  | cons chunk chunks ih =>
    obtain ⟨hone,hmore⟩ := hsafe
    obtain ⟨a₁,hrun,hrep⟩ := h.write memory hone
    obtain ⟨a',hruns,hreps⟩ := ih hrep hmore
    refine ⟨a',?_,hreps⟩
    rw [ByteArray.writeAll, hrun]
    exact hruns

/-- Writes at the end append. -/
theorem FlatBuffer.foldl_write {chunks : List (List UInt8)} (hend : f.cursor = f.cells.length) :
    (chunks.foldl FlatBuffer.write f).cells = f.cells++chunks.flatten.map some := by
  induction chunks generalizing f with
  | nil => simp
  | cons chunk chunks ih =>
    have hwrite : (f.write chunk).cells = overwrite f.cells f.cursor (chunk.map some) := rfl
    have hcells : (f.write chunk).cells = f.cells++chunk.map some := by
      rw [hwrite, hend, overwrite, List.take_length, List.drop_eq_nil_of_le (by omega),
        List.append_nil]
    have hcursor : (f.write chunk).cursor = (f.write chunk).cells.length := by
      rw [hcells, List.length_append, List.length_map, ← hend]
      rfl
    rw [List.foldl_cons, ih hcursor, hcells, List.flatten_cons, List.map_append,
      List.append_assoc]

/-- With the cursor back at the start the array holds the bytes. -/
theorem Represents.rewind (h : a.Represents f) {bytes : List UInt8}
    (hcells : f.cells = bytes.map some) :
    ∃ a', a.setPosition 0 = .ok a' ∧
      a'.Represents (f.setPosition 0 (Nat.zero_le _)) ∧ Holds a' bytes := by
  obtain ⟨a',hseek,hrep⟩ := h.setPosition (v := 0) (Nat.zero_le _)
  obtain ⟨bytes',hstring,hspec⟩ := hrep.toString
  have hspec' : SpecifiesBytes (f.cells++List.replicate (0-f.cells.length) none) bytes' := hspec
  rw [Nat.zero_sub, List.replicate_zero, List.append_nil, hcells] at hspec'
  refine ⟨a',hseek,hrep,hrep.wellFormed,?_⟩
  rw [← hspec'.eq, rest]
  exact Except.ok.inj (hrep.wellFormed.toString.symm.trans hstring)

theorem items_written (memory : ℕ → ℕ → UInt8) (host endian : Endian) {b : ℕ} (hb : 0 < b)
    {items : List Item} (hsafe : (FlatBuffer.new b hb).SafeRun (writes endian items)) :
    ∃ a f, ByteArray.writeAll (Item.write (base memory host host) endian) items
        (ByteArray.new memory b) = .ok a ∧
      a.Represents f ∧ f.cells = (wire endian items).map some := by
  obtain ⟨a,hrun,hrep⟩ := (new_represents memory hb).writeAll memory hsafe
  refine ⟨a,_,(items_write_eq (base memory host host) endian rfl items _).trans hrun,hrep,?_⟩
  rw [FlatBuffer.foldl_write rfl]
  rfl

end writes
end CoroutineWebserve.ByteArray

namespace CoroutineWebserve.Stream
open Buffer CoroutineWebserve.ByteArray

/-- What is sent from the start of an array is a prefix of its bytes. -/
theorem Taken.prefix {f : FlatBuffer UInt8} {data bytes : List UInt8} {ba : ByteArray}
    (h : Taken f bytes ba) (hcells : f.cells = data.map some) (hcursor : f.cursor = 0) :
    bytes <+: data := by
  obtain ⟨hle,hspec,-⟩ := h
  have hspec' : SpecifiesBytes ((f.cells.drop f.cursor).take bytes.length) bytes := hspec
  rw [hcells, hcursor, List.drop_zero, ← List.map_take] at hspec'
  rw [hspec'.eq]
  exact List.take_prefix ..

section delivery
variable {κ κ' : Type}

/-- The two ends of a connection: the sender writes the items into an array of block size `b` and
sends it, the receiver receives as many bytes into an array of block size `b'`. -/
structure Exchange (κ κ' : Type) where
  endian : Endian
  memory : ℕ → ℕ → UInt8
  memory' : ℕ → ℕ → UInt8
  host : Endian
  host' : Endian
  b : ℕ
  b' : ℕ
  b_pos : 0 < b
  b'_pos : 0 < b'
  kernel : Messages κ
  kernel' : Messages κ'
  s : SocketStream κ
  s' : SocketStream κ'
  connected : s.isConnected = true
  connected' : s'.isConnected = true

namespace Exchange
variable (x : Exchange κ κ') (items : List Item)

/-- `writeFixSize` of all that was written. -/
def send : Except Fault (Moved (SocketStream κ)) := do
  let ba ← writeAll (Item.write (base x.memory x.host x.host) x.endian) items
    (ByteArray.new x.memory x.b)
  let ba ← ba.setPosition 0
  writeFixSizeArray x.kernel ba.getReadSize ba x.s

/-- `readFixSize` of as many bytes. -/
def receive : Except Fault (Moved (SocketStream κ')) :=
  readFixSizeArray x.memory' x.kernel' (wire x.endian items).length
    (ByteArray.new x.memory' x.b') x.s'

/-- The receiver's reads, from the start of its array. -/
def decode (ba : ByteArray) : Except Fault (List Item × ByteArray) := do
  let ba ← ba.setPosition 0
  readAll (Item.read (base x.memory' x.host' x.host') x.endian) (items.map Item.kind) ba

end Exchange

/-- A sender of little-endian and a receiver of big-endian numbers, over pipes of two and of three
bytes a call. -/
def twoHosts : Exchange (List UInt8) (List UInt8) where
  endian := .BIG_ENDIAN
  memory _ _ := 0
  memory' _ _ := 0
  host := .LITTLE_ENDIAN
  host' := .BIG_ENDIAN
  b := 4
  b' := 16
  b_pos := by decide
  b'_pos := by decide
  kernel := pipe 2 (by decide)
  kernel' := pipe 3 (by decide)
  s := ⟨some true,[]⟩
  s' := ⟨some true,[1,2,0,1,7]⟩
  connected := rfl
  connected' := rfl

end delivery
end CoroutineWebserve.Stream
