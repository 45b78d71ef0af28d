import CoroutineWebserve.Buffer.Overwrite
import Mathlib.Data.UInt

/-!
# The node chain behind `ByteArray`

A `ByteArray` keeps its bytes in a chain of equal nodes and caches the node of the current
position in `m_cur`. The chain is a list, `m_cur` an index into it, and the null pointer is
`none`. `memory k i` is what byte `i` of the `k`-th allocation holds before it is written.
-/
namespace CoroutineWebserve.ByteArray
open Buffer

/-- How an operation can fail: the exception the code throws, a null node that is
dereferenced, or a copy past the end of a node. -/
inductive Fault
  | outOfRange (what : String)
  | nullNode
  | overrun
deriving Repr, DecidableEq

/-- `ByteArray::Node`: a block of `size` bytes. The chain's order stands for `next`. -/
structure Node where
  size : ℕ
  ptr : List UInt8
  size_eq : ptr.length = size
deriving DecidableEq

/-- `new Node(s)`; the block is not initialised. -/
def Node.new (memory : ℕ → UInt8) (s : ℕ) : Node where
  size := s
  ptr := (List.range s).map memory
  size_eq := by simp

/-- `memcpy(ptr + npos, bytes)`, for a range that lies in the block. -/
def Node.store (n : Node) (npos : ℕ) (bytes : List UInt8) (h : npos+bytes.length ≤ n.size) :
    Node where
  size := n.size
  ptr := overwrite n.ptr npos bytes
  size_eq := by rw [overwrite_length _ _ _ (by have := n.size_eq; omega), n.size_eq]; omega

def Node.copyIn (n : Node) (npos : ℕ) (bytes : List UInt8) : Except Fault Node :=
  if h : npos+bytes.length ≤ n.size then .ok (n.store npos bytes h) else .error .overrun

/-- `memcpy(buf, ptr + npos, size)`. -/
def Node.copyOut (n : Node) (npos size : ℕ) : Except Fault (List UInt8) :=
  if npos+size ≤ n.size then .ok (window n.ptr npos size) else .error .overrun

end ByteArray

/-- The fields of `ByteArray`; `blocks` counts the nodes allocated so far. -/
structure ByteArray where
  baseSize : ℕ
  position : ℕ
  capacity : ℕ
  size : ℕ
  root : List ByteArray.Node
  cur : Option ℕ
  blocks : ℕ
deriving DecidableEq

namespace ByteArray
open Buffer

/-- Subtraction of `size_t` values. -/
def sizeSub (a b : ℕ) : ℕ := if b ≤ a then a-b else 2^64-(b-a)

/-- The node with this index, or null past the end of the chain. -/
def nodeAt (root : List Node) (i : ℕ) : Option ℕ := if i < root.length then some i else none

/-- The chain from `m_cur` on, empty for a null `m_cur`. -/
def fromCur (a : ByteArray) : List Node := a.cur.elim [] a.root.drop

/-- `m_cur` after `k` moves to the next node. -/
def advance (a : ByteArray) (k : ℕ) : Option ℕ := nodeAt a.root (a.cur.getD 0+k)

/-- `ByteArray::ByteArray(base_size)`. -/
def new (memory : ℕ → ℕ → UInt8) (base_size : ℕ) : ByteArray where
  baseSize := base_size
  position := 0
  capacity := base_size
  size := 0
  root := [Node.new (memory 0) base_size]
  cur := some 0
  blocks := 1

def getPosition (a : ByteArray) : ℕ := a.position
def getSize (a : ByteArray) : ℕ := a.size
def getReadSize (a : ByteArray) : ℕ := sizeSub a.size a.position
def getCapacity (a : ByteArray) : ℕ := sizeSub a.capacity a.position

/-- `ByteArray::clear`: only the first node stays. -/
def clear (a : ByteArray) : ByteArray :=
  { a with position := 0, size := 0, capacity := a.baseSize, root := a.root.take 1, cur := some 0 }

/-- The number of nodes `addCapacity` appends for `size` bytes that do not fit. -/
def nodeCount (baseSize old_cap size : ℕ) : ℕ :=
  size/baseSize + if size%baseSize > old_cap then 1 else 0

/-- `ByteArray::addCapacity`. -/
def addCapacity (memory : ℕ → ℕ → UInt8) (size : ℕ) (a : ByteArray) : ByteArray :=
  if size = 0 then a else
  let old_cap := a.getCapacity
  if old_cap ≥ size then a else
  let count := nodeCount a.baseSize old_cap (size-old_cap)
  { a with
    root := a.root ++ (List.range count).map fun i => Node.new (memory (a.blocks+i)) a.baseSize
    capacity := a.capacity+count*a.baseSize
    cur := if old_cap = 0 then if count = 0 then none else some a.root.length else a.cur
    blocks := a.blocks+count }

/-- The loop of `write` over the chain from `m_cur` on: the chain it leaves and the number
of times `m_cur` moves to the next node. -/
def writeLoop : List Node → ℕ → List UInt8 → Except Fault (List Node × ℕ)
  | [], _, _ => .error .nullNode
  | n :: rest, npos, buf =>
    let ncap := sizeSub n.size npos
    if ncap ≥ buf.length then do
      let n' ← n.copyIn npos buf
      return (n' :: rest, if n.size = npos+buf.length then 1 else 0)
    else do
      let n' ← n.copyIn npos (buf.take ncap)
      let (rest',k) ← writeLoop rest 0 (buf.drop ncap)
      return (n' :: rest', k+1)

/-- The part of `write` behind the call of `addCapacity`. -/
def writeNodes (buf : List UInt8) (a : ByteArray) : Except Fault ByteArray := do
  let npos := a.position%a.baseSize
  let (chain,k) ← writeLoop a.fromCur npos buf
  let position := a.position+buf.length
  return { a with
    root := a.root.take (a.cur.getD 0) ++ chain
    cur := a.advance k
    position
    size := if position > a.size then position else a.size }

/-- `ByteArray::write`. -/
def write (memory : ℕ → ℕ → UInt8) (buf : List UInt8) (a : ByteArray) :
    Except Fault ByteArray :=
  if buf = [] then .ok a else (a.addCapacity memory buf.length).writeNodes buf

/-- The loop of both reads over the chain from `m_cur` on: the bytes it copies and the
number of times it moves to the next node. The first node is read for `ncap` in any case. -/
def readLoop : List Node → ℕ → ℕ → Except Fault (List UInt8 × ℕ)
  | [], _, _ => .error .nullNode
  | n :: rest, npos, size =>
    let ncap := sizeSub n.size npos
    if size = 0 then .ok ([],0) else
    if ncap ≥ size then do
      let out ← n.copyOut npos size
      return (out, if n.size = npos+size then 1 else 0)
    else do
      let out ← n.copyOut npos ncap
      let (out',k) ← readLoop rest 0 (size-ncap)
      return (out++out', k+1)

/-- `ByteArray::read(buf, size)`. -/
def read (size : ℕ) (a : ByteArray) : Except Fault (List UInt8 × ByteArray) :=
  if size > a.getReadSize then .error (.outOfRange "not enough len") else do
  let npos := a.position%a.baseSize
  let (out,k) ← readLoop a.fromCur npos size
  return (out, { a with position := a.position+size, cur := a.advance k })

/-- `ByteArray::read(buf, size, position) const`, which starts at `m_cur`. -/
def readAt (size position : ℕ) (a : ByteArray) : Except Fault (List UInt8) :=
  if size > sizeSub a.size position then .error (.outOfRange "not enough len") else do
  let npos := position%a.baseSize
  let (out,_) ← readLoop a.fromCur npos size
  return out

/-- The walk of `setPosition` from the first node: how many nodes it passes. -/
def seekLoop : List Node → ℕ → Except Fault ℕ
  | [], _ => .error .nullNode
  | n :: rest, v =>
    if v > n.size then do
      let k ← seekLoop rest (v-n.size)
      return k+1
    else .ok (if v = n.size then 1 else 0)

/-- `ByteArray::setPosition`. -/
def setPosition (v : ℕ) (a : ByteArray) : Except Fault ByteArray :=
  if v > a.capacity then .error (.outOfRange "set_position out of range") else do
  let k ← seekLoop a.root v
  return { a with
    position := v
    size := if v > a.size then v else a.size
    cur := nodeAt a.root k }

/-- `ByteArray::toString`. -/
def toString (a : ByteArray) : Except Fault (List UInt8) :=
  if a.getReadSize = 0 then .ok [] else a.readAt a.getReadSize a.position

/-! ### Runs -/

/-- The public operations a run is made of. -/
inductive Op
  | write (buf : List UInt8)
  | read (size : ℕ)
  | setPosition (v : ℕ)
  | clear
  | toString
  | getPosition
  | getSize
  | getReadSize
deriving DecidableEq

/-- What a call hands back: nothing, a number, bytes or an exception. -/
inductive Answer (β : Type*)
  | unit
  | number (n : ℕ)
  | bytes (bs : List β)
  | thrown (what : String)
deriving DecidableEq

/-- The result of a call together with the position and the size after it. -/
structure Observation (β : Type*) where
  answer : Answer β
  position : ℕ
  size : ℕ
deriving DecidableEq

/-- A call whose exception is caught; the other faults have no defined continuation. -/
def catching (a : ByteArray) : Except Fault (Answer UInt8 × ByteArray) →
    Except Fault (Answer UInt8 × ByteArray)
  | .error (.outOfRange what) => .ok (.thrown what, a)
  | r => r

def call (memory : ℕ → ℕ → UInt8) (a : ByteArray) : Op → Except Fault (Answer UInt8 × ByteArray)
  | .write buf => (a.write memory buf).map (.unit,·)
  | .read size => a.catching ((a.read size).map fun r => (.bytes r.1,r.2))
  | .setPosition v => a.catching ((a.setPosition v).map (.unit,·))
  | .clear => .ok (.unit,a.clear)
  | .toString => a.catching (a.toString.map (.bytes ·,a))
  | .getPosition => .ok (.number a.getPosition,a)
  | .getSize => .ok (.number a.getSize,a)
  | .getReadSize => .ok (.number a.getReadSize,a)

def run (memory : ℕ → ℕ → UInt8) : ByteArray → List Op → Except Fault (List (Observation UInt8))
  | _, [] => .ok []
  | a, op :: ops => do
    let (answer,a') ← a.call memory op
    let rest ← run memory a' ops
    return ⟨answer,a'.position,a'.size⟩ :: rest

end ByteArray
end CoroutineWebserve
