import CoroutineWebserve.ByteArray.Views

/-!
# Room for a transfer

As long as there is room, the operations on the chain are those on a flat array. `addCapacity`
makes room, if it counts the remainder.
-/
namespace CoroutineWebserve.ByteArray
open Buffer

/-! ### Operations that need no growth -/

/-- What an operation leaves of the chain: well formed, of the same nodes, with these bytes. -/
structure Kept (a a' : ByteArray) (bytes : List UInt8) : Prop where
  wellFormed : a'.WellFormed
  capacity : a'.capacity = a.capacity
  base : a'.baseSize = a.baseSize
  nodes : a'.root.length = a.root.length
  bytes : contents a'.root = bytes

/-- The operations are those on the flat array of the chain's bytes. -/
structure FlatOperations (memory : ℕ → ℕ → UInt8) (a : ByteArray) : Prop where
  write : ∀ buf, 0 < buf.length → buf.length ≤ a.capacity-a.position →
    ∃ a', a.write memory buf = .ok a' ∧
      a.Kept a' (overwrite (contents a.root) a.position buf) ∧
      a'.position = a.position+buf.length ∧ a'.size = max a.size (a.position+buf.length)
  read : ∀ n, 0 < n → n ≤ a.size-a.position →
    ∃ a', a.read n = .ok (window (contents a.root) a.position n,a') ∧
      a.Kept a' (contents a.root) ∧ a'.position = a.position+n ∧ a'.size = a.size
  setPosition : ∀ v ≤ a.capacity, ∃ a', a.setPosition v = .ok a' ∧
    a.Kept a' (contents a.root) ∧ a'.position = v ∧ a'.size = max a.size v
  clear : a.clear.WellFormed ∧ a.clear.position = 0 ∧ a.clear.size = 0 ∧
    contents a.clear.root = (contents a.root).take a.baseSize
  toString : a.toString = .ok (window (contents a.root) a.position (a.size-a.position))

namespace WellFormed
variable {a : ByteArray}

theorem write (h : a.WellFormed) (memory : ℕ → ℕ → UInt8) {buf : List UInt8}
    (hpos : 0 < buf.length) (hroom : buf.length ≤ a.capacity-a.position) :
    ∃ a', a.write memory buf = .ok a' ∧
      a.Kept a' (overwrite (contents a.root) a.position buf) ∧
      a'.position = a.position+buf.length ∧ a'.size = max a.size (a.position+buf.length) := by
  have hbuf := List.length_pos_iff.mp hpos
  obtain ⟨root,hrun,hlength,huniform,hbytes⟩ := h.writeNodes hbuf hroom
  rw [ByteArray.write, if_neg hbuf, h.addCapacity_of_le memory hroom]
  have hwell := h.written hlength huniform (n := buf.length) (by omega)
  exact ⟨_,hrun,⟨hwell,rfl,rfl,hlength,hbytes⟩,rfl,rfl⟩

theorem contents_clear (h : a.WellFormed) :
    contents a.clear.root = (contents a.root).take a.baseSize := by
  obtain ⟨n,rest,hroot⟩ := List.exists_cons_of_ne_nil h.root_ne
  have hsize : n.ptr.length = a.baseSize :=
    n.size_eq.trans (h.uniform n (hroot ▸ List.mem_cons_self))
  rw [ByteArray.clear, hroot, contents_cons, ← hsize, List.take_left]
  simp

end WellFormed

/-- On a well-formed chain no operation that needs no growth can be told from that on a flat
array, and none follows a null node. -/
theorem flatOperations (memory : ℕ → ℕ → UInt8) {a : ByteArray} (h : a.WellFormed) :
    a.FlatOperations memory where
  write buf hpos hroom := h.write memory hpos hroom
  read n hpos hn := by
    have hsize := h.size_le
    exact ⟨_,h.read (by omega) (by omega),⟨h.moved (by omega) hsize,rfl,rfl,rfl,rfl⟩,rfl,rfl⟩
  setPosition v hv :=
    ⟨_,h.setPosition hv,⟨h.moved (le_max_right ..) (max_le h.size_le hv),rfl,rfl,rfl,rfl⟩,rfl,rfl⟩
  clear := ⟨h.clear,rfl,rfl,h.contents_clear⟩
  toString := h.toString

theorem flatOperations_twoOfFour : twoOfFour.FlatOperations fun _ _ => 0 :=
  flatOperations _ twoOfFour_wellFormed

/-! ### Growth -/

/-- The remainder of what is missing is zero, or it is more than the room there was, with which
`addCapacity` compares it. -/
def Counted (a : ByteArray) (n : ℕ) : Prop :=
  n ≤ a.capacity-a.position ∨ (n-(a.capacity-a.position))%a.baseSize = 0 ∨
    a.capacity-a.position < (n-(a.capacity-a.position))%a.baseSize

instance (a : ByteArray) (n : ℕ) : Decidable (a.Counted n) :=
  inferInstanceAs (Decidable (_ ∨ _ ∨ _))

/-- `addCapacity(n)` appends the fewest nodes behind which there is room for `n` bytes, and the
views for writing show this room. -/
structure MakesRoom (memory : ℕ → ℕ → UInt8) (a : ByteArray) (n : ℕ) : Prop where
  room : n ≤ (a.addCapacity memory n).capacity-(a.addCapacity memory n).position
  fewest : ∀ k, a.root.length ≤ k → a.position+n ≤ k*a.baseSize →
    (a.addCapacity memory n).root.length ≤ k
  old : a.root <+: (a.addCapacity memory n).root
  wellFormed : (a.addCapacity memory n).WellFormed
  views : ∀ buffers, ∃ iovs, a.getWriteBuffers memory buffers n =
    .ok (n,buffers++iovs,a.addCapacity memory n) ∧ (a.addCapacity memory n).Show a.position n iovs

theorem addCapacity_position (memory : ℕ → ℕ → UInt8) (a : ByteArray) (n : ℕ) :
    (a.addCapacity memory n).position = a.position := by
  unfold addCapacity
  split
  · rfl
  · dsimp only
    split <;> rfl

theorem WellFormed.getWriteBuffers {a : ByteArray} (memory : ℕ → ℕ → UInt8) {n : ℕ} (hn : 0 < n)
    (h : (a.addCapacity memory n).WellFormed)
    (hroom : n ≤ (a.addCapacity memory n).capacity-(a.addCapacity memory n).position)
    (buffers : List IoVec) :
    ∃ iovs, a.getWriteBuffers memory buffers n = .ok (n,buffers++iovs,a.addCapacity memory n) ∧
      (a.addCapacity memory n).Show a.position n iovs := by
  have hle := h.position_le.trans h.size_le
  obtain ⟨iovs,hrun,hshow⟩ := h.gatherLoop_fromCur hn (by omega)
  rw [addCapacity_position] at hshow
  refine ⟨iovs,?_,hshow⟩
  rw [ByteArray.getWriteBuffers, if_neg hn.ne']
  simp only [hrun]
  rfl

/-- The nodes that a growing call appends hold what is missing exactly if the remainder is
counted, and then no fewer would. -/
theorem WellFormed.nodeCount_iff {a : ByteArray} (h : a.WellFormed) {n : ℕ}
    (hlt : a.capacity-a.position < n) :
    n-(a.capacity-a.position) ≤
        nodeCount a.baseSize (a.capacity-a.position) (n-(a.capacity-a.position))*a.baseSize ↔
      a.Counted n := by
  constructor
  · intro hhold
    by_contra hcounted
    rw [Counted, not_or, not_or, not_lt] at hcounted
    exact absurd (nodeCount_mul_lt hcounted.2.1 hcounted.2.2) (Nat.not_lt.mpr hhold)
  · intro hcounted
    rw [nodeCount_eq h.base_pos (hcounted.resolve_left (Nat.not_le.mpr hlt))]
    exact le_blocksFor_mul h.base_pos _

/-- `addCapacity` makes exactly the room that is asked for, if the remainder is counted. -/
theorem makesRoom_iff (memory : ℕ → ℕ → UInt8) {a : ByteArray} (h : a.WellFormed) {n : ℕ}
    (hn : 0 < n) : a.MakesRoom memory n ↔ a.Counted n := by
  have hle := h.position_le.trans h.size_le
  have hcap := h.capacity_eq
  rcases le_or_gt n (a.capacity-a.position) with hroom | hlt
  · have heq := h.addCapacity_of_le memory hroom
    refine iff_of_true ?_ (.inl hroom)
    have hwf : (a.addCapacity memory n).WellFormed := by rwa [heq]
    have hroom' : n ≤ (a.addCapacity memory n).capacity-(a.addCapacity memory n).position := by
      rwa [heq]
    refine ⟨hroom',fun k hk _ => ?_,?_,hwf,hwf.getWriteBuffers memory hn hroom'⟩
    · rwa [heq]
    · rw [heq]
  · obtain ⟨more,heq,hcount,huniform⟩ := addCapacity_grow memory h hlt
    have hiff := h.nodeCount_iff hlt
    rw [← hcount] at hiff
    rw [← hiff]
    have hcapacity : (a.addCapacity memory n).capacity =
        a.capacity+more.length*a.baseSize := by rw [heq]
    have hposition := addCapacity_position memory a n
    constructor
    · intro hmakes
      have hroom := hmakes.room
      omega
    · intro hhold
      have hwf : (a.addCapacity memory n).WellFormed := by
        rw [heq]
        exact h.grow huniform _
      have hroom' : n ≤ (a.addCapacity memory n).capacity-(a.addCapacity memory n).position := by
        omega
      refine ⟨hroom',fun k hk hfit => ?_,?_,hwf,hwf.getWriteBuffers memory hn hroom'⟩
      · -- the nodes behind the old chain have to hold the rest
        have hfew : more.length ≤ k-a.root.length := by
          rw [hcount, nodeCount_eq h.base_pos ((hiff.mp hhold).resolve_left (Nat.not_le.mpr hlt))]
          refine blocksFor_le h.base_pos ?_
          rw [Nat.sub_mul]
          omega
        rw [heq, List.length_append]
        omega
      · rw [heq]
        exact List.prefix_append ..

theorem makesRoom_eight : twoOfFour.MakesRoom (fun _ _ => 0) 8 :=
  (makesRoom_iff _ twoOfFour_wellFormed (by decide)).mpr (by decide)

/-- Five bytes for an array of four: one is missing, which is not more than the four there are. -/
theorem not_makesRoom : ¬∀ (memory : ℕ → ℕ → UInt8) (a : ByteArray) (n : ℕ), a.WellFormed → 0 < n →
    a.MakesRoom memory n := by
  intro h
  have hroom := (h (fun _ _ => 0) twoOfFour 5 twoOfFour_wellFormed (by decide)).room
  exact absurd hroom (by decide)

end CoroutineWebserve.ByteArray
