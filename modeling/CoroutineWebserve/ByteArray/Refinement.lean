import CoroutineWebserve.ByteArray.Chain

/-!
# `ByteArray` against the flat buffer

Each operation is followed from a well-formed chain. The chain refines the flat buffer on
the runs whose growth `addCapacity` counts correctly and whose empty reads find a node.
-/
namespace CoroutineWebserve.ByteArray
open Buffer

/-! ### Specified bytes -/

/-- The bytes that the cells determine are at their places in `bytes`. -/
def Covers (cells : List (Option UInt8)) (bytes : List UInt8) : Prop :=
  ∀ (i : ℕ) (v : UInt8), cells[i]? = some (some v) → bytes[i]? = some v

theorem Covers.overwrite {cells : List (Option UInt8)} {bytes : List UInt8}
    (h : Covers cells bytes) {p : ℕ} {buf : List UInt8} (hp : p ≤ cells.length)
    (hb : p ≤ bytes.length) :
    Covers (Buffer.overwrite cells p (buf.map some)) (Buffer.overwrite bytes p buf) := by
  intro i v hv
  rw [getElem?_overwrite _ _ _ hp] at hv
  rw [getElem?_overwrite _ _ _ hb]
  rw [List.length_map] at hv
  by_cases hi : i < p
  · simp only [hi, if_true] at hv ⊢
    exact h i v hv
  by_cases hx : i < p+buf.length
  · simpa [hi, hx] using hv
  · simp only [hi, hx, if_false] at hv ⊢
    exact h i v hv

theorem Covers.append {cells : List (Option UInt8)} {bytes : List UInt8}
    (h : Covers cells bytes) (more : List UInt8) : Covers cells (bytes++more) := fun i v hv => by
  have hb := h i v hv
  rwa [List.getElem?_append_left (List.getElem?_eq_some_iff.mp hb).1]

theorem Covers.replicate {cells : List (Option UInt8)} {bytes : List UInt8}
    (h : Covers cells bytes) (n : ℕ) : Covers (cells++List.replicate n none) bytes := by
  intro i v hv
  rcases Nat.lt_or_ge i cells.length with hi | hi
  · rw [List.getElem?_append_left hi] at hv
    exact h i v hv
  · rw [List.getElem?_append_right hi] at hv
    have := List.mem_of_getElem? hv
    simp at this

theorem Covers.window {cells : List (Option UInt8)} {bytes : List UInt8}
    (h : Covers cells bytes) {p n : ℕ} (hc : p+n ≤ cells.length) (hb : p+n ≤ bytes.length) :
    SpecifiesBytes (Buffer.window cells p n) (Buffer.window bytes p n) := by
  refine List.forall₂_iff_get.mpr ⟨by rw [window_length _ _ _ hc, window_length _ _ _ hb],?_⟩
  intro i hi hi' v hv
  have hin : i < n := by rwa [window_length _ _ _ hc] at hi
  have hcell : cells[p+i]? = some (some v) := by
    have := getElem?_window cells p n i
    rw [if_pos hin, List.getElem?_eq_getElem hi] at this
    rw [← this]
    exact congrArg some hv
  have hbyte := getElem?_window bytes p n i
  rw [if_pos hin, h _ _ hcell, List.getElem?_eq_getElem hi'] at hbyte
  exact (Option.some.inj hbyte).symm

/-! ### Growth -/

theorem Node.new_uniform (memory : ℕ → ℕ → UInt8) (b k count : ℕ) :
    Uniform b ((List.range count).map fun i => Node.new (memory (k+i)) b) := by
  intro n hn
  obtain ⟨i,-,rfl⟩ := List.mem_map.mp hn
  rfl

/-- What a call that has to grow does: it appends `nodeCount` nodes. -/
theorem addCapacity_grow (memory : ℕ → ℕ → UInt8) {a : ByteArray} (h : a.WellFormed) {size : ℕ}
    (hs : a.capacity-a.position < size) :
    ∃ more, a.addCapacity memory size =
        { a with
          root := a.root++more
          capacity := a.capacity+more.length*a.baseSize
          cur := nodeAt (a.root++more) (a.position/a.baseSize)
          blocks := a.blocks+more.length } ∧
      more.length = nodeCount a.baseSize (a.capacity-a.position) (size-(a.capacity-a.position)) ∧
      Uniform a.baseSize more := by
  have hcap := h.capacity_sub
  refine ⟨(List.range (nodeCount a.baseSize (a.capacity-a.position)
    (size-(a.capacity-a.position)))).map fun i => Node.new (memory (a.blocks+i)) a.baseSize,?_,
    by simp,Node.new_uniform _ _ _ _⟩
  rw [addCapacity, if_neg (by omega), hcap, if_neg (by omega)]
  simp only [List.length_map, List.length_range, ByteArray.mk.injEq, and_true, true_and]
  rcases (h.position_le.trans h.size_le).lt_or_eq with hp | hp
  · rw [if_neg (by omega), h.cur_some hp, nodeAt, if_pos]
    rw [List.length_append]
    exact Nat.lt_add_right _ (h.index_lt hp)
  · -- at full capacity `m_cur` becomes the first new node
    have hi : a.position/a.baseSize = a.root.length := by
      rw [hp, h.capacity_eq, Nat.mul_div_cancel _ h.base_pos]
    rw [if_pos (by omega), nodeAt, hi]
    simp only [List.length_append, List.length_map, List.length_range]
    split
    · next hc => simp [hc]
    · next hc => simp [Nat.pos_of_ne_zero hc]

/-- The chain that `addCapacity` leaves is well formed again. -/
theorem WellFormed.grow {a : ByteArray} (h : a.WellFormed) {more : List Node}
    (hu : Uniform a.baseSize more) (blocks : ℕ) :
    WellFormed { a with
      root := a.root++more
      capacity := a.capacity+more.length*a.baseSize
      cur := nodeAt (a.root++more) (a.position/a.baseSize)
      blocks } where
  base_pos := h.base_pos
  uniform := h.uniform.append hu
  root_ne := List.append_ne_nil_of_left_ne_nil h.root_ne _
  capacity_eq := by
    have hc := h.capacity_eq
    simp only [List.length_append, Nat.add_mul]
    omega
  position_le := h.position_le
  size_le := h.size_le.trans (Nat.le_add_right ..)
  cur_eq := rfl

/-- Where there is room nothing grows. -/
theorem WellFormed.addCapacity_of_le {a : ByteArray} (h : a.WellFormed)
    (memory : ℕ → ℕ → UInt8) {size : ℕ} (hsize : size ≤ a.capacity-a.position) :
    a.addCapacity memory size = a := by
  have hcap := h.capacity_sub
  rw [addCapacity]
  split
  · rfl
  · rw [if_pos (by omega)]

/-! ### The operations on a well-formed chain -/

/-- The cursor at another place of the same nodes. -/
theorem WellFormed.moved {a : ByteArray} (h : a.WellFormed) {position size : ℕ}
    (hle : position ≤ size) (hsize : size ≤ a.capacity) :
    WellFormed { a with position, size, cur := nodeAt a.root (position/a.baseSize) } where
  base_pos := h.base_pos
  uniform := h.uniform
  root_ne := h.root_ne
  capacity_eq := h.capacity_eq
  position_le := hle
  size_le := hsize
  cur_eq := rfl

/-- As many nodes with other bytes, and the cursor behind `n` of them. -/
theorem WellFormed.written {a : ByteArray} (h : a.WellFormed) {root : List Node}
    (hlength : root.length = a.root.length) (hu : Uniform a.baseSize root) {n : ℕ}
    (hroom : n ≤ a.capacity-a.position) :
    WellFormed { a with
      root
      position := a.position+n
      size := max a.size (a.position+n)
      cur := nodeAt root ((a.position+n)/a.baseSize) } where
  base_pos := h.base_pos
  uniform := hu
  root_ne := List.length_pos_iff.mp (hlength ▸ h.root_pos)
  capacity_eq := h.capacity_eq.trans (by rw [hlength])
  position_le := le_max_right ..
  size_le := by
    have hle := h.position_le.trans h.size_le
    exact max_le h.size_le (by dsimp only; omega)
  cur_eq := rfl

/-- A write for which there is room overwrites the bytes at the position. -/
theorem WellFormed.writeNodes {a : ByteArray} (h : a.WellFormed) {buf : List UInt8}
    (hbuf : buf ≠ []) (hroom : buf.length ≤ a.capacity-a.position) :
    ∃ root, a.writeNodes buf = .ok
        { a with
          root
          position := a.position+buf.length
          size := max a.size (a.position+buf.length)
          cur := nodeAt root ((a.position+buf.length)/a.baseSize) } ∧
      root.length = a.root.length ∧ Uniform a.baseSize root ∧
      contents root = overwrite (contents a.root) a.position buf := by
  have hpos := List.length_pos_iff.mpr hbuf
  have hp : a.position < a.capacity := by omega
  have hi := h.index_lt hp
  have hsplit := h.position_split
  have hnpos := Nat.mod_lt a.position h.base_pos
  have hroom' := h.tail_room hp
  obtain ⟨chain,he,hl,hu,hc⟩ := writeLoop_ok h.base_pos (h.uniform.drop (a.position/a.baseSize))
    hnpos hbuf (by omega)
  rw [← h.fromCur_eq hp] at he
  have hlen : (a.root.take (a.position/a.baseSize) ++ chain).length = a.root.length := by
    rw [List.length_append, hl, List.length_take, List.length_drop]
    omega
  refine ⟨a.root.take (a.position/a.baseSize) ++ chain,?_,hlen,(h.uniform.take _).append hu,?_⟩
  · have hmax : (if a.position+buf.length > a.size then a.position+buf.length else a.size) =
        max a.size (a.position+buf.length) := by split <;> omega
    simp only [ByteArray.writeNodes, he, h.cur_some hp, bind, Except.bind, pure, Except.pure,
      h.advance_eq hp, hmax, nodeAt, hlen, Option.getD_some]
  · rw [contents_append, hc]
    conv_rhs => rw [← hsplit]
    rw [contents, contents, contents, List.map_take, List.map_drop,
      h.uniform.even.overwrite_drop (by rw [List.length_map]; exact hi.le)]

/-- A write for which there is no room follows the null node at the end of the chain. -/
theorem WellFormed.writeNodes_null {a : ByteArray} (h : a.WellFormed) {buf : List UInt8}
    (hlong : a.capacity-a.position < buf.length) : a.writeNodes buf = .error .nullNode := by
  have hle := h.position_le.trans h.size_le
  rcases hle.lt_or_eq with hp | hp
  · have hroom := h.tail_room hp
    rw [ByteArray.writeNodes, h.fromCur_eq hp, writeLoop_null (h.uniform.drop _)
      (Nat.mod_lt _ h.base_pos) (by omega)]
    rfl
  · rw [ByteArray.writeNodes, h.fromCur_null hp]
    rfl

/-- A read of readable bytes copies them, once `m_cur` is a node. -/
theorem WellFormed.readLoop {a : ByteArray} (h : a.WellFormed) {size : ℕ}
    (hp : a.position < a.capacity) (hs : a.position+size ≤ a.size) :
    ByteArray.readLoop a.fromCur (a.position%a.baseSize) size =
      .ok (window (contents a.root) a.position size,(a.position%a.baseSize+size)/a.baseSize) := by
  have hi := h.index_lt hp
  have hroom := h.tail_room hp
  have hsize := h.size_le
  have hne : a.root.drop (a.position/a.baseSize) ≠ [] := by
    rw [← List.length_pos_iff, List.length_drop]
    omega
  rw [h.fromCur_eq hp, readLoop_ok h.base_pos (h.uniform.drop _) hne
    (Nat.mod_lt _ h.base_pos) (by omega)]
  conv_rhs => rw [← h.position_split]
  rw [contents, contents, List.map_drop,
    h.uniform.even.window_drop (by rw [List.length_map]; exact hi.le), h.position_split]

theorem WellFormed.read {a : ByteArray} (h : a.WellFormed) {size : ℕ}
    (hp : a.position < a.capacity) (hs : a.position+size ≤ a.size) :
    a.read size = .ok (window (contents a.root) a.position size,
      { a with
        position := a.position+size
        cur := nodeAt a.root ((a.position+size)/a.baseSize) }) := by
  rw [ByteArray.read, if_neg (by rw [h.readSize_eq]; omega)]
  simp only [h.readLoop hp hs, bind, Except.bind, pure, Except.pure, h.advance_eq hp]

theorem WellFormed.setPosition {a : ByteArray} (h : a.WellFormed) {v : ℕ} (hv : v ≤ a.capacity) :
    a.setPosition v = .ok
      { a with
        position := v
        size := max a.size v
        cur := nodeAt a.root (v/a.baseSize) } := by
  have hmax : (if v > a.size then v else a.size) = max a.size v := by split <;> omega
  rw [ByteArray.setPosition, if_neg (by omega),
    seekLoop_ok h.base_pos h.uniform h.root_ne (h.capacity_eq ▸ hv)]
  simp only [hmax]
  rfl

theorem WellFormed.toString {a : ByteArray} (h : a.WellFormed) :
    a.toString = .ok (window (contents a.root) a.position (a.size-a.position)) := by
  have hle := h.position_le
  have hsize := h.size_le
  rw [ByteArray.toString, h.readSize_eq]
  split
  · next hz => rw [hz, window_zero]
  · rw [readAt, sizeSub_of_le hle, if_neg (lt_irrefl _)]
    simp only [h.readLoop (show a.position < a.capacity by omega)
      (show a.position+(a.size-a.position) ≤ a.size by omega), bind, Except.bind, pure, Except.pure]

theorem WellFormed.clear {a : ByteArray} (h : a.WellFormed) : a.clear.WellFormed where
  base_pos := h.base_pos
  uniform := h.uniform.take 1
  root_ne := by
    have := h.root_pos
    rw [← List.length_pos_iff, ByteArray.clear, List.length_take]
    omega
  capacity_eq := by
    have := h.root_pos
    simp only [ByteArray.clear, List.length_take, Nat.min_eq_left (show 1 ≤ a.root.length from this),
      Nat.one_mul]
  position_le := le_rfl
  size_le := Nat.zero_le _
  cur_eq := by
    have := h.root_pos
    simp only [ByteArray.clear, Nat.zero_div, nodeAt, List.length_take]
    rw [if_pos (by omega)]

theorem new_wellFormed (memory : ℕ → ℕ → UInt8) {b : ℕ} (hb : 0 < b) :
    (ByteArray.new memory b).WellFormed where
  base_pos := hb
  uniform := .cons rfl fun n hn => absurd hn (by simp)
  root_ne := by simp [ByteArray.new]
  capacity_eq := by simp [ByteArray.new]
  position_le := le_rfl
  size_le := Nat.zero_le _
  cur_eq := by simp [ByteArray.new, nodeAt]

/-! ### Refinement -/

/-- The chain `a` stands for the flat buffer `f`. -/
structure Represents (a : ByteArray) (f : FlatBuffer UInt8) : Prop where
  wellFormed : a.WellFormed
  block : a.baseSize = f.block
  capacity : a.capacity = f.capacity
  position : a.position = f.cursor
  size : a.size = f.cells.length
  covers : Covers f.cells (contents a.root)

/-- The remainder is counted: the nodes appended are the fewest that hold the rest. -/
theorem nodeCount_eq {b old_cap size : ℕ} (hb : 0 < b)
    (h : size%b = 0 ∨ old_cap < size%b) : nodeCount b old_cap size = blocksFor b size := by
  have hd := Nat.div_add_mod size b
  have hm := Nat.mod_lt size hb
  rw [Nat.mul_comm] at hd
  have hcount : (if size%b > old_cap then 1 else 0) = if size%b = 0 then 0 else 1 := by
    split <;> split <;> omega
  rw [nodeCount, hcount]
  refine Nat.le_antisymm ?_ (blocksFor_le hb ?_)
  · -- one block less would leave out the remainder
    by_contra hlt
    have hlt : blocksFor b size < size/b + if size%b = 0 then 0 else 1 := not_le.mp hlt
    have hcov := le_blocksFor_mul hb size
    split at hlt
    · have := Nat.mul_le_mul_right b (show blocksFor b size+1 ≤ size/b by omega)
      rw [Nat.succ_mul] at this
      omega
    · have := Nat.mul_le_mul_right b (show blocksFor b size ≤ size/b by omega)
      omega
  · rw [Nat.add_mul]
    split <;> omega

/-- The remainder is not counted: the nodes appended do not hold the rest. -/
theorem nodeCount_mul_lt {b old_cap size : ℕ} (hr : size%b ≠ 0) (h : size%b ≤ old_cap) :
    nodeCount b old_cap size*b < size := by
  have hd := Nat.div_add_mod size b
  rw [Nat.mul_comm] at hd
  rw [nodeCount, if_neg (by omega), Nat.add_zero]
  omega

theorem max_overwrite_length {f : FlatBuffer UInt8} {buf : List UInt8} :
    (overwrite f.cells f.cursor (buf.map some)).length =
      max f.cells.length (f.cursor+buf.length) := by
  rw [overwrite_length _ _ _ f.cursor_le, List.length_map]

namespace Represents
variable {a : ByteArray} {f : FlatBuffer UInt8} (memory : ℕ → ℕ → UInt8)

theorem free_eq (h : Represents a f) : a.capacity-a.position = f.free := by
  rw [h.capacity, h.position]; rfl

/-- A write behind which the chain has room. -/
theorem writeNodes (h : Represents a f) {buf : List UInt8} (hbuf : buf ≠ [])
    (hroom : buf.length ≤ f.free) :
    ∃ a', a.writeNodes buf = .ok a' ∧ Represents a' (f.write buf) := by
  have hfree := h.free_eq
  obtain ⟨root,he,hl,hu,hc⟩ := h.wellFormed.writeNodes hbuf (by omega)
  have hpos := h.position
  have hsize := h.size
  have hcap := h.wellFormed.contents_length
  have hlen := List.length_pos_iff.mpr hbuf
  have hgrow : buf.length-f.free = 0 := by omega
  have hwell := h.wellFormed.written hl hu (n := buf.length) (by omega)
  refine ⟨_,he,⟨hwell,h.block,?_,?_,?_,?_⟩⟩
  · simpa [FlatBuffer.write, hgrow, blocksFor_zero f.block_pos] using h.capacity
  · simp only [FlatBuffer.write, hpos]
  · simp only [FlatBuffer.write, max_overwrite_length, hpos, hsize]
  · rw [hc, hpos]
    exact h.covers.overwrite f.cursor_le (by omega)

/-- Growing by enough nodes only adds room. -/
theorem grow (h : Represents a f) {more : List Node} (hu : Uniform a.baseSize more) (blocks : ℕ) :
    Represents
      { a with
        root := a.root++more
        capacity := a.capacity+more.length*a.baseSize
        cur := nodeAt (a.root++more) (a.position/a.baseSize)
        blocks }
      { f with
        capacity := f.capacity+more.length*f.block
        cells_le := f.cells_le.trans (Nat.le_add_right ..) } where
  wellFormed := h.wellFormed.grow hu blocks
  block := h.block
  capacity := by simp only [h.capacity, h.block]
  position := h.position
  size := h.size
  covers := by
    rw [contents_append]
    exact h.covers.append _

theorem write (h : Represents a f) {buf : List UInt8} (hs : f.Safe (.write buf)) :
    ∃ a', a.write memory buf = .ok a' ∧ Represents a' (f.write buf) := by
  rw [ByteArray.write]
  split
  · next hbuf =>
    subst hbuf
    have : f.write [] = f := by
      cases f
      simp [FlatBuffer.write, overwrite, blocksFor_zero ‹_›]
    exact ⟨a,rfl,by rwa [this]⟩
  · next hbuf =>
    have hfree := h.free_eq
    rcases Nat.lt_or_ge f.free buf.length with hlt | hge
    · obtain ⟨more,he,hl,hu⟩ := addCapacity_grow memory h.wellFormed (hfree ▸ hlt)
      have hcount : more.length = blocksFor f.block (buf.length-f.free) := by
        rw [hl, hfree, h.block, nodeCount_eq f.block_pos]
        exact hs.resolve_left (by omega)
      have hcov := le_blocksFor_mul f.block_pos (buf.length-f.free)
      have hcur := f.cursor_add_free
      rw [he]
      obtain ⟨a',he',hr⟩ := (h.grow hu (a.blocks+more.length)).writeNodes hbuf (by
        rw [FlatBuffer.free, hcount]
        dsimp only
        omega)
      refine ⟨a',he',?_⟩
      convert hr using 1
      simp only [FlatBuffer.write, hcount, FlatBuffer.free, FlatBuffer.mk.injEq, and_true, true_and]
      rw [show buf.length - (f.capacity + blocksFor f.block (buf.length-(f.capacity-f.cursor))*f.block
        - f.cursor) = 0 by unfold FlatBuffer.free at *; omega, blocksFor_zero f.block_pos]
      omega
    · rw [h.wellFormed.addCapacity_of_le memory (hfree ▸ hge)]
      exact h.writeNodes hbuf hge

/-- A write whose remainder `addCapacity` does not count ends at a null node. -/
theorem write_null (h : Represents a f) {buf : List UInt8} (hs : ¬f.Safe (.write buf)) :
    a.write memory buf = .error .nullNode := by
  simp only [FlatBuffer.Safe, not_or, not_le, not_lt] at hs
  obtain ⟨hlt,hr,hle⟩ := hs
  have hfree := h.free_eq
  obtain ⟨more,he,hl,hu⟩ := addCapacity_grow memory h.wellFormed (hfree ▸ hlt)
  rw [hfree, h.block] at hl
  have hshort := nodeCount_mul_lt hr hle
  rw [← hl] at hshort
  have hbuf : buf ≠ [] := List.length_pos_iff.mp (by omega)
  rw [ByteArray.write, if_neg hbuf, he]
  refine (h.wellFormed.grow hu _).writeNodes_null ?_
  have := h.wellFormed.position_le.trans h.wellFormed.size_le
  rw [h.block]
  dsimp only
  omega

theorem setPosition (h : Represents a f) {v : ℕ} (hv : v ≤ f.capacity) :
    ∃ a', a.setPosition v = .ok a' ∧ Represents a' (f.setPosition v hv) := by
  have hsize := h.size
  have hcap := h.capacity
  have hwell := h.wellFormed.moved (show v ≤ max a.size v from le_max_right ..)
    (max_le h.wellFormed.size_le (by omega))
  refine ⟨_,h.wellFormed.setPosition (by omega),
    ⟨hwell,h.block,h.capacity,rfl,?_,h.covers.replicate _⟩⟩
  simp only [FlatBuffer.setPosition, List.length_append, List.length_replicate]
  omega

theorem read (h : Represents a f) {n : ℕ} (hn : n ≤ f.cells.length-f.cursor)
    (hs : f.Safe (.read n)) :
    ∃ bytes a', a.read n = .ok (bytes,a') ∧ SpecifiesBytes (f.read n hn).1 bytes ∧
      Represents a' (f.read n hn).2 := by
  have hsize := h.size
  have hpos := h.position
  have hcap := h.capacity
  have hcur := f.cursor_le
  have hcells := f.cells_le
  have hlen := h.wellFormed.contents_length
  have hp : a.position < a.capacity := by
    rcases Nat.eq_zero_or_pos n with hz | hz
    · have := hs hz
      omega
    · omega
  have hwell := h.wellFormed.moved (show a.position+n ≤ a.size by omega) h.wellFormed.size_le
  refine ⟨_,_,h.wellFormed.read hp (by omega),?_,⟨hwell,h.block,h.capacity,?_,h.size,h.covers⟩⟩
  · rw [hpos]
    exact h.covers.window (by omega) (by omega)
  · simp only [FlatBuffer.read, hpos]

theorem clear (h : Represents a f) : Represents a.clear f.clear where
  wellFormed := h.wellFormed.clear
  block := h.block
  capacity := h.block
  position := rfl
  size := rfl
  covers := fun i v hv => by simp [FlatBuffer.clear, FlatBuffer.new] at hv

theorem toString (h : Represents a f) :
    ∃ bytes, a.toString = .ok bytes ∧ SpecifiesBytes (f.cells.drop f.cursor) bytes := by
  have hsize := h.size
  have hpos := h.position
  have hcap := h.capacity
  have hcur := f.cursor_le
  have hcells := f.cells_le
  have hlen := h.wellFormed.contents_length
  refine ⟨_,h.wellFormed.toString,?_⟩
  rw [hpos, hsize, show f.cells.drop f.cursor = window f.cells f.cursor (f.cells.length-f.cursor) by
    rw [window, List.take_of_length_le (by simp)]]
  exact h.covers.window (by omega) (by omega)

theorem readSize (h : Represents a f) : a.getReadSize = f.cells.length-f.cursor := by
  rw [h.wellFormed.readSize_eq, h.size, h.position]

/-- A safe call gives the specified answer and represents the specified state again. -/
theorem call (h : Represents a f) {op : Op} (hs : f.Safe op) :
    ∃ answer a', a.call memory op = .ok (answer,a') ∧ SpecifiesAnswer (f.call op).1 answer ∧
      Represents a' (f.call op).2 := by
  cases op with
  | write buf =>
    obtain ⟨a',he,hr⟩ := h.write memory hs
    exact ⟨.unit,a',by rw [ByteArray.call, he]; rfl,trivial,hr⟩
  | read n =>
    rw [ByteArray.call, FlatBuffer.call]
    split
    · next hn =>
      obtain ⟨bytes,a',he,hb,hr⟩ := h.read hn hs
      exact ⟨.bytes bytes,a',by rw [he]; rfl,hb,hr⟩
    · next hn =>
      refine ⟨.thrown "not enough len",a,?_,rfl,h⟩
      rw [ByteArray.read, if_pos (by rw [h.readSize]; omega)]
      rfl
  | setPosition v =>
    rw [ByteArray.call, FlatBuffer.call]
    split
    · next hv =>
      obtain ⟨a',he,hr⟩ := h.setPosition hv
      exact ⟨.unit,a',by rw [he]; rfl,trivial,hr⟩
    · next hv =>
      refine ⟨.thrown "set_position out of range",a,?_,rfl,h⟩
      rw [ByteArray.setPosition, if_pos (by rw [h.capacity]; omega)]
      rfl
  | clear => exact ⟨.unit,a.clear,rfl,trivial,h.clear⟩
  | toString =>
    obtain ⟨bytes,he,hb⟩ := h.toString
    exact ⟨.bytes bytes,a,by rw [ByteArray.call, he]; rfl,hb,h⟩
  | getPosition => exact ⟨_,a,rfl,h.position.symm,h⟩
  | getSize => exact ⟨_,a,rfl,h.size.symm,h⟩
  | getReadSize => exact ⟨_,a,rfl,h.readSize.symm,h⟩

/-- A call that is not safe dereferences a null node. -/
theorem call_null (h : Represents a f) {op : Op} (hs : ¬f.Safe op) :
    a.call memory op = .error .nullNode := by
  cases op with
  | write buf => rw [ByteArray.call, h.write_null memory hs]; rfl
  | read n =>
    simp only [FlatBuffer.Safe, Classical.not_imp, not_lt] at hs
    obtain ⟨rfl,hfull⟩ := hs
    have hp : a.position = a.capacity := by
      have := h.wellFormed.position_le.trans h.wellFormed.size_le
      have := h.position
      have := h.capacity
      omega
    rw [ByteArray.call, ByteArray.read, if_neg (Nat.not_lt_zero _), h.wellFormed.fromCur_null hp]
    rfl
  | setPosition | clear | toString | getPosition | getSize | getReadSize =>
    exact absurd trivial hs

theorem run_iff (h : Represents a f) (ops : List Op) :
    Refines (a.run memory ops) (f.run ops) ↔ f.SafeRun ops := by
  induction ops generalizing a f with
  | nil => exact ⟨fun _ => trivial,fun _ => .nil⟩
  | cons op ops ih =>
    by_cases hs : f.Safe op
    · obtain ⟨answer,a',he,ha,hr⟩ := h.call memory hs
      rw [FlatBuffer.SafeRun, and_iff_right hs, ← ih hr, ByteArray.run, he]
      simp only [bind, Except.bind, FlatBuffer.run]
      cases a'.run memory ops with
      | error e => exact Iff.rfl
      | ok rest =>
        refine List.forall₂_cons.trans (and_iff_right ⟨ha,?_,?_⟩)
        · exact hr.position.symm
        · exact hr.size.symm
    · rw [ByteArray.run, h.call_null memory hs]
      exact ⟨False.elim,fun hg => hs hg.1⟩

end Represents

theorem new_represents (memory : ℕ → ℕ → UInt8) {b : ℕ} (hb : 0 < b) :
    Represents (ByteArray.new memory b) (FlatBuffer.new b hb) where
  wellFormed := new_wellFormed memory hb
  block := rfl
  capacity := rfl
  position := rfl
  size := rfl
  covers := fun i v hv => by simp [FlatBuffer.new] at hv

/-- From the constructor on, a run of operations behaves like the flat buffer exactly when
every step of it is safe. -/
theorem run_refines_iff (memory : ℕ → ℕ → UInt8) {b : ℕ} (hb : 0 < b) (ops : List Op) :
    Refines ((ByteArray.new memory b).run memory ops) ((FlatBuffer.new b hb).run ops) ↔
      (FlatBuffer.new b hb).SafeRun ops :=
  (new_represents memory hb).run_iff memory ops

theorem run_refines_iff_three : Refines
    ((ByteArray.new (fun _ _ => 0) 4).run (fun _ _ => 0) [.write [1,2,3], .write [4,5,6]])
    ((FlatBuffer.new 4 (by decide)).run [.write [1,2,3], .write [4,5,6]]) :=
  (run_refines_iff (fun _ _ => 0) (by decide) _).mpr (by decide)

/-- Five bytes into an empty array of block size four: one byte is missing, and one is not
more than the four bytes of free room, so no node is appended. -/
theorem write_five_of_four : ¬Refines
    ((ByteArray.new (fun _ _ => 0) 4).run (fun _ _ => 0) [.write [1,2,3,4,5]])
    ((FlatBuffer.new 4 (by decide)).run [.write [1,2,3,4,5]]) := by
  have h : (ByteArray.new (fun _ _ => 0) 4).run (fun _ _ => 0) [.write [1,2,3,4,5]] =
      .error .nullNode := by decide
  rw [h]
  exact id

end CoroutineWebserve.ByteArray
