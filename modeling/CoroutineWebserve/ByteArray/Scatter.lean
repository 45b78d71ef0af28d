import CoroutineWebserve.ByteArray.Room

/-!
# Messages into and out of the views

The kernel fills the views of an array one after the other, or takes what they show, and the caller
moves the cursor behind it. Together this is a write, or a read, of the flat buffer.
-/
namespace CoroutineWebserve.ByteArray
open Buffer

/-- Bytes into the range of a view, from its beginning on. -/
def IoVec.fill (v : IoVec) (bytes : List UInt8) (root : List Node) : Except Fault (List Node) :=
  match root[v.node]? with
  | none => .error .nullNode
  | some n => do
    let n' ← n.copyIn v.npos bytes
    return root.set v.node n'

/-- The bytes of a message into the views, each of them full before the next one. -/
def scatter : List IoVec → List UInt8 → List Node → Except Fault (List Node)
  | [], _, root => .ok root
  | v :: iovs, bytes, root => do
    let root ← v.fill (bytes.take v.len) root
    scatter iovs (bytes.drop v.len) root

/-- The bytes of a message from the views. -/
def gather (root : List Node) (iovs : List IoVec) : List UInt8 := iovs.flatMap (IoVec.bytes root)

/-- The length of a message over the views. -/
def total (iovs : List IoVec) : ℕ := (iovs.map IoVec.len).sum

/-- `setPosition(getPosition() + rt)`, behind a call that returned a count. -/
def moveBy (a : ByteArray) (rt : ℤ) : Except Fault ByteArray :=
  if rt > 0 then a.setPosition (a.getPosition+rt.toNat) else .ok a

/-! ### Filling the views -/

section fill
variable {b : ℕ} {chain : List Node}

theorem inside_iff (hu : Uniform b chain) {v : IoVec} :
    v.Inside chain ↔ v.node < chain.length ∧ v.npos+v.len ≤ b := by
  constructor
  · rintro ⟨n,hn,hle⟩
    obtain ⟨hlt,hget⟩ := List.getElem?_eq_some_iff.mp hn
    exact ⟨hlt,hu n (hget ▸ List.getElem_mem hlt) ▸ hle⟩
  · rintro ⟨hlt,hle⟩
    exact ⟨chain[v.node],List.getElem?_eq_getElem hlt,(hu _ (List.getElem_mem hlt)).symm ▸ hle⟩

/-- What a call leaves of a chain of which it overwrites bytes. -/
structure Overwritten (b : ℕ) (chain chain' : List Node) (position : ℕ) (bytes : List UInt8) :
    Prop where
  length : chain'.length = chain.length
  uniform : Uniform b chain'
  contents : contents chain' = overwrite (contents chain) position bytes

theorem IoVec.fill_ok (hu : Uniform b chain) {v : IoVec} (h : v.Inside chain) {bytes : List UInt8}
    (hle : bytes.length ≤ v.len) : ∃ chain', v.fill bytes chain = .ok chain' ∧
      Overwritten b chain chain' (v.node*b+v.npos) bytes := by
  obtain ⟨hlt,hend⟩ := (inside_iff hu).mp h
  have hsize : chain[v.node].size = b := hu _ (List.getElem_mem hlt)
  have hin : v.npos+bytes.length ≤ chain[v.node].size := by omega
  have hset : chain.set v.node (chain[v.node].store v.npos bytes hin) =
      chain.take v.node++chain[v.node].store v.npos bytes hin :: chain.drop (v.node+1) :=
    List.set_eq_take_cons_drop _ hlt
  refine ⟨chain.set v.node (chain[v.node].store v.npos bytes hin),?_,List.length_set,?_,?_⟩
  · rw [IoVec.fill, List.getElem?_eq_getElem hlt]
    dsimp only
    rw [Node.copyIn_ok hin]
    rfl
  · intro n hn
    rcases List.mem_or_eq_of_mem_set hn with hn | rfl
    · exact hu n hn
    · exact hsize
  · have hdrop : chain.drop v.node = chain[v.node] :: chain.drop (v.node+1) :=
      List.drop_eq_getElem_cons hlt
    have hfit : v.npos+bytes.length ≤ chain[v.node].ptr.length := by
      rw [chain[v.node].size_eq]
      exact hin
    rw [hset, contents_append, contents_cons, contents, contents, List.map_take]
    rw [contents, hu.even.overwrite_drop (by rw [List.length_map]; exact hlt.le), ← List.map_drop,
      hdrop, List.map_cons, List.flatten_cons, overwrite_append_left _ _ _ _ hfit]
    rfl

theorem overwrite_nil {α : Type*} (l : List α) (p : ℕ) : overwrite l p [] = l := by
  simp [overwrite]

/-- A message overwrites what the views show, from their beginning on. -/
theorem scatter_ok (hu : Uniform b chain) {position n : ℕ} {iovs : List IoVec}
    (hinside : ∀ v ∈ iovs, v.Inside chain)
    (hpositions : iovs.flatMap (IoVec.positions b) = List.range' position n) {bytes : List UInt8}
    (hle : bytes.length ≤ n) (hfit : position+n ≤ chain.length*b) :
    ∃ chain', scatter iovs bytes chain = .ok chain' ∧
      Overwritten b chain chain' position bytes := by
  induction iovs generalizing chain position n bytes with
  | nil =>
    have hn : 0 = n := by simpa using congrArg List.length hpositions
    have hbytes : bytes = [] := List.eq_nil_of_length_eq_zero (by omega)
    refine ⟨chain,rfl,rfl,hu,?_⟩
    rw [hbytes, overwrite_nil]
  | cons v iovs ih =>
    rw [List.flatMap_cons] at hpositions
    have hlen : v.len ≤ n := by
      have hlength := congrArg List.length hpositions
      rw [List.length_append, IoVec.positions, List.length_range', List.length_range'] at hlength
      omega
    rw [range'_split position hlen] at hpositions
    obtain ⟨hhead,hrest⟩ := List.append_inj hpositions (by simp [IoVec.positions])
    obtain ⟨chain₁,hfill,hone⟩ := IoVec.fill_ok hu (hinside v List.mem_cons_self)
      (show (bytes.take v.len).length ≤ v.len by rw [List.length_take]; omega)
    have hfirst : contents chain₁ = overwrite (contents chain) position (bytes.take v.len) := by
      rw [hone.contents]
      by_cases hzero : v.len = 0
      · rw [hzero, List.take_zero, overwrite_nil, overwrite_nil]
      · obtain ⟨m,hm⟩ := Nat.exists_eq_succ_of_ne_zero hzero
        rw [IoVec.positions, hm, List.range'_succ, List.range'_succ] at hhead
        rw [(List.cons.inj hhead).1]
    have hinside₁ : ∀ w ∈ iovs, w.Inside chain₁ := by
      intro w hw
      have hold := (inside_iff hu).mp (hinside w (List.mem_cons_of_mem v hw))
      exact (inside_iff hone.uniform).mpr ⟨hone.length.symm ▸ hold.1,hold.2⟩
    have hdrop : (bytes.drop v.len).length ≤ n-v.len := by
      rw [List.length_drop]
      omega
    obtain ⟨chain',hscatter,hmore⟩ := ih hone.uniform hinside₁ hrest hdrop
      (by rw [hone.length]; omega)
    refine ⟨chain',?_,hmore.length.trans hone.length,hmore.uniform,?_⟩
    · rw [scatter, hfill]
      exact hscatter
    · rw [hmore.contents, hfirst]
      rcases le_or_gt bytes.length v.len with hshort | hlong
      · rw [List.drop_eq_nil_of_le hshort, overwrite_nil, List.take_of_length_le hshort]
      · have htake : (bytes.take v.len).length = v.len := by
          rw [List.length_take]
          omega
        have hpos : position ≤ (contents chain).length := by
          rw [hu.contents_length]
          omega
        have htwo := overwrite_overwrite (contents chain) position (bytes.take v.len)
          (bytes.drop v.len) hpos
        rwa [htake, List.take_append_drop] at htwo

end fill

theorem Show.total_eq {a : ByteArray} {position n : ℕ} {iovs : List IoVec}
    (h : a.Show position n iovs) : total iovs = n := by
  have hlength := congrArg List.length h.positions
  rw [List.length_flatMap, List.length_range'] at hlength
  rw [← hlength, total]
  congr 1
  exact List.map_congr_left fun v _ => by rw [IoVec.positions, List.length_range']

/-! ### Room in the flat buffer -/

namespace FlatBuffer
variable {β : Type*} (f : FlatBuffer β)

/-- The flat buffer with room for `n` cells behind the cursor. -/
def reserve (n : ℕ) : FlatBuffer β where
  block := f.block
  capacity := f.capacity+blocksFor f.block (n-f.free)*f.block
  cells := f.cells
  cursor := f.cursor
  block_pos := f.block_pos
  cursor_le := f.cursor_le
  cells_le := f.cells_le.trans (Nat.le_add_right ..)

variable {f}

theorem reserve_of_le {n : ℕ} (h : n ≤ f.free) : f.reserve n = f := by
  have hnone : n-f.free = 0 := by omega
  cases f
  simp [reserve, hnone, blocksFor_zero ‹_›]

theorem le_free_reserve (f : FlatBuffer β) (n : ℕ) : n ≤ (f.reserve n).free := by
  have hcov := le_blocksFor_mul f.block_pos (n-f.free)
  have hcur := f.cursor_add_free
  have hnew := (f.reserve n).cursor_add_free
  simp only [reserve] at hnew
  unfold reserve
  omega

theorem write_nil (f : FlatBuffer β) : f.write [] = f := by
  cases f
  simp [write, overwrite, blocksFor_zero ‹_›]

theorem free_write {bs : List β} (h : bs.length ≤ f.free) :
    (f.write bs).free = f.free-bs.length := by
  have hnone : bs.length-f.free = 0 := by omega
  rw [free, write]
  simp only [hnone, blocksFor_zero f.block_pos]
  rw [free]
  omega

/-- Where there is room for both, two writes are one. -/
theorem write_write {xs ys : List β} (h : (xs++ys).length ≤ f.free) :
    (f.write xs).write ys = f.write (xs++ys) := by
  rw [List.length_append] at h
  have hfirst : xs.length-f.free = 0 := by omega
  have hfree : (f.write xs).free = f.free-xs.length := free_write (by omega)
  have hsecond : ys.length-(f.write xs).free = 0 := by omega
  have hboth : (xs++ys).length-f.free = 0 := by
    rw [List.length_append]
    omega
  have hcells := overwrite_overwrite f.cells f.cursor (xs.map some) (ys.map some) f.cursor_le
  rw [List.length_map, ← List.map_append] at hcells
  rw [write, mk.injEq]
  refine ⟨rfl,?_,hcells,?_⟩
  · rw [hsecond]
    simp only [write, hfirst, hboth, blocksFor_zero f.block_pos, Nat.zero_mul, Nat.add_zero]
  · simp only [write, List.length_append, Nat.add_assoc]

end FlatBuffer

/-! ### Receiving -/

/-- Where the remainder is not counted, the walk over the views runs past the chain. -/
theorem WellFormed.getWriteBuffers_null {a : ByteArray} (h : a.WellFormed)
    (memory : ℕ → ℕ → UInt8) {n : ℕ} (hnot : ¬a.Counted n) (buffers : List IoVec) :
    a.getWriteBuffers memory buffers n = .error .nullNode := by
  have hlt : a.capacity-a.position < n := by
    by_contra hroom
    exact hnot (.inl (not_lt.mp hroom))
  have hle := h.position_le.trans h.size_le
  obtain ⟨more,heq,hcount,huniform⟩ := addCapacity_grow memory h hlt
  have hshort := mt (h.nodeCount_iff hlt).mp hnot
  rw [← hcount, not_le] at hshort
  have hwell : (a.addCapacity memory n).WellFormed := by
    rw [heq]
    exact h.grow huniform _
  have hposition := addCapacity_position memory a n
  have hcapacity : (a.addCapacity memory n).capacity = a.capacity+more.length*a.baseSize := by
    rw [heq]
  have hwalk : gatherLoop (a.addCapacity memory n).fromCur ((a.addCapacity memory n).cur.getD 0)
      ((a.addCapacity memory n).position%(a.addCapacity memory n).baseSize) n =
        .error .nullNode := by
    rcases (hwell.position_le.trans hwell.size_le).lt_or_eq with hp | hp
    · rw [hwell.fromCur_drop, hwell.cur_some hp, Option.getD_some]
      exact hwell.gatherLoop_drop_null (by omega) (by omega)
    · rw [hwell.fromCur_null hp]
      rfl
  rw [ByteArray.getWriteBuffers, if_neg (show n ≠ 0 by omega)]
  simp only [hwalk]
  rfl

namespace Represents
variable {a : ByteArray} {f : FlatBuffer UInt8}

theorem reserve (h : Represents a f) (memory : ℕ → ℕ → UInt8) {n : ℕ} (hcounted : a.Counted n) :
    Represents (a.addCapacity memory n) (f.reserve n) := by
  have hfree := h.free_eq
  rcases le_or_gt n f.free with hroom | hlt
  · rw [h.wellFormed.addCapacity_of_le memory (by omega), FlatBuffer.reserve_of_le hroom]
    exact h
  · obtain ⟨more,heq,hcount,huniform⟩ := addCapacity_grow memory h.wellFormed
      (show a.capacity-a.position < n by omega)
    have hfewest : more.length = blocksFor f.block (n-f.free) := by
      rw [hcount, nodeCount_eq h.wellFormed.base_pos (hcounted.resolve_left (by omega)), hfree,
        h.block]
    rw [heq]
    convert h.grow huniform (a.blocks+more.length) using 1
    rw [FlatBuffer.reserve, FlatBuffer.mk.injEq, hfewest]
    exact ⟨rfl,rfl,rfl,rfl⟩

/-- The views that a call which receives `n` bytes passes on. -/
theorem getWriteBuffers (h : Represents a f) (memory : ℕ → ℕ → UInt8) {n : ℕ} (hn : 0 < n)
    (hcounted : a.Counted n) :
    ∃ iovs, a.getWriteBuffers memory [] n = .ok (n,iovs,a.addCapacity memory n) ∧
      (a.addCapacity memory n).Show (a.addCapacity memory n).position n iovs := by
  have hreserve := h.reserve memory hcounted
  have hroom := f.le_free_reserve n
  rw [← hreserve.free_eq] at hroom
  rw [addCapacity_position]
  exact hreserve.wellFormed.getWriteBuffers memory hn hroom []

/-- Bytes into the views at the cursor, and the cursor moved behind them, are a write. -/
theorem received (h : Represents a f) {n : ℕ} {iovs : List IoVec}
    (hshow : a.Show a.position n iovs) (hroom : n ≤ f.free) {bytes : List UInt8}
    (hle : bytes.length ≤ n) :
    ∃ root a', scatter iovs bytes a.root = .ok root ∧
      { a with root }.moveBy bytes.length = .ok a' ∧ Represents a' (f.write bytes) := by
  have hfree := h.free_eq
  have hwell := h.wellFormed
  have hend := hwell.position_le.trans hwell.size_le
  obtain ⟨root,hscatter,hover⟩ := scatter_ok hwell.uniform hshow.inside hshow.positions hle
    (by rw [← hwell.capacity_eq]; omega)
  by_cases hzero : bytes = []
  · subst hzero
    have hcontents : contents root = contents a.root := by rw [hover.contents, overwrite_nil]
    have hsame : ({ a with root } : ByteArray).WellFormed := by
      have := hwell.written hover.length hover.uniform (n := 0) (Nat.zero_le _)
      have hmax : max a.size a.position = a.size := max_eq_left hwell.position_le
      have hcur : nodeAt root (a.position/a.baseSize) = a.cur := by
        rw [hwell.cur_eq, nodeAt, nodeAt, hover.length]
      simpa only [Nat.add_zero, hmax, hcur] using this
    refine ⟨root,{ a with root },hscatter,by simp [moveBy],?_⟩
    rw [f.write_nil]
    exact ⟨hsame,h.block,h.capacity,h.position,h.size,hcontents ▸ h.covers⟩
  · have hpos := List.length_pos_iff.mpr hzero
    have hgrow : bytes.length-f.free = 0 := by omega
    have hmoved := hwell.written hover.length hover.uniform (n := bytes.length) (by omega)
    have hseek : seekLoop root (a.position+bytes.length) =
        .ok ((a.position+bytes.length)/a.baseSize) := by
      refine seekLoop_ok hwell.base_pos hover.uniform ?_ ?_
      · exact List.length_pos_iff.mp (hover.length ▸ hwell.root_pos)
      · rw [hover.length, ← hwell.capacity_eq]
        omega
    refine ⟨root,_,hscatter,?_,⟨hmoved,h.block,?_,?_,?_,?_⟩⟩
    · have hmax : (if a.position+bytes.length > a.size then a.position+bytes.length else a.size) =
          max a.size (a.position+bytes.length) := by split <;> omega
      rw [moveBy, if_pos (by omega), Int.toNat_natCast, getPosition, ByteArray.setPosition,
        if_neg (show ¬a.position+bytes.length > a.capacity by omega), hseek]
      simp only [hmax]
      rfl
    · simpa [FlatBuffer.write, hgrow, blocksFor_zero f.block_pos] using h.capacity
    · simp only [FlatBuffer.write, h.position]
    · simp only [FlatBuffer.write, max_overwrite_length, h.position, h.size]
    · have hlength := hwell.contents_length
      rw [hover.contents, h.position]
      exact h.covers.overwrite f.cursor_le (by have := h.position; omega)

/-! ### Sending -/

/-- The bytes that a call which sends `n` bytes passes on. -/
theorem getReadBuffers (h : Represents a f) (n : ℕ) :
    ∃ iovs, a.getReadBuffers [] n = .ok (a.shown n,iovs) ∧
      SpecifiesBytes (window f.cells f.cursor (min n (f.cells.length-f.cursor)))
        (gather a.root iovs) := by
  have hsize := h.size
  have hpos := h.position
  have hlength := h.wellFormed.contents_length
  have hend := h.wellFormed.size_le
  have hcursor := f.cursor_le
  obtain ⟨iovs,hrun,hshow⟩ := h.wellFormed.getReadBuffers [] n
  refine ⟨iovs,hrun,?_⟩
  have hshown : a.shown n = min n (f.cells.length-f.cursor) := by rw [shown, hsize, hpos]
  rw [gather, hshow.bytes h.wellFormed.uniform (by rw [hshown]; omega), hshown, hpos]
  exact h.covers.window (by omega) (by omega)

/-- The cursor moved behind bytes that are there is a read. -/
theorem moved (h : Represents a f) {n : ℕ} (hn : n ≤ f.cells.length-f.cursor) :
    ∃ a', a.moveBy n = .ok a' ∧ Represents a' (f.read n hn).2 := by
  have hcursor := f.cursor_le
  have hcells := f.cells_le
  by_cases hzero : n = 0
  · subst hzero
    exact ⟨a,by simp [moveBy],h⟩
  · obtain ⟨a',hset,hrep⟩ := h.setPosition (v := f.cursor+n) (by omega)
    have hsame : f.setPosition (f.cursor+n) (by omega) = (f.read n hn).2 := by
      have hnone : f.cursor+n-f.cells.length = 0 := by omega
      simp only [FlatBuffer.setPosition, FlatBuffer.read, hnone, List.replicate_zero,
        List.append_nil]
    refine ⟨a',?_,hsame ▸ hrep⟩
    rw [moveBy, if_pos (by omega), Int.toNat_natCast, getPosition, h.position]
    exact hset

end Represents
end CoroutineWebserve.ByteArray
