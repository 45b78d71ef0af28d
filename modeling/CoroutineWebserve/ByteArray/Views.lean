import CoroutineWebserve.ByteArray.Refinement

/-!
# Scatter views of the chain

`getReadBuffers` and `getWriteBuffers` hand out `iovec`s instead of copying. One of them is a
range of a node, so it stands for a range of positions of the flat array.
-/
namespace CoroutineWebserve.ByteArray
open Buffer

/-- `struct iovec`: the node and the offset in it that `iov_base` points to, and `iov_len`. -/
structure IoVec where
  node : ℕ
  npos : ℕ
  len : ℕ
deriving DecidableEq, Repr

/-- The loop of the three functions over the chain, of which the first node has the index `i`. -/
def gatherLoop : List Node → ℕ → ℕ → ℕ → Except Fault (List IoVec)
  | [], _, _, _ => .error .nullNode
  | n :: rest, i, npos, len =>
    let ncap := sizeSub n.size npos
    if len = 0 then .ok [] else
    if ncap ≥ len then .ok [⟨i,npos,len⟩]
    else do
      let iovs ← gatherLoop rest (i+1) 0 (len-ncap)
      return ⟨i,npos,ncap⟩ :: iovs

/-- `ByteArray::getReadBuffers(buffers, len) const`: the result and the buffers. -/
def getReadBuffers (buffers : List IoVec) (len : ℕ) (a : ByteArray) :
    Except Fault (ℕ × List IoVec) :=
  let len := if len > a.getReadSize then a.getReadSize else len
  if len = 0 then .ok (0,buffers) else do
  let npos := a.position%a.baseSize
  let iovs ← gatherLoop a.fromCur (a.cur.getD 0) npos len
  return (len,buffers++iovs)

/-- `ByteArray::getReadBuffers(buffers, len, position) const`. -/
def getReadBuffersAt (buffers : List IoVec) (len position : ℕ) (a : ByteArray) :
    Except Fault (ℕ × List IoVec) :=
  let len := if len > a.getReadSize then a.getReadSize else len
  if len = 0 then .ok (0,buffers) else do
  let npos := position%a.baseSize
  let count := position/a.baseSize
  let iovs ← gatherLoop (a.root.drop count) count npos len
  return (len,buffers++iovs)

/-- `ByteArray::getWriteBuffers(buffers, len)`. -/
def getWriteBuffers (memory : ℕ → ℕ → UInt8) (buffers : List IoVec) (len : ℕ) (a : ByteArray) :
    Except Fault (ℕ × List IoVec × ByteArray) :=
  if len = 0 then .ok (0,buffers,a) else do
  let a := a.addCapacity memory len
  let npos := a.position%a.baseSize
  let iovs ← gatherLoop a.fromCur (a.cur.getD 0) npos len
  return (len,buffers++iovs,a)

/-! ### What a view shows -/

namespace IoVec

/-- The flat positions, for nodes of size `b`. -/
def positions (b : ℕ) (v : IoVec) : List ℕ := List.range' (v.node*b+v.npos) v.len

/-- The range lies in a node of the chain. -/
def Inside (root : List Node) (v : IoVec) : Prop :=
  ∃ n ∈ root[v.node]?, v.npos+v.len ≤ n.size

/-- The bytes, none for a range without a node. -/
def bytes (root : List Node) (v : IoVec) : List UInt8 :=
  root[v.node]?.elim [] fun n => window n.ptr v.npos v.len

end IoVec

/-- The views show the `n` positions from `position` on, in order, each inside its node. -/
structure Show (a : ByteArray) (position n : ℕ) (iovs : List IoVec) : Prop where
  inside : ∀ v ∈ iovs, v.Inside a.root
  positions : iovs.flatMap (IoVec.positions a.baseSize) = List.range' position n

section views
variable {b : ℕ} {chain : List Node}

/-- A view of the chain shows its node's window of the flat array. -/
theorem IoVec.bytes_eq (hu : Uniform b chain) {v : IoVec} (h : v.Inside chain) :
    v.bytes chain = (v.positions b).filterMap ((contents chain)[·]?) := by
  obtain ⟨n,hn,hle⟩ := h
  obtain ⟨hlt,hget⟩ := List.getElem?_eq_some_iff.mp hn
  have hsize : n.size = b := hu n (hget ▸ List.getElem_mem hlt)
  have hlen := hu.contents_length
  have hroom : v.node*b+b ≤ chain.length*b := by
    rw [← Nat.succ_mul]
    exact Nat.mul_le_mul_right b hlt
  have hdrop : contents (chain.drop v.node) = n.ptr++contents (chain.drop (v.node+1)) := by
    rw [List.drop_eq_getElem_cons hlt, contents_cons, hget]
  have hwindow : window (contents chain) (v.node*b+v.npos) v.len = window n.ptr v.npos v.len := by
    rw [contents, hu.even.window_drop (by rw [List.length_map]; exact hlt.le), ← List.map_drop,
      ← contents, hdrop]
    exact window_append_left _ _ _ _ (by rw [n.size_eq]; omega)
  rw [IoVec.bytes, hn, IoVec.positions, ← window_eq_filterMap _ (by omega), hwindow]
  rfl

/-- Views of ranges that follow each other show one range of the flat array. -/
theorem Show.bytes {a : ByteArray} (hu : Uniform a.baseSize a.root) {position n : ℕ}
    {iovs : List IoVec} (h : a.Show position n iovs) (hn : position+n ≤ (contents a.root).length) :
    iovs.flatMap (IoVec.bytes a.root) = window (contents a.root) position n := by
  rw [window_eq_filterMap _ hn, ← h.positions, List.filterMap_flatMap]
  exact List.flatMap_congr fun v hv => v.bytes_eq hu (h.inside v hv)

/-- The loop shows what the chain holds from the offset in its first node on. -/
theorem gatherLoop_ok (hb : 0 < b) (hu : Uniform b chain) {i npos len : ℕ} (hn : npos < b)
    (hlen : 0 < len) (hfit : npos+len ≤ chain.length*b) :
    ∃ iovs, gatherLoop chain i npos len = .ok iovs ∧
      iovs.flatMap (IoVec.positions b) = List.range' (i*b+npos) len ∧
      ∀ v ∈ iovs, i ≤ v.node ∧ v.node < i+chain.length ∧ v.npos+v.len ≤ b := by
  induction chain generalizing i npos len with
  | nil =>
    rw [List.length_nil, Nat.zero_mul] at hfit
    omega
  | cons n rest ih =>
    have hcap : sizeSub n.size npos = b-npos := by
      rw [hu.head, sizeSub_of_le hn.le]
    rw [List.length_cons, Nat.succ_mul] at hfit
    rw [gatherLoop]
    simp only [hcap, if_neg hlen.ne']
    by_cases hle : len ≤ b-npos
    · refine ⟨[⟨i,npos,len⟩],if_pos hle,by simp [IoVec.positions],fun v hv => ?_⟩
      cases List.mem_singleton.mp hv
      rw [List.length_cons]
      exact ⟨le_rfl,by dsimp only; omega,by dsimp only; omega⟩
    · obtain ⟨iovs,hrun,hpositions,hinside⟩ := ih (i := i+1) hu.tail hb
        (show 0 < len-(b-npos) by omega) (by omega)
      refine ⟨⟨i,npos,b-npos⟩ :: iovs,?_,?_,fun v hv => ?_⟩
      · rw [if_neg hle, hrun]
        rfl
      · have hnext : (i+1)*b+0 = i*b+npos+(b-npos) := by
          rw [Nat.succ_mul]
          omega
        rw [List.flatMap_cons, hpositions, IoVec.positions, hnext]
        exact (range'_split _ (show b-npos ≤ len by omega)).symm
      · rw [List.length_cons]
        rcases List.mem_cons.mp hv with rfl | hv
        · exact ⟨le_rfl,by dsimp only; omega,by dsimp only; omega⟩
        · obtain ⟨hfrom,hto,hin⟩ := hinside v hv
          exact ⟨by omega,by omega,hin⟩

/-- Past the end of the chain the loop follows the null node. -/
theorem gatherLoop_null (hu : Uniform b chain) {i npos len : ℕ} (hn : npos < b)
    (hlong : chain.length*b < npos+len) (hlen : 0 < len) :
    gatherLoop chain i npos len = .error .nullNode := by
  induction chain generalizing i npos len with
  | nil => rfl
  | cons n rest ih =>
    have hcap : sizeSub n.size npos = b-npos := by
      rw [hu.head, sizeSub_of_le hn.le]
    rw [List.length_cons, Nat.succ_mul] at hlong
    have hle : ¬len ≤ b-npos := by omega
    rw [gatherLoop]
    simp only [hcap, if_neg hlen.ne', ge_iff_le, if_neg hle]
    rw [ih hu.tail (by omega) (by omega) (by omega)]
    rfl

end views

namespace WellFormed
variable {a : ByteArray}

/-- A walk from the node of a position on. -/
theorem gatherLoop_drop (h : a.WellFormed) {position len : ℕ} (hlen : 0 < len)
    (hfit : position+len ≤ a.capacity) :
    ∃ iovs, gatherLoop (a.root.drop (position/a.baseSize)) (position/a.baseSize)
      (position%a.baseSize) len = .ok iovs ∧ a.Show position len iovs := by
  have hb := h.base_pos
  have hsplit := Nat.div_add_mod position a.baseSize
  rw [Nat.mul_comm] at hsplit
  have hmod := Nat.mod_lt position hb
  have hcap := h.capacity_eq
  have hroom : position%a.baseSize+len ≤
      (a.root.drop (position/a.baseSize)).length*a.baseSize := by
    rw [List.length_drop, Nat.sub_mul]
    omega
  obtain ⟨iovs,hrun,hpositions,hinside⟩ := gatherLoop_ok (i := position/a.baseSize) hb
    (h.uniform.drop (position/a.baseSize)) hmod hlen hroom
  rw [hsplit] at hpositions
  refine ⟨iovs,hrun,⟨fun v hv => ?_,hpositions⟩⟩
  obtain ⟨-,hlt,hle⟩ := hinside v hv
  rw [List.length_drop] at hlt
  have hindex : position/a.baseSize < a.root.length :=
    (Nat.div_lt_iff_lt_mul hb).mpr (by omega)
  have hnode : v.node < a.root.length := by omega
  exact ⟨a.root[v.node],List.getElem?_eq_getElem hnode,
    (h.uniform _ (List.getElem_mem hnode)).symm ▸ hle⟩

/-- A walk that would show positions behind the capacity. -/
theorem gatherLoop_drop_null (h : a.WellFormed) {position len : ℕ} (hlen : 0 < len)
    (hlong : a.capacity < position+len) :
    gatherLoop (a.root.drop (position/a.baseSize)) (position/a.baseSize)
      (position%a.baseSize) len = .error .nullNode := by
  have hsplit := Nat.div_add_mod position a.baseSize
  rw [Nat.mul_comm] at hsplit
  have hcap := h.capacity_eq
  refine gatherLoop_null (h.uniform.drop _) (Nat.mod_lt _ h.base_pos) ?_ hlen
  rw [List.length_drop, Nat.sub_mul]
  omega

/-- From `m_cur` on is from the node of the position on. -/
theorem fromCur_drop (h : a.WellFormed) : a.fromCur = a.root.drop (a.position/a.baseSize) := by
  rcases (h.position_le.trans h.size_le).lt_or_eq with hp | hp
  · exact h.fromCur_eq hp
  · have hindex : a.position/a.baseSize = a.root.length := by
      rw [hp, h.capacity_eq, Nat.mul_div_cancel _ h.base_pos]
    rw [h.fromCur_null hp, hindex, List.drop_length]

theorem gatherLoop_fromCur (h : a.WellFormed) {len : ℕ} (hlen : 0 < len)
    (hfit : a.position+len ≤ a.capacity) :
    ∃ iovs, gatherLoop a.fromCur (a.cur.getD 0) (a.position%a.baseSize) len = .ok iovs ∧
      a.Show a.position len iovs := by
  have hp : a.position < a.capacity := by omega
  rw [h.fromCur_drop, h.cur_some hp, Option.getD_some]
  exact h.gatherLoop_drop hlen hfit

end WellFormed

/-! ### The views for reading -/

/-- The number of bytes that the views show. -/
def shown (a : ByteArray) (len : ℕ) : ℕ := min len (a.size-a.position)

namespace WellFormed
variable {a : ByteArray}

theorem shown_eq (h : a.WellFormed) (len : ℕ) :
    (if len > a.getReadSize then a.getReadSize else len) = a.shown len := by
  rw [h.readSize_eq, shown]
  split <;> omega

/-- The first overload shows what a read of as many bytes would copy. -/
theorem getReadBuffers (h : a.WellFormed) (buffers : List IoVec) (len : ℕ) :
    ∃ iovs, a.getReadBuffers buffers len = .ok (a.shown len,buffers++iovs) ∧
      a.Show a.position (a.shown len) iovs := by
  have hsize := h.size_le
  have hle := h.position_le
  rw [ByteArray.getReadBuffers]
  simp only [h.shown_eq]
  by_cases hzero : a.shown len = 0
  · refine ⟨[],?_,fun v hv => absurd hv List.not_mem_nil,?_⟩
    · rw [if_pos hzero, hzero, List.append_nil]
    · rw [hzero]
      rfl
  · have hfit : a.position+a.shown len ≤ a.capacity := by
      unfold shown
      omega
    obtain ⟨iovs,hrun,hshow⟩ := h.gatherLoop_fromCur (Nat.pos_of_ne_zero hzero) hfit
    refine ⟨iovs,?_,hshow⟩
    rw [if_neg hzero, hrun]
    rfl

/-- The second overload shows as many bytes from another position on, as long as there are. -/
theorem getReadBuffersAt (h : a.WellFormed) (buffers : List IoVec) (len position : ℕ) :
    (∃ iovs, a.getReadBuffersAt buffers len position = .ok (a.shown len,buffers++iovs) ∧
      a.Show position (a.shown len) iovs) ∨
    a.getReadBuffersAt buffers len position = .error .nullNode ∧
      a.size < position+a.shown len := by
  have hsize := h.size_le
  rw [ByteArray.getReadBuffersAt]
  simp only [h.shown_eq]
  by_cases hzero : a.shown len = 0
  · refine .inl ⟨[],?_,fun v hv => absurd hv List.not_mem_nil,?_⟩
    · rw [if_pos hzero, hzero, List.append_nil]
    · rw [hzero]
      rfl
  · have hpos := Nat.pos_of_ne_zero hzero
    rw [if_neg hzero]
    rcases le_or_gt (position+a.shown len) a.capacity with hfit | hlong
    · obtain ⟨iovs,hrun,hshow⟩ := h.gatherLoop_drop hpos hfit
      refine .inl ⟨iovs,?_,hshow⟩
      rw [hrun]
      rfl
    · refine .inr ⟨?_,by omega⟩
      rw [h.gatherLoop_drop_null hpos hlong]
      rfl

theorem getReadBuffersAt_position (h : a.WellFormed) (buffers : List IoVec) (len : ℕ) :
    a.getReadBuffersAt buffers len a.position = a.getReadBuffers buffers len := by
  rw [ByteArray.getReadBuffersAt, ByteArray.getReadBuffers]
  by_cases hzero : (if len > a.getReadSize then a.getReadSize else len) = 0
  · rw [if_pos hzero, if_pos hzero]
  · rw [if_neg hzero, if_neg hzero]
    have hp : a.position < a.capacity := by
      have hsize := h.size_le
      rw [h.shown_eq, shown] at hzero
      omega
    rw [h.fromCur_drop, h.cur_some hp, Option.getD_some]

end WellFormed

/-- The views for reading are of the readable bytes: those of the first overload are what a read
would copy, those of the second begin at its position, and at the cursor they are the same. -/
structure ViewsReadable (a : ByteArray) (len position : ℕ) : Prop where
  first : ∀ buffers, ∃ iovs, a.getReadBuffers buffers len = .ok (a.shown len,buffers++iovs) ∧
    (∀ v ∈ iovs, v.Inside a.root) ∧
    (0 < a.shown len →
      ∃ a', a.read (a.shown len) = .ok (iovs.flatMap (IoVec.bytes a.root),a')) ∧
    (a.shown len = 0 → iovs.flatMap (IoVec.bytes a.root) = [])
  second : ∀ buffers, ∃ n iovs, a.getReadBuffersAt buffers len position = .ok (n,buffers++iovs) ∧
    a.Show position n iovs ∧ position+n ≤ a.size
  agree : position = a.position →
    ∀ buffers, a.getReadBuffersAt buffers len position = a.getReadBuffers buffers len

/-- The second overload bounds its length by what is left behind the cursor: that much has to be
left behind its position too. -/
theorem viewsReadable_iff {a : ByteArray} (h : a.WellFormed) (len position : ℕ) :
    a.ViewsReadable len position ↔ position+min len (a.size-a.position) ≤ a.size := by
  have hlen := h.contents_length
  have hsize := h.size_le
  have hle := h.position_le
  constructor
  · intro hviews
    obtain ⟨n,iovs,hrun,-,hn⟩ := hviews.second []
    rcases h.getReadBuffersAt [] len position with ⟨iovs',hrun',-⟩ | ⟨hrun',-⟩
    · rw [hrun] at hrun'
      cases hrun'
      exact hn
    · rw [hrun] at hrun'
      cases hrun'
  · intro hfit
    refine ⟨fun buffers => ?_,fun buffers => ?_,fun heq buffers => ?_⟩
    · obtain ⟨iovs,hrun,hshow⟩ := h.getReadBuffers buffers len
      have hread : a.position+a.shown len ≤ a.size := by
        unfold shown
        omega
      have hbytes := hshow.bytes h.uniform (by omega)
      refine ⟨iovs,hrun,hshow.inside,fun hpos => ?_,fun hzero => ?_⟩
      · rw [hbytes]
        exact ⟨_,h.read (by omega) hread⟩
      · rw [hbytes, hzero, window_zero]
    · rcases h.getReadBuffersAt buffers len position with ⟨iovs,hrun,hshow⟩ | ⟨-,hlong⟩
      · exact ⟨a.shown len,iovs,hrun,hshow,hfit⟩
      · exact absurd hfit (Nat.not_le.mpr hlong)
    · rw [heq]
      exact h.getReadBuffersAt_position buffers len

/-- Two written bytes in a node of four, with the cursor back at the start. -/
def twoOfFour : ByteArray where
  baseSize := 4
  position := 0
  capacity := 4
  size := 2
  root := [⟨4,[1,2,3,4],rfl⟩]
  cur := some 0
  blocks := 1

theorem twoOfFour_wellFormed : twoOfFour.WellFormed where
  base_pos := by decide
  uniform := .cons rfl fun n hn => absurd hn List.not_mem_nil
  root_ne := List.cons_ne_nil _ _
  capacity_eq := rfl
  position_le := by decide
  size_le := by decide
  cur_eq := rfl

/-- The last written byte. -/
theorem viewsReadable_one : twoOfFour.ViewsReadable 1 1 :=
  (viewsReadable_iff twoOfFour_wellFormed 1 1).mpr (by decide)

/-- Two bytes from the second one on: the view shows one that is not written. -/
theorem not_viewsReadable : ¬∀ (a : ByteArray) (len position : ℕ), a.WellFormed →
    position ≤ a.size → a.ViewsReadable len position := by
  intro h
  obtain ⟨n,iovs,hrun,-,hn⟩ := (h twoOfFour 2 1 twoOfFour_wellFormed (by decide)).second []
  have hviews : twoOfFour.getReadBuffersAt [] 2 1 = .ok (2,[⟨0,1,2⟩]) := by decide
  rw [hviews] at hrun
  cases hrun
  exact absurd hn (by decide)

end CoroutineWebserve.ByteArray
