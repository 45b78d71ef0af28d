import CoroutineWebserve.ByteArray.Views

/-!
# Saving to a file and loading from it

`writeToFile` calls `ofs.write` once a node, with an offset and a length that it computes from
`int` and `int64_t` values; sizes of blocks in memory fit in `int64_t`, but not in `int`.
-/
namespace CoroutineWebserve.ByteArray
open Buffer

/-- `ofs.write(cur->ptr + diff, len)`. -/
structure FileWrite where
  node : ℕ
  diff : ℤ
  len : ℤ
deriving DecidableEq, Repr

/-- The value of `int diff = pos % m_baseSize`. -/
def diffOf (m_baseSize : ℕ) (pos : ℤ) : ℤ := Int.bmod (pos%m_baseSize) (2^32)

/-- The loop of `writeToFile` from a node on, which has the index `i`. -/
def fileLoop (m_baseSize : ℕ) : List Node → ℕ → ℤ → ℤ → Except Fault (List FileWrite)
  | [], _, read_size, _ => if read_size > 0 then .error .nullNode else .ok []
  | _ :: rest, i, read_size, pos =>
    if read_size > 0 then do
      let diff := diffOf m_baseSize pos
      let len : ℤ := (if read_size > m_baseSize then (m_baseSize : ℤ) else read_size)-diff
      let calls ← fileLoop m_baseSize rest (i+1) (read_size-len) (pos+len)
      return ⟨i,diff,len⟩ :: calls
    else .ok []

/-- `ByteArray::writeToFile`: the result and the calls of `ofs.write`. `opened` says whether the
file could be opened. -/
def writeToFile (opened : Bool) (a : ByteArray) : Except Fault (Bool × List FileWrite) :=
  if !opened then .ok (false,[]) else do
  let calls ← fileLoop a.baseSize a.fromCur (a.cur.getD 0) a.getReadSize a.position
  return (true,calls)

/-- The loop of `readFromFile`: a read that gets less than a block sets the end of the file. -/
def loadLoop (memory : ℕ → ℕ → UInt8) (m_baseSize : ℕ) (hb : 0 < m_baseSize) (file : List UInt8)
    (a : ByteArray) : Except Fault ByteArray := do
  let buff := file.take m_baseSize
  let a ← a.write memory buff
  if _h : file.length < m_baseSize then return a
  else loadLoop memory m_baseSize hb (file.drop m_baseSize) a
termination_by file.length
decreasing_by
  rw [List.length_drop]
  omega

/-- `ByteArray::readFromFile`, for the content of the file, or none where it cannot be opened. -/
def readFromFile (memory : ℕ → ℕ → UInt8) (file : Option (List UInt8)) (a : ByteArray)
    (hb : 0 < a.baseSize) : Except Fault (Bool × ByteArray) :=
  match file with
  | none => .ok (false,a)
  | some file => do
    let a ← loadLoop memory a.baseSize hb file a
    return (true,a)

/-! ### Saving -/

/-- The range of a call, for an offset and a length that are not negative. -/
def FileWrite.range (w : FileWrite) : IoVec := ⟨w.node,w.diff.toNat,w.len.toNat⟩

/-- The calls write the `n` bytes from `position` on, in order, each from inside its node. -/
structure Writes (a : ByteArray) (position n : ℕ) (calls : List FileWrite) : Prop where
  proper : ∀ w ∈ calls, 0 ≤ w.diff ∧ 0 ≤ w.len
  shown : a.Show position n (calls.map FileWrite.range)

/-- What is in the file then. -/
def written (a : ByteArray) (calls : List FileWrite) : List UInt8 :=
  (calls.map FileWrite.range).flatMap (IoVec.bytes a.root)

section saving
variable {b : ℕ} {chain : List Node}

theorem diffOf_of_lt {pos : ℕ} (h : pos%b < 2^31) : diffOf b pos = (pos%b : ℕ) := by
  rw [diffOf, ← Int.natCast_mod]
  exact Int.bmod_eq_of_le (by omega) (by omega)

theorem diffOf_lt (b : ℕ) (pos : ℤ) : diffOf b pos < 2^31 := by
  have hlt := Int.bmod_lt (x := pos%b) (m := 2^32) (by decide)
  unfold diffOf
  omega

theorem fileLoop_zero (i : ℕ) (pos : ℤ) : fileLoop b chain i 0 pos = .ok [] := by
  cases chain <;> rfl

/-- One round of the loop. -/
theorem fileLoop_cons {n : Node} {i : ℕ} {read_size pos diff len : ℤ} (hpos : 0 < read_size)
    (hdiff : diffOf b pos = diff)
    (hlen : (if read_size > b then (b : ℤ) else read_size)-diff = len) :
    fileLoop b (n :: chain) i read_size pos =
      (fileLoop b chain (i+1) (read_size-len) (pos+len)).map (⟨i,diff,len⟩ :: ·) := by
  rw [fileLoop, if_pos hpos]
  subst hdiff hlen
  dsimp only
  cases fileLoop b chain _ _ _ <;> rfl

/-- From the start of a node on every call but the last is for a whole node. -/
theorem fileLoop_aligned (hb : 0 < b) (chain : List Node) (i : ℕ) {n : ℕ}
    (hfit : n ≤ chain.length*b) :
    ∃ calls, fileLoop b chain i n (i*b : ℕ) = .ok calls ∧
      (calls.map FileWrite.range).flatMap (IoVec.positions b) = List.range' (i*b) n ∧
      ∀ w ∈ calls, w.diff = 0 ∧ 0 ≤ w.len ∧ w.len ≤ b ∧ i ≤ w.node ∧ w.node < i+chain.length := by
  induction chain generalizing i n with
  | nil =>
    rw [List.length_nil, Nat.zero_mul, Nat.le_zero] at hfit
    subst hfit
    exact ⟨[],rfl,rfl,fun w hw => absurd hw List.not_mem_nil⟩
  | cons node rest ih =>
    rcases Nat.eq_zero_or_pos n with rfl | hn
    · exact ⟨[],fileLoop_zero ..,rfl,fun w hw => absurd hw List.not_mem_nil⟩
    rw [List.length_cons, Nat.succ_mul] at hfit
    have hdiff : diffOf b (i*b : ℕ) = 0 := by
      rw [diffOf_of_lt (by rw [Nat.mul_mod_left]; decide), Nat.mul_mod_left]
      rfl
    have hlen : (if (n : ℤ) > b then (b : ℤ) else n)-0 = (min n b : ℕ) := by
      split <;> omega
    obtain ⟨calls,hrun,hpositions,hcalls⟩ := ih (i := i+1) (n := n-min n b) (by omega)
    refine ⟨⟨i,0,(min n b : ℕ)⟩ :: calls,?_,?_,fun w hw => ?_⟩
    · rw [fileLoop_cons (by omega) hdiff hlen]
      have hrest : (n : ℤ)-(min n b : ℕ) = (n-min n b : ℕ) := by omega
      rw [hrest]
      rcases le_or_gt n b with hle | hlt
      · have hzero : n-min n b = 0 := by omega
        rw [hzero] at hrun ⊢
        rw [Nat.cast_zero, fileLoop_zero] at hrun ⊢
        cases hrun
        rfl
      · have hnext : ((i*b : ℕ) : ℤ)+(min n b : ℕ) = ((i+1)*b : ℕ) := by
          rw [Nat.min_eq_right hlt.le, Nat.succ_mul]
          rfl
        rw [hnext, hrun]
        rfl
    · rw [List.map_cons, List.flatMap_cons, hpositions]
      have hfirst : (FileWrite.range ⟨i,0,(min n b : ℕ)⟩).positions b =
          List.range' (i*b) (min n b) := rfl
      rw [hfirst]
      rcases le_or_gt n b with hle | hlt
      · rw [Nat.min_eq_left hle, Nat.sub_self, List.range'_zero, List.append_nil]
      · have hnext : (i+1)*b = i*b+min n b := by
          rw [Nat.min_eq_right hlt.le, Nat.succ_mul]
        rw [hnext]
        exact (range'_split _ (Nat.min_le_left n b)).symm
    · rw [List.length_cons]
      rcases List.mem_cons.mp hw with rfl | hw
      · exact ⟨rfl,by dsimp only; omega,by dsimp only; omega,le_rfl,by dsimp only; omega⟩
      · obtain ⟨hzero,hfrom,hto,hge,hlt⟩ := hcalls w hw
        exact ⟨hzero,hfrom,hto,by omega,by omega⟩

/-- The calls from a node on do not write what stands before it. -/
theorem fileLoop_from {i position n : ℕ} {read_size pos : ℤ} {calls : List FileWrite}
    (hrun : fileLoop b chain i read_size pos = .ok calls) (hn : 0 < n)
    (hpositions : (calls.map FileWrite.range).flatMap (IoVec.positions b) =
      List.range' position n) : i*b ≤ position := by
  have hmem : position ∈ (calls.map FileWrite.range).flatMap (IoVec.positions b) := by
    rw [hpositions]
    exact List.mem_range'_1.mpr ⟨le_rfl,by omega⟩
  clear hpositions
  induction chain generalizing i read_size pos calls with
  | nil =>
    rw [fileLoop] at hrun
    split at hrun
    · cases hrun
    · cases hrun
      exact absurd hmem List.not_mem_nil
  | cons node rest ih =>
    by_cases hpos : 0 < read_size
    · rw [fileLoop_cons hpos rfl rfl] at hrun
      cases hrest : fileLoop b rest (i+1) _ _ with
      | error e =>
        rw [hrest] at hrun
        cases hrun
      | ok tail =>
        rw [hrest] at hrun
        cases hrun
        rw [List.map_cons, List.flatMap_cons, List.mem_append] at hmem
        rcases hmem with hmem | hmem
        · rw [IoVec.positions, List.mem_range'_1] at hmem
          exact (Nat.le_add_right ..).trans hmem.1
        · have hle := ih hrest hmem
          rw [Nat.succ_mul] at hle
          omega
    · rw [fileLoop, if_neg hpos] at hrun
      cases hrun
      exact absurd hmem List.not_mem_nil

end saving

/-- There is nothing to save, or the position is at the start of a node, or at least a block is
left to save and the offset in the node fits in an `int`. -/
def Saveable (a : ByteArray) : Prop :=
  a.position = a.size ∨ a.position%a.baseSize = 0 ∨
    a.baseSize ≤ a.size-a.position ∧ a.position%a.baseSize < 2^31

instance (a : ByteArray) : Decidable a.Saveable := inferInstanceAs (Decidable (_ ∨ _ ∨ _ ∧ _))

namespace WellFormed
variable {a : ByteArray}

theorem writes (h : a.WellFormed) {position n : ℕ} {calls : List FileWrite}
    (hpositions : (calls.map FileWrite.range).flatMap (IoVec.positions a.baseSize) =
      List.range' position n)
    (hcalls : ∀ w ∈ calls, 0 ≤ w.diff ∧ 0 ≤ w.len ∧ w.diff+w.len ≤ a.baseSize ∧
      w.node < a.root.length) : a.Writes position n calls := by
  refine ⟨fun w hw => ⟨(hcalls w hw).1,(hcalls w hw).2.1⟩,⟨fun v hv => ?_,hpositions⟩⟩
  obtain ⟨w,hw,rfl⟩ := List.mem_map.mp hv
  obtain ⟨hdiff,hlen,hle,hnode⟩ := hcalls w hw
  refine ⟨a.root[w.node],List.getElem?_eq_getElem hnode,?_⟩
  rw [h.uniform _ (List.getElem_mem hnode)]
  dsimp only [FileWrite.range]
  omega

/-- The loop from the node of the position on. -/
theorem writeToFile_eq (h : a.WellFormed) (hp : a.position < a.capacity) :
    a.writeToFile true = (fileLoop a.baseSize (a.root.drop (a.position/a.baseSize))
      (a.position/a.baseSize) (a.size-a.position : ℕ) a.position).map (true,·) := by
  rw [writeToFile, h.fromCur_eq hp, h.cur_some hp, h.readSize_eq]
  simp only [Option.getD_some, Bool.not_true, Bool.false_eq_true, if_false]
  cases fileLoop a.baseSize _ _ _ _ <;> rfl

theorem writes_aligned (h : a.WellFormed) (hp : a.position < a.capacity)
    (halign : a.position%a.baseSize = 0) :
    ∃ calls, a.writeToFile true = .ok (true,calls) ∧
      a.Writes a.position (a.size-a.position) calls := by
  have hsize := h.size_le
  have hroom := h.tail_room hp
  have hstart := h.position_split
  rw [halign, Nat.add_zero] at hstart
  obtain ⟨calls,hrun,hpositions,hcalls⟩ := fileLoop_aligned h.base_pos
    (a.root.drop (a.position/a.baseSize)) (a.position/a.baseSize) (n := a.size-a.position)
    (by omega)
  rw [hstart] at hrun hpositions
  refine ⟨calls,?_,h.writes hpositions fun w hw => ?_⟩
  · rw [h.writeToFile_eq hp, hrun]
    rfl
  · obtain ⟨hdiff,hlen,hle,hfrom,hto⟩ := hcalls w hw
    have hindex := h.index_lt hp
    rw [List.length_drop] at hto
    exact ⟨hdiff.ge,hlen,by omega,by omega⟩

theorem drop_index (h : a.WellFormed) (hp : a.position < a.capacity) :
    ∃ node, a.root.drop (a.position/a.baseSize) =
      node :: a.root.drop (a.position/a.baseSize+1) :=
  ⟨_,List.drop_eq_getElem_cons (h.index_lt hp)⟩

/-- The rest of the node first, then whole nodes. -/
theorem writes_block (h : a.WellFormed) (hp : a.position < a.capacity)
    (hblock : a.baseSize ≤ a.size-a.position) (hint : a.position%a.baseSize < 2^31) :
    ∃ calls, a.writeToFile true = .ok (true,calls) ∧
      a.Writes a.position (a.size-a.position) calls := by
  have hb := h.base_pos
  have hsize := h.size_le
  have hroom := h.tail_room hp
  have hstart := h.position_split
  have hmod := Nat.mod_lt a.position hb
  have hindex := h.index_lt hp
  obtain ⟨node,hdrop⟩ := h.drop_index hp
  rw [hdrop, List.length_cons, Nat.succ_mul] at hroom
  obtain ⟨calls,hrun,hpositions,hcalls⟩ := fileLoop_aligned hb
    (a.root.drop (a.position/a.baseSize+1)) (a.position/a.baseSize+1)
    (n := a.size-a.position-(a.baseSize-a.position%a.baseSize)) (by omega)
  have hnext : (a.position/a.baseSize+1)*a.baseSize =
      a.position+(a.baseSize-a.position%a.baseSize) := by
    rw [Nat.succ_mul]
    omega
  have hlen : (if ((a.size-a.position : ℕ) : ℤ) > a.baseSize then (a.baseSize : ℤ)
      else (a.size-a.position : ℕ))-(a.position%a.baseSize : ℕ) =
      (a.baseSize-a.position%a.baseSize : ℕ) := by
    split <;> omega
  refine ⟨⟨a.position/a.baseSize,(a.position%a.baseSize : ℕ),
    (a.baseSize-a.position%a.baseSize : ℕ)⟩ :: calls,?_,h.writes ?_ fun w hw => ?_⟩
  · rw [h.writeToFile_eq hp, hdrop, fileLoop_cons (by omega)
      (diffOf_of_lt hint) hlen]
    rw [hnext] at hrun
    have hrest : ((a.size-a.position : ℕ) : ℤ)-(a.baseSize-a.position%a.baseSize : ℕ) =
        (a.size-a.position-(a.baseSize-a.position%a.baseSize) : ℕ) := by omega
    rw [hrest, ← Nat.cast_add, hrun]
    rfl
  · rw [List.map_cons, List.flatMap_cons, hpositions, hnext]
    have hfirst : (FileWrite.range ⟨a.position/a.baseSize,(a.position%a.baseSize : ℕ),
        (a.baseSize-a.position%a.baseSize : ℕ)⟩).positions a.baseSize =
        List.range' a.position (a.baseSize-a.position%a.baseSize) := by
      rw [IoVec.positions]
      exact congrArg (List.range' · _) hstart
    rw [hfirst]
    exact (range'_split _ (by omega)).symm
  · rcases List.mem_cons.mp hw with rfl | hw
    · exact ⟨by dsimp only; omega,by dsimp only; omega,by dsimp only; omega,hindex⟩
    · obtain ⟨hzero,hge,hle,hfrom,hto⟩ := hcalls w hw
      rw [List.length_drop] at hto
      exact ⟨hzero.ge,hge,by omega,by omega⟩

/-- Where the first call begins and ends, in what the calls write. -/
theorem saveable (h : a.WellFormed) (hp : a.position < a.size) {calls : List FileWrite}
    (hrun : a.writeToFile true = .ok (true,calls))
    (hw : a.Writes a.position (a.size-a.position) calls) : a.Saveable := by
  have hb := h.base_pos
  have hsize := h.size_le
  have hstart := h.position_split
  have hmod := Nat.mod_lt a.position hb
  obtain ⟨node,hdrop⟩ := h.drop_index (by omega)
  rw [h.writeToFile_eq (by omega), hdrop,
    fileLoop_cons (by omega) rfl rfl] at hrun
  have hlt := diffOf_lt a.baseSize a.position
  generalize hdiff : diffOf a.baseSize a.position = diff at hrun hlt
  generalize hlen : (if ((a.size-a.position : ℕ) : ℤ) > a.baseSize then (a.baseSize : ℤ)
      else (a.size-a.position : ℕ))-diff = len at hrun
  cases hrest : fileLoop a.baseSize (a.root.drop (a.position/a.baseSize+1))
      (a.position/a.baseSize+1) ((a.size-a.position : ℕ)-len) (a.position+len) with
  | error e =>
    rw [hrest] at hrun
    cases hrun
  | ok tail =>
    rw [hrest] at hrun
    cases hrun
    obtain ⟨hd,hl⟩ := hw.proper _ List.mem_cons_self
    have hpositions := hw.shown.positions
    rw [List.map_cons, List.flatMap_cons] at hpositions
    -- the first call is for a range that starts at the position, or it is empty
    have hfirst : (FileWrite.range ⟨a.position/a.baseSize,diff,len⟩).positions a.baseSize =
        List.range' (a.position/a.baseSize*a.baseSize+diff.toNat) len.toNat := rfl
    rw [hfirst] at hpositions
    have hlength := congrArg List.length hpositions
    rw [List.length_append, List.length_range', List.length_range'] at hlength
    rcases Nat.eq_zero_or_pos len.toNat with hzero | hlen'
    · rw [hzero, List.range'_zero, List.nil_append] at hpositions
      have hle := fileLoop_from hrest (by omega) hpositions
      rw [Nat.succ_mul] at hle
      omega
    · have hsame : a.position/a.baseSize*a.baseSize+diff.toNat = a.position := by
        obtain ⟨l,hl'⟩ := Nat.exists_eq_add_of_lt hlen'
        obtain ⟨r,hr⟩ := Nat.exists_eq_add_of_lt (show 0 < a.size-a.position by omega)
        rw [hl', hr, Nat.zero_add, Nat.zero_add, List.range'_succ, List.range'_succ] at hpositions
        exact (List.cons.inj hpositions).1
      by_contra hnot
      rw [Saveable, not_or, not_or, not_and_or] at hnot
      rw [hsame, range'_split _ (show len.toNat ≤ a.size-a.position by omega),
        List.append_cancel_left_eq] at hpositions
      -- less than a block is left, and the first call leaves out the offset
      have hshort : ¬((a.size-a.position : ℕ) : ℤ) > a.baseSize := by omega
      rw [if_neg hshort] at hlen
      have hle := fileLoop_from hrest (by omega) hpositions
      rw [Nat.succ_mul] at hle
      omega

theorem writes_iff (h : a.WellFormed) :
    (∃ calls, a.writeToFile true = .ok (true,calls) ∧
      a.Writes a.position (a.size-a.position) calls) ↔ a.Saveable := by
  have hle := h.position_le
  have hsize := h.size_le
  rcases hle.eq_or_lt with heq | hlt
  · refine iff_of_true ⟨[],?_,h.writes ?_ fun w hw => absurd hw List.not_mem_nil⟩ (.inl heq)
    · rw [writeToFile, h.readSize_eq, heq, Nat.sub_self]
      simp only [Nat.cast_zero, fileLoop_zero]
      rfl
    · rw [heq, Nat.sub_self]
      rfl
  · constructor
    · rintro ⟨calls,hrun,hw⟩
      exact h.saveable hlt hrun hw
    · rintro (heq | halign | ⟨hblock,hint⟩)
      · exact absurd heq hlt.ne
      · exact h.writes_aligned (hlt.trans_le hsize) halign
      · exact h.writes_block (hlt.trans_le hsize) hblock hint

end WellFormed

/-! ### Loading -/

/-- What has been loaded so far: the cursor is at the end, and the last node is full unless there
is but one and nothing is in it. -/
structure Loaded (a : ByteArray) (f : FlatBuffer UInt8) (file : List UInt8) : Prop where
  represents : Represents a f
  cells : f.cells = file.map some
  cursor : f.cursor = file.length
  free : f.free = 0 ∨ f.free = f.block

section loading
variable (memory : ℕ → ℕ → UInt8) {a : ByteArray} {f : FlatBuffer UInt8} {file : List UInt8}

theorem Loaded.safe (h : a.Loaded f file) {buff : List UInt8} (hbuff : buff.length ≤ f.block) :
    f.Safe (.write buff) := by
  rcases h.free with hfree | hfree
  · rw [FlatBuffer.Safe, hfree, Nat.sub_zero]
    rcases Nat.eq_zero_or_pos (buff.length%f.block) with hzero | hpos
    · exact .inr (.inl hzero)
    · exact .inr (.inr hpos)
  · exact .inl (hfree ▸ hbuff)

/-- One round of the loop: the block that was read is appended. -/
theorem Loaded.write (h : a.Loaded f file) {buff : List UInt8} (hbuff : buff.length ≤ f.block) :
    ∃ a', a.write memory buff = .ok a' ∧ Represents a' (f.write buff) ∧
      (f.write buff).cells = (file++buff).map some ∧
      (f.write buff).cursor = (file++buff).length := by
  obtain ⟨a',hrun,hr⟩ := h.represents.write memory (h.safe hbuff)
  refine ⟨a',hrun,hr,?_,?_⟩
  · have hcells : (f.write buff).cells = overwrite f.cells f.cursor (buff.map some) := rfl
    rw [hcells, h.cursor, h.cells]
    simp [overwrite, List.take_of_length_le, List.drop_of_length_le]
  · have hcursor : (f.write buff).cursor = f.cursor+buff.length := rfl
    rw [hcursor, h.cursor, List.length_append]

theorem Loaded.write_block (h : a.Loaded f file) {buff : List UInt8}
    (hbuff : buff.length = f.block) :
    ∃ a', a.write memory buff = .ok a' ∧ a'.Loaded (f.write buff) (file++buff) := by
  obtain ⟨a',hrun,hr,hcells,hcursor⟩ := h.write memory hbuff.le
  refine ⟨a',hrun,⟨hr,hcells,hcursor,.inl ?_⟩⟩
  have hsum := f.cursor_add_free
  have hcount : blocksFor f.block (buff.length-f.free)*f.block = buff.length-f.free := by
    rcases h.free with hfree | hfree
    · rw [hfree, hbuff, Nat.sub_zero]
      refine Nat.le_antisymm ?_ (le_blocksFor_mul f.block_pos _)
      exact (Nat.mul_le_mul_right _ (blocksFor_le f.block_pos (Nat.one_mul _).ge)).trans
        (Nat.one_mul _).le
    · rw [hfree, hbuff, Nat.sub_self, blocksFor_zero f.block_pos, Nat.zero_mul]
  have hfree : f.free ≤ f.block := h.free.elim (fun hz => hz ▸ Nat.zero_le _) Eq.le
  rw [FlatBuffer.free]
  simp only [FlatBuffer.write, hcount]
  omega

/-- The loop appends the file. -/
theorem loadLoop_ok {b : ℕ} (hb : 0 < b) (more : List UInt8) (h : a.Loaded f file)
    (hblock : f.block = b) :
    ∃ a' f', loadLoop memory b hb more a = .ok a' ∧ Represents a' f' ∧
      f'.cells = (file++more).map some := by
  induction hn : more.length using Nat.strong_induction_on generalizing a f file more with
  | _ n ih =>
    subst hn
    rw [loadLoop]
    rcases Nat.lt_or_ge more.length b with hlt | hge
    · -- the end of the file
      rw [List.take_of_length_le hlt.le]
      have hshort : more.length ≤ f.block := hblock ▸ hlt.le
      obtain ⟨a',hrun,hr,hcells,-⟩ := h.write memory hshort
      refine ⟨a',f.write more,?_,hr,hcells⟩
      rw [hrun]
      exact dif_pos hlt
    · have htake : (more.take b).length = f.block := by
        rw [List.length_take, hblock, Nat.min_eq_left hge]
      obtain ⟨a',hrun,hl⟩ := h.write_block memory htake
      obtain ⟨a'',f',hrest,hr,hcells⟩ := ih (more.drop b).length
        (by rw [List.length_drop]; omega) (more.drop b) hl hblock rfl
      refine ⟨a'',f',?_,hr,?_⟩
      · rw [hrun, ← hrest]
        exact dif_neg (Nat.not_lt.mpr hge)
      · rw [hcells, List.append_assoc, List.take_append_drop]

theorem new_loaded {b : ℕ} (hb : 0 < b) :
    (ByteArray.new memory b).Loaded (FlatBuffer.new b hb) [] where
  represents := new_represents memory hb
  cells := rfl
  cursor := rfl
  free := .inr rfl

theorem SpecifiesBytes.eq {bytes : List UInt8} (h : SpecifiesBytes (file.map some) bytes) :
    bytes = file := by
  rw [SpecifiesBytes, List.forall₂_map_left_iff] at h
  induction h with
  | nil => rfl
  | cons hb _ ih => rw [ih, hb _ rfl]

/-- A file that is loaded into a fresh array is its content. -/
theorem readFromFile_ok {b : ℕ} (hb : 0 < b) (more : List UInt8) :
    ∃ a' a'', (ByteArray.new memory b).readFromFile memory (some more) hb = .ok (true,a') ∧
      a'.setPosition 0 = .ok a'' ∧ a''.toString = .ok more := by
  obtain ⟨a',f,hrun,hr,hcells⟩ := loadLoop_ok memory hb more (new_loaded memory hb) rfl
  obtain ⟨a'',hseek,hr'⟩ := hr.setPosition (v := 0) (Nat.zero_le _)
  obtain ⟨bytes,hstring,hspec⟩ := hr'.toString
  refine ⟨a',a'',?_,hseek,?_⟩
  · change Except.bind (loadLoop memory b hb more _) _ = _
    rw [hrun]
    rfl
  · have hbytes : SpecifiesBytes (f.cells++List.replicate (0-f.cells.length) none) bytes := hspec
    rw [Nat.zero_sub, List.replicate_zero, List.append_nil, hcells, List.nil_append] at hbytes
    rw [hstring, hbytes.eq]

end loading

/-- The calls of `ofs.write` are for the readable bytes in order, and a fresh array of any block
size that loads the file has the same content. -/
def SavesAndLoads (a : ByteArray) : Prop :=
  ∃ calls, a.writeToFile true = .ok (true,calls) ∧
    a.Writes a.position (a.size-a.position) calls ∧
    ∀ (memory : ℕ → ℕ → UInt8) (b : ℕ) (hb : 0 < b), ∃ a' a'' bytes,
      (ByteArray.new memory b).readFromFile memory (some (a.written calls)) hb = .ok (true,a') ∧
      a'.setPosition 0 = .ok a'' ∧ a''.toString = .ok bytes ∧ a.toString = .ok bytes

/-- Saving works from the start of a node on, and from inside it if a block or more is left. -/
theorem savesAndLoads_iff {a : ByteArray} (h : a.WellFormed) : a.SavesAndLoads ↔ a.Saveable := by
  have hle := h.position_le
  have hsize := h.size_le
  have hlength := h.contents_length
  rw [← h.writes_iff]
  constructor
  · rintro ⟨calls,hrun,hw,-⟩
    exact ⟨calls,hrun,hw⟩
  · rintro ⟨calls,hrun,hw⟩
    refine ⟨calls,hrun,hw,fun memory b hb => ?_⟩
    obtain ⟨a',a'',hload,hseek,hstring⟩ := readFromFile_ok memory hb (a.written calls)
    refine ⟨a',a'',_,hload,hseek,hstring,?_⟩
    rw [h.toString, written, hw.shown.bytes h.uniform (by omega)]

theorem savesAndLoads_twoOfFour : twoOfFour.SavesAndLoads :=
  (savesAndLoads_iff twoOfFour_wellFormed).mpr (by decide)

/-- From the second of two written bytes on: the length of the only call is zero, and behind it
the loop follows the null node. -/
theorem not_savesAndLoads : ¬∀ a : ByteArray, a.WellFormed → a.SavesAndLoads := by
  intro h
  have hwell : WellFormed { twoOfFour with position := 1 } :=
    { twoOfFour_wellFormed with
      position_le := by decide
      cur_eq := rfl }
  obtain ⟨calls,hrun,-⟩ := h _ hwell
  have hnull : writeToFile true { twoOfFour with position := 1 } = .error .nullNode := by decide
  cases hnull.symm.trans hrun

end CoroutineWebserve.ByteArray
