import CoroutineWebserve.ByteArray.Flat

/-!
# The node chain as one run of bytes

The three loops walk the chain from a node on. On a chain of equal nodes each of them is
an operation on the concatenated blocks, and the number of nodes it passes is the quotient
of the position it ends at by the block size.
-/
namespace CoroutineWebserve.ByteArray
open Buffer

/-- The bytes of the chain in order. -/
def contents (chain : List Node) : List UInt8 := (chain.map Node.ptr).flatten

def Uniform (b : ℕ) (chain : List Node) : Prop := ∀ n ∈ chain, n.size = b

@[simp] theorem contents_nil : contents [] = [] := rfl

@[simp] theorem contents_cons (n : Node) (chain : List Node) :
    contents (n :: chain) = n.ptr ++ contents chain := by simp [contents]

@[simp] theorem contents_append (xs ys : List Node) :
    contents (xs++ys) = contents xs ++ contents ys := by simp [contents]

namespace Uniform
variable {b : ℕ} {chain : List Node}

theorem even (h : Uniform b chain) : Even b (chain.map Node.ptr) := by
  intro c hc
  obtain ⟨n,hn,rfl⟩ := List.mem_map.mp hc
  rw [n.size_eq, h n hn]

theorem head {n : Node} (h : Uniform b (n :: chain)) : n.size = b := h n (by simp)

theorem tail {n : Node} (h : Uniform b (n :: chain)) : Uniform b chain :=
  fun m hm => h m (by simp [hm])

theorem cons {n : Node} (hn : n.size = b) (h : Uniform b chain) : Uniform b (n :: chain) := by
  intro m hm
  rcases List.mem_cons.mp hm with rfl | hm
  · exact hn
  · exact h m hm

theorem append {ys : List Node} (h : Uniform b chain) (hy : Uniform b ys) :
    Uniform b (chain++ys) := fun n hn => (List.mem_append.mp hn).elim (h n) (hy n)

theorem take (h : Uniform b chain) (i : ℕ) : Uniform b (chain.take i) :=
  fun n hn => h n (List.mem_of_mem_take hn)

theorem drop (h : Uniform b chain) (i : ℕ) : Uniform b (chain.drop i) :=
  fun n hn => h n (List.mem_of_mem_drop hn)

theorem contents_length (h : Uniform b chain) : (contents chain).length = chain.length*b := by
  rw [contents, h.even.flatten_length, List.length_map]

end Uniform

theorem sizeSub_of_le {a b : ℕ} (h : b ≤ a) : sizeSub a b = a-b := if_pos h

/-- The quotient at the end of a step inside one node. -/
theorem div_of_le {b p : ℕ} (h : p ≤ b) (hb : 0 < b) : p/b = if b = p then 1 else 0 := by
  split
  · next e => rw [← e, Nat.div_self hb]
  · next e => exact Nat.div_eq_of_lt (by omega)

theorem div_succ_of_le {b p : ℕ} (h : b ≤ p) (hb : 0 < b) : p/b = (p-b)/b+1 := by
  conv_lhs => rw [← Nat.sub_add_cancel h, Nat.add_div_right _ hb]

theorem Node.copyIn_ok {n : Node} {npos : ℕ} {bytes : List UInt8}
    (h : npos+bytes.length ≤ n.size) : n.copyIn npos bytes = .ok (n.store npos bytes h) :=
  dif_pos h

theorem Node.copyOut_ok {n : Node} {npos size : ℕ} (h : npos+size ≤ n.size) :
    n.copyOut npos size = .ok (window n.ptr npos size) := if_pos h

section loops
variable {b : ℕ} {chain : List Node}

/-- A write that fits the chain overwrites its bytes. -/
theorem writeLoop_ok (hb : 0 < b) (hu : Uniform b chain) {npos : ℕ} (hn : npos < b)
    {buf : List UInt8} (hbuf : buf ≠ []) (hfit : npos+buf.length ≤ chain.length*b) :
    ∃ chain', writeLoop chain npos buf = .ok (chain',(npos+buf.length)/b) ∧
      chain'.length = chain.length ∧ Uniform b chain' ∧
      contents chain' = overwrite (contents chain) npos buf := by
  induction chain generalizing npos buf with
  | nil =>
    have := List.length_pos_iff.mpr hbuf
    rw [List.length_nil, Nat.zero_mul] at hfit
    omega
  | cons n rest ih =>
    have hsz : n.size = b := hu.head
    have hptr : n.ptr.length = b := n.size_eq.trans hsz
    have hcap : sizeSub n.size npos = b-npos := by rw [sizeSub_of_le (by omega), hsz]
    rw [List.length_cons, Nat.succ_mul] at hfit
    by_cases hle : buf.length ≤ b-npos
    · -- the last piece: it ends in this node
      have hin : npos+buf.length ≤ n.size := by omega
      refine ⟨n.store npos buf hin :: rest,?_,rfl,.cons hsz hu.tail,?_⟩
      · rw [writeLoop]
        simp only [hcap, ge_iff_le, hle, if_true, n.copyIn_ok hin]
        rw [div_of_le (by omega) hb, hsz]
        rfl
      · rw [contents_cons, contents_cons, overwrite_append_left _ _ _ _ (by omega)]
        rfl
    · have hin : npos+(buf.take (b-npos)).length ≤ n.size := by simp; omega
      have hne : buf.drop (b-npos) ≠ [] := by
        rw [← List.length_pos_iff, List.length_drop]
        omega
      obtain ⟨rest',he,hl,hu',hc⟩ := ih hu.tail hb hne (by rw [List.length_drop]; omega)
      refine ⟨n.store npos _ hin :: rest',?_,by simp [hl],.cons hsz hu',?_⟩
      · rw [writeLoop]
        simp only [hcap, ge_iff_le, hle, if_false, n.copyIn_ok hin, he]
        rw [div_succ_of_le (show b ≤ npos+buf.length by omega) hb, List.length_drop,
          show 0+(buf.length-(b-npos)) = npos+buf.length-b by omega]
        rfl
      · rw [contents_cons, contents_cons, hc]
        conv_rhs => rw [← List.take_append_drop (b-npos) buf]
        rw [overwrite_append_cross _ _ _ _ _ (by simp; omega)]
        rfl

/-- A write that is longer than the rest of the chain runs into the null node at its end. -/
theorem writeLoop_null (hu : Uniform b chain) {npos : ℕ} (hn : npos < b) {buf : List UInt8}
    (hlong : chain.length*b < npos+buf.length) : writeLoop chain npos buf = .error .nullNode := by
  induction chain generalizing npos buf with
  | nil => rfl
  | cons n rest ih =>
    have hsz : n.size = b := hu.head
    have hcap : sizeSub n.size npos = b-npos := by rw [sizeSub_of_le (by omega), hsz]
    rw [List.length_cons, Nat.succ_mul] at hlong
    have hle : ¬ buf.length ≤ b-npos := by omega
    have hin : npos+(buf.take (b-npos)).length ≤ n.size := by simp; omega
    rw [writeLoop]
    simp only [hcap, ge_iff_le, hle, if_false, n.copyIn_ok hin,
      ih hu.tail (show 0 < b by omega) (show _ < 0+(buf.drop (b-npos)).length by simp; omega)]
    rfl

/-- A read that stays inside the chain copies a window of its bytes. -/
theorem readLoop_ok (hb : 0 < b) (hu : Uniform b chain) (hc : chain ≠ []) {npos size : ℕ}
    (hn : npos < b) (hfit : npos+size ≤ chain.length*b) :
    readLoop chain npos size = .ok (window (contents chain) npos size,(npos+size)/b) := by
  induction chain generalizing npos size with
  | nil => exact absurd rfl hc
  | cons n rest ih =>
    have hsz : n.size = b := hu.head
    have hptr : n.ptr.length = b := n.size_eq.trans hsz
    have hcap : sizeSub n.size npos = b-npos := by rw [sizeSub_of_le (by omega), hsz]
    rw [List.length_cons, Nat.succ_mul] at hfit
    rw [readLoop]
    by_cases hz : size = 0
    · simp [hz, Nat.div_eq_of_lt hn]
    by_cases hle : size ≤ b-npos
    · simp only [hcap, hz, ge_iff_le, hle, if_false, if_true,
        n.copyOut_ok (show npos+size ≤ n.size by omega)]
      rw [contents_cons, window_append_left _ _ _ _ (by omega), div_of_le (by omega) hb, hsz]
      rfl
    · have hrest : rest ≠ [] := by
        rintro rfl
        simp at hfit
        omega
      simp only [hcap, hz, ge_iff_le, hle, if_false,
        n.copyOut_ok (show npos+(b-npos) ≤ n.size by omega),
        ih hu.tail hrest hb (show 0+(size-(b-npos)) ≤ rest.length*b by omega)]
      rw [contents_cons, ← Nat.add_sub_of_le (show b-npos ≤ size by omega),
        window_append_cross _ _ _ _ _ (by omega),
        div_succ_of_le (show b ≤ npos+(b-npos+(size-(b-npos))) by omega) hb,
        show 0+(b-npos+(size-(b-npos))-(b-npos)) = npos+(b-npos+(size-(b-npos)))-b by omega,
        Nat.add_sub_cancel_left]
      rfl

theorem seekLoop_ok (hb : 0 < b) (hu : Uniform b chain) (hc : chain ≠ []) {v : ℕ}
    (hv : v ≤ chain.length*b) : seekLoop chain v = .ok (v/b) := by
  induction chain generalizing v with
  | nil => exact absurd rfl hc
  | cons n rest ih =>
    have hsz : n.size = b := hu.head
    rw [List.length_cons, Nat.succ_mul] at hv
    rw [seekLoop, hsz]
    by_cases hle : v ≤ b
    · rw [if_neg (by omega), div_of_le hle hb]
      simp only [eq_comm]
    · have hrest : rest ≠ [] := by
        rintro rfl
        simp at hv
        omega
      rw [if_pos (by omega), ih hu.tail hrest (show v-b ≤ rest.length*b by omega),
        div_succ_of_le (show b ≤ v by omega) hb]
      rfl

end loops

/-! ### Well-formed states -/

/-- The chain is uniform and accounts for the capacity, and `m_cur` is the node of the
position: null exactly when the position is at the capacity. -/
structure WellFormed (a : ByteArray) : Prop where
  base_pos : 0 < a.baseSize
  uniform : Uniform a.baseSize a.root
  root_ne : a.root ≠ []
  capacity_eq : a.capacity = a.root.length*a.baseSize
  position_le : a.position ≤ a.size
  size_le : a.size ≤ a.capacity
  cur_eq : a.cur = nodeAt a.root (a.position/a.baseSize)

namespace WellFormed
variable {a : ByteArray}

theorem root_pos (h : a.WellFormed) : 0 < a.root.length := List.length_pos_iff.mpr h.root_ne

theorem contents_length (h : a.WellFormed) : (contents a.root).length = a.capacity := by
  rw [h.uniform.contents_length, h.capacity_eq]

/-- `m_cur` is a node as long as there is room at the position. -/
theorem index_lt (h : a.WellFormed) (hp : a.position < a.capacity) :
    a.position/a.baseSize < a.root.length :=
  (Nat.div_lt_iff_lt_mul h.base_pos).mpr (h.capacity_eq ▸ hp)

theorem cur_some (h : a.WellFormed) (hp : a.position < a.capacity) :
    a.cur = some (a.position/a.baseSize) := by rw [h.cur_eq, nodeAt, if_pos (h.index_lt hp)]

theorem cur_none (h : a.WellFormed) (hp : a.position = a.capacity) : a.cur = none := by
  rw [h.cur_eq, nodeAt, if_neg]
  rw [hp, h.capacity_eq, Nat.mul_div_cancel _ h.base_pos]
  exact lt_irrefl _

theorem fromCur_eq (h : a.WellFormed) (hp : a.position < a.capacity) :
    a.fromCur = a.root.drop (a.position/a.baseSize) := by rw [fromCur, h.cur_some hp]; rfl

theorem fromCur_null (h : a.WellFormed) (hp : a.position = a.capacity) : a.fromCur = [] := by
  rw [fromCur, h.cur_none hp]; rfl

theorem position_split (h : a.WellFormed) :
    a.position/a.baseSize*a.baseSize+a.position%a.baseSize = a.position := by
  have := h.base_pos
  rw [Nat.mul_comm]
  exact Nat.div_add_mod ..

/-- The room at the position is what the chain from `m_cur` on holds behind it. -/
theorem tail_room (h : a.WellFormed) (hp : a.position < a.capacity) :
    (a.root.drop (a.position/a.baseSize)).length*a.baseSize =
      a.capacity-a.position+a.position%a.baseSize := by
  have hs := h.position_split
  have hi := h.index_lt hp
  have hc := h.capacity_eq
  rw [List.length_drop, Nat.sub_mul]
  omega

/-- Moving `m_cur` by the quotient inside the chain is moving to the node of the new position. -/
theorem advance_eq (h : a.WellFormed) (hp : a.position < a.capacity) (n : ℕ) :
    a.advance ((a.position%a.baseSize+n)/a.baseSize) =
      nodeAt a.root ((a.position+n)/a.baseSize) := by
  rw [advance, h.cur_some hp, Option.getD_some, ← Nat.mul_add_div h.base_pos]
  congr 2
  rw [← Nat.add_assoc, Nat.mul_comm, h.position_split]

theorem readSize_eq (h : a.WellFormed) : a.getReadSize = a.size-a.position :=
  sizeSub_of_le h.position_le

theorem capacity_sub (h : a.WellFormed) : a.getCapacity = a.capacity-a.position :=
  sizeSub_of_le (h.position_le.trans h.size_le)

end WellFormed
end CoroutineWebserve.ByteArray
