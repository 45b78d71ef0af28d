import CoroutineWebserve.ByteArray.Views

/-!
# Reading at a position

The positional `read` takes the offset in the node from its argument, but starts at the node
of the cursor.
-/
namespace CoroutineWebserve.ByteArray
open Buffer

/-- A read that is longer than the rest of the chain runs into the null node at its end. -/
theorem readLoop_null {b : ℕ} {chain : List Node} (hu : Uniform b chain) {npos size : ℕ}
    (hn : npos < b) (hlong : chain.length*b < npos+size) :
    readLoop chain npos size = .error .nullNode := by
  induction chain generalizing npos size with
  | nil => rfl
  | cons n rest ih =>
    have hsz : n.size = b := hu.head
    have hcap : sizeSub n.size npos = b-npos := by rw [sizeSub_of_le (by omega), hsz]
    rw [List.length_cons, Nat.succ_mul] at hlong
    have hz : ¬size = 0 := by omega
    have hle : ¬size ≤ b-npos := by omega
    rw [readLoop]
    simp only [hcap, hz, ge_iff_le, hle, if_false,
      n.copyOut_ok (show npos+(b-npos) ≤ n.size by omega),
      ih hu.tail (show 0 < b by omega) (show _ < 0+(size-(b-npos)) by omega)]
    rfl

/-- The flat position at which `readAt` begins: the offset of `position` in its node, counted
from the node of the cursor. -/
def readAtStart (a : ByteArray) (position : ℕ) : ℕ :=
  a.position/a.baseSize*a.baseSize+position%a.baseSize

theorem readAtStart_of_node {a : ByteArray} {position : ℕ}
    (h : position/a.baseSize = a.position/a.baseSize) : a.readAtStart position = position := by
  rw [readAtStart, ← h, Nat.mul_comm]
  exact Nat.div_add_mod ..

namespace WellFormed
variable {a : ByteArray}

/-- What the loop of `readAt` copies. -/
theorem readLoop_readAtStart (h : a.WellFormed) {n : ℕ} (hn : 0 < n) (position : ℕ) :
    ByteArray.readLoop a.fromCur (position%a.baseSize) n =
      if a.readAtStart position+n ≤ a.capacity then
        .ok (window (contents a.root) (a.readAtStart position) n,
          (position%a.baseSize+n)/a.baseSize)
      else .error .nullNode := by
  have hmod := Nat.mod_lt position h.base_pos
  have hcap := h.capacity_eq
  have hindex : a.position/a.baseSize ≤ a.root.length := by
    have hle := h.position_le.trans h.size_le
    rw [hcap] at hle
    exact Nat.div_le_of_le_mul (Nat.mul_comm .. ▸ hle)
  have hlength : (a.root.drop (a.position/a.baseSize)).length*a.baseSize =
      a.capacity-a.position/a.baseSize*a.baseSize := by
    rw [List.length_drop, Nat.sub_mul, hcap]
  rw [h.fromCur_drop]
  unfold readAtStart
  split
  · next hfit =>
    have hne : a.root.drop (a.position/a.baseSize) ≠ [] := by
      intro hnil
      rw [hnil, List.length_nil, Nat.zero_mul] at hlength
      omega
    rw [readLoop_ok h.base_pos (h.uniform.drop _) hne hmod (by omega), contents, contents,
      List.map_drop, h.uniform.even.window_drop (by rwa [List.length_map])]
  · exact readLoop_null (h.uniform.drop _) hmod (by omega)

theorem readAt (h : a.WellFormed) {n : ℕ} (hn : 0 < n) (position : ℕ) :
    a.readAt n position =
      if n > sizeSub a.size position then .error (.outOfRange "not enough len") else
      if a.readAtStart position+n ≤ a.capacity then
        .ok (window (contents a.root) (a.readAtStart position) n)
      else .error .nullNode := by
  rw [ByteArray.readAt]
  simp only [h.readLoop_readAtStart hn]
  split
  · rfl
  · split <;> rfl

/-- Reading from another position by moving the cursor there. -/
theorem seek_read (h : a.WellFormed) {n position : ℕ} (hn : 0 < n) (hin : position+n ≤ a.size) :
    ∃ a', a.setPosition position = .ok a' ∧
      ∃ a'', a'.read n = .ok (window (contents a.root) position n,a'') := by
  have hsize := h.size_le
  refine ⟨_,h.setPosition (by omega),?_⟩
  have hmoved := h.moved (show position ≤ max a.size position from le_max_right ..)
    (max_le hsize (by omega))
  exact ⟨_,hmoved.read (by dsimp only; omega) (by dsimp only; omega)⟩

end WellFormed

/-- The positional read fails exactly where bytes are missing, and else it stores what a read
stores behind `setPosition`. -/
def ReadsAt (a : ByteArray) (n position : ℕ) : Prop :=
  if a.size < position+n then a.readAt n position = .error (.outOfRange "not enough len")
  else ∃ bytes a' a'', a.setPosition position = .ok a' ∧ a'.read n = .ok (bytes,a'') ∧
    a.readAt n position = .ok bytes

/-- The difference of the sizes does not wrap around to a value that lets the read pass. -/
def RangeTested (a : ByteArray) (n position : ℕ) : Prop :=
  position ≤ a.size ∨ 2^64+a.size < position+n

/-- The position is in the node of the cursor, or the bytes at its offset from there are the same
by chance. -/
def AtCursorNode (a : ByteArray) (n position : ℕ) : Prop :=
  position/a.baseSize = a.position/a.baseSize ∨ a.readAtStart position+n ≤ a.capacity ∧
    window (contents a.root) (a.readAtStart position) n = window (contents a.root) position n

/-- The positional read does what it should for positions in the node of the cursor, and for
those past the end that its unsigned difference still finds out. -/
theorem readsAt_iff {a : ByteArray} (h : a.WellFormed) {n : ℕ} (hn : 0 < n) (position : ℕ) :
    a.ReadsAt n position ↔
      (a.size < position+n → a.RangeTested n position) ∧
      (position+n ≤ a.size → a.AtCursorNode n position) := by
  have hsize := h.size_le
  rw [ReadsAt, h.readAt hn]
  by_cases hshort : a.size < position+n
  · rw [if_pos hshort, and_iff_left (fun hle => absurd hle (Nat.not_le.mpr hshort)),
      imp_iff_right hshort]
    unfold RangeTested sizeSub
    constructor
    · intro herror
      by_contra hpassed
      rw [if_neg (by split <;> omega)] at herror
      split at herror <;> cases herror
    · intro htested
      exact if_pos (by split <;> omega)
  · have hin : position+n ≤ a.size := Nat.not_lt.mp hshort
    have hpassed : ¬n > sizeSub a.size position := by
      rw [sizeSub_of_le (by omega)]
      omega
    obtain ⟨a',hseek,a'',hread⟩ := h.seek_read hn hin
    rw [if_neg hshort, if_neg hpassed, and_iff_right (fun hlt => absurd hlt hshort),
      imp_iff_right hin]
    constructor
    · rintro ⟨bytes,b',b'',hseek',hread',hat⟩
      cases hseek.symm.trans hseek'
      cases hread.symm.trans hread'
      split at hat
      · next hfit => exact .inr ⟨hfit,Except.ok.inj hat⟩
      · cases hat
    · intro hnode
      have hfound : a.readAtStart position+n ≤ a.capacity ∧
          window (contents a.root) (a.readAtStart position) n =
            window (contents a.root) position n := by
        refine hnode.elim (fun heq => ?_) id
        rw [readAtStart_of_node heq]
        exact ⟨by omega,rfl⟩
      exact ⟨_,a',a'',hseek,hread,by rw [if_pos hfound.1, hfound.2]⟩

/-- Two nodes of two bytes with the cursor at the start. -/
def twoByTwo : ByteArray where
  baseSize := 2
  position := 0
  capacity := 4
  size := 4
  root := [⟨2,[1,2],rfl⟩,⟨2,[3,4],rfl⟩]
  cur := some 0
  blocks := 2

theorem twoByTwo_wellFormed : twoByTwo.WellFormed where
  base_pos := by decide
  uniform := .cons rfl (.cons rfl fun n hn => absurd hn List.not_mem_nil)
  root_ne := List.cons_ne_nil _ _
  capacity_eq := rfl
  position_le := by decide
  size_le := by decide
  cur_eq := rfl

theorem readsAt_second : twoByTwo.ReadsAt 2 1 :=
  (readsAt_iff twoByTwo_wellFormed (by decide) 1).mpr
    ⟨fun hlt => absurd hlt (by decide),fun _ => .inl (by decide)⟩

/-- At position 2 the read stores the byte of position 0. -/
theorem not_readsAt : ¬∀ (a : ByteArray) (n position : ℕ), a.WellFormed → 0 < n →
    a.ReadsAt n position := by
  intro h
  have hreads := h twoByTwo 1 2 twoByTwo_wellFormed (by decide)
  rw [ReadsAt, if_neg (by decide)] at hreads
  obtain ⟨bytes,a',a'',hseek,hread,hat⟩ := hreads
  have hright : twoByTwo.setPosition 2 >>= ByteArray.read 1 = .ok (bytes,a'') := by
    rw [hseek]
    exact hread
  cases hright
  exact absurd hat (by decide)

end CoroutineWebserve.ByteArray
