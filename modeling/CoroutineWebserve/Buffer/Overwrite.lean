import Mathlib.Data.List.Basic
import Mathlib.Data.List.Forall2
import Mathlib.Tactic.Common

/-!
# Overwriting and reading windows of a flat list

`overwrite l p xs` replaces the cells of `l` from position `p` on by `xs`, extending the
list when `xs` goes past its end; `window l p n` reads `n` cells from position `p` on.
Both are followed across a concatenation, so a list cut into blocks can be treated block
by block.
-/
namespace CoroutineWebserve.Buffer

variable {α : Type*}

def overwrite (l : List α) (p : ℕ) (xs : List α) : List α :=
  l.take p ++ xs ++ l.drop (p+xs.length)

def window (l : List α) (p n : ℕ) : List α := (l.drop p).take n

theorem overwrite_length (l : List α) (p : ℕ) (xs : List α) (h : p ≤ l.length) :
    (overwrite l p xs).length = max l.length (p+xs.length) := by
  simp only [overwrite, List.length_append, List.length_take, List.length_drop]
  omega

theorem window_length (l : List α) (p n : ℕ) (h : p+n ≤ l.length) :
    (window l p n).length = n := by
  simp only [window, List.length_take, List.length_drop]
  omega

@[simp] theorem window_zero (l : List α) (p : ℕ) : window l p 0 = [] := by simp [window]

/-- The cells of an overwritten list: the new ones inside the range, the old ones outside. -/
theorem getElem?_overwrite (l : List α) (p : ℕ) (xs : List α) (h : p ≤ l.length) (i : ℕ) :
    (overwrite l p xs)[i]? = if i < p then l[i]? else
      if i < p+xs.length then xs[i-p]? else l[i]? := by
  simp only [overwrite, List.append_assoc]
  by_cases hi : i < p
  · rw [List.getElem?_append_left (by simp; omega), if_pos hi, List.getElem?_take_of_lt hi]
  · have ht : (l.take p).length = p := by simp [h]
    rw [if_neg hi, List.getElem?_append_right (by omega), ht]
    by_cases hx : i < p+xs.length
    · rw [if_pos hx, List.getElem?_append_left (by omega)]
    · rw [if_neg hx, List.getElem?_append_right (by omega), List.getElem?_drop]
      congr 1
      omega

theorem getElem?_window (l : List α) (p n i : ℕ) :
    (window l p n)[i]? = if i < n then l[p+i]? else none := by
  by_cases h : i < n
  · rw [if_pos h, window, List.getElem?_take_of_lt h, List.getElem?_drop]
  · rw [if_neg h, window, List.getElem?_eq_none (by simp; omega)]

/-- An overwrite that ends inside the first part leaves the second part alone. -/
theorem overwrite_append_left (a b : List α) (p : ℕ) (xs : List α) (h : p+xs.length ≤ a.length) :
    overwrite (a++b) p xs = overwrite a p xs ++ b := by
  simp only [overwrite, List.append_assoc]
  rw [List.take_append_of_le_length (by omega), List.drop_append_of_le_length h]

/-- An overwrite that crosses the boundary splits into one of each part. -/
theorem overwrite_append_cross (a b : List α) (p : ℕ) (xs ys : List α)
    (h : p+xs.length = a.length) :
    overwrite (a++b) p (xs++ys) = overwrite a p xs ++ overwrite b 0 ys := by
  have hd : (a++b).drop (p+(xs++ys).length) = b.drop ys.length := by
    rw [List.length_append, ← Nat.add_assoc, h, ← List.drop_drop, List.drop_left]
  simp only [overwrite, hd, List.take_append_of_le_length (show p ≤ a.length by omega), h,
    List.drop_length, List.take_zero, List.nil_append, Nat.zero_add, List.append_nil,
    List.append_assoc]

/-- An overwrite past the first part happens in the second. -/
theorem overwrite_append_right (a b : List α) (p : ℕ) (xs : List α) :
    overwrite (a++b) (a.length+p) xs = a ++ overwrite b p xs := by
  simp only [overwrite, List.take_length_add_append, Nat.add_assoc, List.drop_length_add_append,
    List.append_assoc]

/-- Two overwrites one behind the other are one. -/
theorem overwrite_overwrite (l : List α) (p : ℕ) (xs ys : List α) (h : p ≤ l.length) :
    overwrite (overwrite l p xs) (p+xs.length) ys = overwrite l p (xs++ys) := by
  have hlen : (l.take p++xs).length = p+xs.length := by
    rw [List.length_append, List.length_take, Nat.min_eq_left h]
  have htake : (overwrite l p xs).take (p+xs.length) = l.take p++xs := by
    rw [overwrite, ← hlen, List.take_left]
  have hdrop : (overwrite l p xs).drop (p+xs.length+ys.length) =
      l.drop (p+(xs++ys).length) := by
    rw [overwrite, ← List.drop_drop, ← hlen, List.drop_left, hlen, List.drop_drop,
      List.length_append, Nat.add_assoc]
  rw [overwrite, htake, hdrop, overwrite, List.append_assoc (l.take p)]

theorem window_append_left (a b : List α) (p n : ℕ) (h : p+n ≤ a.length) :
    window (a++b) p n = window a p n := by
  simp only [window]
  rw [List.drop_append_of_le_length (by omega), List.take_append_of_le_length]
  simp only [List.length_drop]
  omega

theorem window_append_cross (a b : List α) (p n m : ℕ) (h : p+n = a.length) :
    window (a++b) p (n+m) = window a p n ++ window b 0 m := by
  have hn : (a.drop p).length = n := by simp; omega
  simp only [window, List.drop_zero]
  rw [List.drop_append_of_le_length (by omega), ← hn, List.take_length_add_append,
    List.take_length]

theorem window_append_right (a b : List α) (p n : ℕ) :
    window (a++b) (a.length+p) n = window b p n := by
  simp only [window, List.drop_length_add_append]

/-! ### Windows as positions -/

/-- The positions of a window in two parts. -/
theorem range'_split (p : ℕ) {m n : ℕ} (h : m ≤ n) :
    List.range' p n = List.range' p m++List.range' (p+m) (n-m) := by
  rw [List.range'_append_1, Nat.add_sub_of_le h]

/-- A window is what stands at its positions. -/
theorem window_eq_filterMap (l : List α) {p n : ℕ} (h : p+n ≤ l.length) :
    window l p n = (List.range' p n).filterMap (l[·]?) := by
  induction n generalizing p with
  | zero => rw [window_zero, List.range'_zero, List.filterMap_nil]
  | succ n ih =>
    have hp : p < l.length := by omega
    have htail := ih (p := p+1) (by omega)
    rw [List.range'_succ, List.filterMap_cons_some (List.getElem?_eq_getElem hp), ← htail]
    simp only [window, List.drop_eq_getElem_cons hp, List.take_succ_cons]

/-! ### Lists cut into blocks of one length -/

/-- Every block has length `b`. -/
def Even (b : ℕ) (blocks : List (List α)) : Prop := ∀ c ∈ blocks, c.length = b

theorem Even.flatten_length {b : ℕ} {blocks : List (List α)} (h : Even b blocks) :
    blocks.flatten.length = blocks.length*b := by
  induction blocks with
  | nil => simp
  | cons c cs ih =>
    have hc : c.length = b := h c (by simp)
    have ht := ih fun d hd => h d (by simp [hd])
    simp only [List.flatten_cons, List.length_append, List.length_cons, hc, ht,
      Nat.succ_mul]
    omega

theorem Even.take {b : ℕ} {blocks : List (List α)} (h : Even b blocks) (i : ℕ) :
    Even b (blocks.take i) := fun c hc => h c (List.mem_of_mem_take hc)

theorem Even.drop {b : ℕ} {blocks : List (List α)} (h : Even b blocks) (i : ℕ) :
    Even b (blocks.drop i) := fun c hc => h c (List.mem_of_mem_drop hc)

theorem Even.append {b : ℕ} {xs ys : List (List α)} (hx : Even b xs) (hy : Even b ys) :
    Even b (xs++ys) := fun c hc => (List.mem_append.mp hc).elim (hx c) (hy c)

/-- Cell `i*b+p` of the whole is cell `p` of what follows the first `i` blocks. -/
theorem Even.flatten_take_length {b i : ℕ} {blocks : List (List α)} (h : Even b blocks)
    (hi : i ≤ blocks.length) : (blocks.take i).flatten.length = i*b := by
  rw [(h.take i).flatten_length, List.length_take, Nat.min_eq_left hi]

theorem Even.window_drop {b i : ℕ} {blocks : List (List α)} (h : Even b blocks)
    (hi : i ≤ blocks.length) (p n : ℕ) :
    window blocks.flatten (i*b+p) n = window (blocks.drop i).flatten p n := by
  conv_lhs => rw [← List.take_append_drop i blocks, List.flatten_append]
  rw [← h.flatten_take_length hi, window_append_right]

theorem Even.overwrite_drop {b i : ℕ} {blocks : List (List α)} (h : Even b blocks)
    (hi : i ≤ blocks.length) (p : ℕ) (xs : List α) :
    overwrite blocks.flatten (i*b+p) xs =
      (blocks.take i).flatten ++ overwrite (blocks.drop i).flatten p xs := by
  conv_lhs => rw [← List.take_append_drop i blocks, List.flatten_append]
  rw [← h.flatten_take_length hi, overwrite_append_right]

end CoroutineWebserve.Buffer
