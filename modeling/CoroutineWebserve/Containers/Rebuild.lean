import CoroutineWebserve.Containers.OrderedSet
import Mathlib.Data.Finset.Insert
import Mathlib.Data.Finset.Image
import Mathlib.Data.List.Lex

/-!
# Containers that are read element by element

A container is gone through in some order. What comes out of it, put into an empty one, gives the
container again.
-/
namespace CoroutineWebserve

/-- `E` are the elements, as the loops over a `C` find them. -/
structure Container (E C : Type) where
  iterate : C → List E
  empty : C
  insert : C → E → C
  rebuild : ∀ c, (iterate c).foldl insert empty = c

namespace Container
variable {E : Type}

theorem foldl_push (l m : List E) : l.foldl (fun l e => l++[e]) m = m++l := by
  induction l generalizing m with
  | nil => simp
  | cons e l ih => rw [List.foldl_cons, ih, List.append_assoc, List.singleton_append]

/-- What grows at its end. -/
def pushBack : Container E (List E) where
  iterate l := l
  empty := []
  insert l e := l++[e]
  rebuild l := foldl_push l []

/-! ### In the order of a comparison -/

/-- The elements in order, no two of them alike for the comparison. -/
abbrev Ordered (lt : E → E → Prop) := { l : List E // l.Pairwise lt }

section ordered
variable (lt : E → E → Prop) [DecidableRel lt] [IsStrictOrder E lt]

def orderedInsert (s : Ordered lt) (e : E) : Ordered lt :=
  ⟨OrderedSet.insert lt e s.val,OrderedSet.pairwise_insert s.property⟩

omit [IsStrictOrder E lt] in
variable {lt} in
theorem insert_last {l : List E} {e : E} (h : ∀ d ∈ l, lt d e) :
    OrderedSet.insert lt e l = l++[e] := by
  induction l with
  | nil => rfl
  | cons d l ih =>
    rw [OrderedSet.insert, if_pos (h d List.mem_cons_self),
      ih fun c hc => h c (List.mem_cons_of_mem d hc), List.cons_append]

theorem foldl_orderedInsert (l : List E) (s : Ordered lt) (h : (s.val++l).Pairwise lt) :
    (l.foldl (orderedInsert lt) s).val = s.val++l := by
  induction l generalizing s with
  | nil => simp
  | cons e l ih =>
    have hlast : ∀ d ∈ s.val, lt d e := fun d hd =>
      (List.pairwise_append.mp h).2.2 d hd e List.mem_cons_self
    have hstep : (orderedInsert lt s e).val = s.val++[e] := insert_last hlast
    rw [List.foldl_cons, ih _ (by rw [hstep, List.append_assoc]; exact h), hstep,
      List.append_assoc, List.singleton_append]

/-- What keeps its elements in order, and does not take one that is like an element it has. -/
def ordered : Container E (Ordered lt) where
  iterate s := s.val
  empty := ⟨[],List.Pairwise.nil⟩
  insert := orderedInsert lt
  rebuild s := Subtype.ext (foldl_orderedInsert lt s.val ⟨[],List.Pairwise.nil⟩ s.property)

end ordered

/-! ### In no order -/

/-- The elements in the order in which a loop finds them. -/
structure Order (E : Type) [DecidableEq E] where
  list : Finset E → List E
  nodup : ∀ s, (list s).Nodup
  toFinset : ∀ s, (list s).toFinset = s

section unordered
variable [DecidableEq E] (order : Order E)

theorem foldl_insert (l : List E) (s : Finset E) :
    l.foldl (fun s e => Insert.insert e s) s = s ∪ l.toFinset := by
  induction l generalizing s with
  | nil => simp
  | cons e l ih =>
    rw [List.foldl_cons, ih, List.toFinset_cons, Finset.insert_union, Finset.union_insert]

def unordered : Container E (Finset E) where
  iterate := order.list
  empty := ∅
  insert s e := Insert.insert e s
  rebuild s := by rw [foldl_insert, order.toFinset, Finset.empty_union]

end unordered

section dictionary
variable {K T : Type} [DecidableEq K] [DecidableEq T] (order : Order (K × T))

/-- Entries with keys that differ. -/
abbrev Dictionary (K T : Type) := { s : Finset (K × T) // Set.InjOn Prod.fst (s : Set (K × T)) }

/-- An entry whose key is there is not inserted. -/
def Dictionary.insert (s : Dictionary K T) (e : K × T) : Dictionary K T :=
  if h : e.1 ∈ s.val.image Prod.fst then s else
    ⟨Insert.insert e s.val,by
      rw [Finset.coe_insert, Set.injOn_insert fun he => h (Finset.mem_image_of_mem _ he)]
      exact ⟨s.property,fun himage => h (by simpa using himage)⟩⟩

theorem foldl_dictionary {s : Dictionary K T} {l : List (K × T)} (t : Dictionary K T)
    (ht : t.val ⊆ s.val) (hl : ∀ e ∈ l, e ∈ s.val) :
    (l.foldl Dictionary.insert t).val = t.val ∪ l.toFinset := by
  induction l generalizing t with
  | nil => simp
  | cons e l ih =>
    have he := hl e List.mem_cons_self
    have hstep : (t.insert e).val = Insert.insert e t.val := by
      rw [Dictionary.insert]
      split
      · next hkey =>
        obtain ⟨d,hd,hsame⟩ := Finset.mem_image.mp hkey
        have hde : d = e := s.property (ht hd) he hsame
        exact (Finset.insert_eq_of_mem (hde ▸ hd)).symm
      · rfl
    have hsub : (t.insert e).val ⊆ s.val := by
      rw [hstep]
      exact Finset.insert_subset he ht
    rw [List.foldl_cons, ih _ hsub fun d hd => hl d (List.mem_cons_of_mem e hd), hstep,
      List.toFinset_cons, Finset.insert_union, Finset.union_insert]

def dictionary : Container (K × T) (Dictionary K T) where
  iterate s := order.list s.val
  empty := ⟨∅,by simp⟩
  insert := Dictionary.insert
  rebuild s := by
    have hmem : ∀ e ∈ order.list s.val, e ∈ s.val := fun e he => by
      rw [← order.toFinset s.val]
      exact List.mem_toFinset.mpr he
    refine Subtype.ext ?_
    rw [foldl_dictionary _ (Finset.empty_subset _) hmem, order.toFinset, Finset.empty_union]

end dictionary
end Container
end CoroutineWebserve
