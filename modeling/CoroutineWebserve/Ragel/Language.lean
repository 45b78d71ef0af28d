import CoroutineWebserve.Ragel.Pattern
import CoroutineWebserve.Ragel.Run
import Mathlib.Computability.Language
import Mathlib.Order.CompletePartialOrder

/-!
# The language of a pattern

A machine that keeps the pattern that is left reads the words of the pattern: no byte of such a
word leads to `none`, and behind the word the rest is nullable.
-/
namespace CoroutineWebserve.Ragel.Pattern
open Computability

/-- The words that match the pattern. -/
def lang : Pattern → Language UInt8
  | none => 0
  | eps => 1
  | byte ranges => {w | ∃ b, inRanges ranges b ∧ w = [b]}
  | alt p q => p.lang+q.lang
  | cat p q => p.lang*q.lang
  | star p => p.lang∗

section Membership
variable {p q : Pattern} {b : UInt8} {w : List UInt8}

theorem notMem_lang_none : w ∉ none.lang := Language.notMem_zero w

@[simp] theorem mem_lang_eps : w ∈ eps.lang ↔ w = [] := Language.mem_one w

theorem mem_lang_byte {ranges : List (UInt8 × UInt8)} :
    w ∈ (byte ranges).lang ↔ ∃ b, inRanges ranges b ∧ w = [b] := Iff.rfl

theorem mem_lang_char {c : Char} : w ∈ (char c).lang ↔ w = [c.toUInt8] := by
  have hrange : ∀ b, inRanges [(c.toUInt8,c.toUInt8)] b = true ↔ b = c.toUInt8 := by
    intro b
    simp only [inRanges, List.any_cons, List.any_nil, Bool.or_false, Bool.and_eq_true,
      decide_eq_true_eq]
    exact ⟨fun h => UInt8.le_antisymm h.2 h.1,fun h => h ▸ ⟨UInt8.le_refl _,UInt8.le_refl _⟩⟩
  simp only [char, mem_lang_byte, hrange, exists_eq_left]

theorem mem_lang_alt : w ∈ (alt p q).lang ↔ w ∈ p.lang ∨ w ∈ q.lang := Language.mem_add ..

theorem mem_lang_cat : w ∈ (cat p q).lang ↔ ∃ u ∈ p.lang, ∃ v ∈ q.lang, u++v = w :=
  Language.mem_mul

theorem cons_mem_lang_cat : b :: w ∈ (cat p q).lang ↔
    (∃ u v, b :: u ∈ p.lang ∧ v ∈ q.lang ∧ u++v = w) ∨ [] ∈ p.lang ∧ b :: w ∈ q.lang := by
  rw [mem_lang_cat]
  constructor
  · rintro ⟨u,hu,v,hv,h⟩
    cases u with
    | nil =>
      cases h
      exact .inr ⟨hu,hv⟩
    | cons c u =>
      cases h
      exact .inl ⟨u,v,hu,hv,rfl⟩
  · rintro (⟨u,v,hu,hv,rfl⟩ | ⟨hnil,hw⟩)
    · exact ⟨_,hu,v,hv,rfl⟩
    · exact ⟨[],hnil,_,hw,rfl⟩

theorem cons_mem_lang_star : b :: w ∈ (star p).lang ↔
    ∃ u v, b :: u ∈ p.lang ∧ v ∈ (star p).lang ∧ u++v = w := by
  constructor
  · intro h
    obtain ⟨l,hl,hmem⟩ := Language.mem_kstar_iff_exists_nonempty.mp h
    cases l with
    | nil => cases hl
    | cons x l =>
      obtain ⟨hx,hne⟩ := hmem x List.mem_cons_self
      obtain ⟨c,u,rfl⟩ := List.exists_cons_of_ne_nil hne
      cases hl
      exact ⟨u,_,hx,Language.join_mem_kstar fun y hy => (hmem y (List.mem_cons_of_mem _ hy)).1,rfl⟩
  · rintro ⟨u,v,hu,hv,rfl⟩
    obtain ⟨l,rfl,hl⟩ := Language.mem_kstar.mp hv
    exact Language.join_mem_kstar (L := (b :: u) :: l) (List.forall_mem_cons.mpr ⟨hu,hl⟩)

end Membership

/-! ### The operations on patterns -/

theorem nullable_iff (p : Pattern) : p.nullable = true ↔ [] ∈ p.lang := by
  induction p with
  | none => exact iff_of_false nofun notMem_lang_none
  | eps => exact iff_of_true rfl (mem_lang_eps.mpr rfl)
  | byte ranges => exact iff_of_false nofun nofun
  | alt p q ihp ihq => rw [nullable, Bool.or_eq_true, ihp, ihq, mem_lang_alt]
  | cat p q ihp ihq =>
    rw [nullable, Bool.and_eq_true, ihp, ihq, mem_lang_cat]
    constructor
    · rintro ⟨hp,hq⟩
      exact ⟨[],hp,[],hq,rfl⟩
    · rintro ⟨u,hu,v,hv,h⟩
      obtain ⟨rfl,rfl⟩ := List.append_eq_nil_iff.mp h
      exact ⟨hu,hv⟩
  | star p => exact iff_of_true rfl (Language.nil_mem_kstar _)

theorem lang_le_of_has {p q : Pattern} (h : p.has q = true) : p.lang ≤ q.lang := by
  induction q with
  | alt q r _ ihr =>
    rw [has, Bool.or_eq_true, decide_eq_true_eq] at h
    rcases h with rfl | h
    · exact fun w hw => mem_lang_alt.mpr (.inl hw)
    · exact fun w hw => mem_lang_alt.mpr (.inr (ihr h hw))
  | none | eps | byte | cat | star =>
    obtain rfl := of_decide_eq_true h
    exact le_rfl

theorem lang_union (p q : Pattern) : (p.union q).lang = p.lang+q.lang := by
  fun_induction union p q with
  | case1 q => exact (zero_add _).symm
  | case2 p r q ih₁ ih₂ => rw [ih₂, ih₁, lang, add_assoc]
  | case3 p => exact (add_zero _).symm
  | case4 p q _ _ _ h => exact ((Language.le_iff ..).mp (lang_le_of_has h)).symm
  | case5 p q => rfl

theorem lang_seq (p q : Pattern) : (p.seq q).lang = p.lang*q.lang := by
  unfold seq
  split
  · exact (zero_mul _).symm
  · exact (one_mul _).symm
  · rfl

/-- What is left after a byte are the words that can follow it. -/
theorem mem_after {p : Pattern} {b : UInt8} {w : List UInt8} :
    w ∈ (p.after b).lang ↔ b :: w ∈ p.lang := by
  induction p generalizing w with
  | none => exact iff_of_false notMem_lang_none notMem_lang_none
  | eps => exact iff_of_false notMem_lang_none (by simp)
  | byte ranges =>
    rw [after, mem_lang_byte]
    split
    · next h => simp [h]
    · next h => simp [h, notMem_lang_none]
  | alt p q ihp ihq => rw [after, lang_union, Language.mem_add, ihp, ihq, mem_lang_alt]
  | cat p q ihp ihq =>
    rw [after, cons_mem_lang_cat, ← nullable_iff]
    have hseq : w ∈ ((p.after b).seq q).lang ↔
        ∃ u v, b :: u ∈ p.lang ∧ v ∈ q.lang ∧ u++v = w := by
      rw [lang_seq, Language.mem_mul]
      simp only [ihp]
      exact ⟨fun ⟨u,hu,v,hv,h⟩ => ⟨u,v,hu,hv,h⟩,fun ⟨u,v,hu,hv,h⟩ => ⟨u,hu,v,hv,h⟩⟩
    split
    · next h => rw [lang_union, Language.mem_add, hseq, ihq, and_iff_right h]
    · next h => rw [hseq, or_iff_left fun h' => h h'.1]
  | star p ih =>
    rw [after, lang_seq, Language.mem_mul, cons_mem_lang_star]
    simp only [ih]
    exact ⟨fun ⟨u,hu,v,hv,h⟩ => ⟨u,v,hu,hv,h⟩,fun ⟨u,v,hu,hv,h⟩ => ⟨u,hu,v,hv,h⟩⟩

theorem after_ne_none {p : Pattern} {b : UInt8} {w : List UInt8} (h : b :: w ∈ p.lang) :
    p.after b ≠ none := by
  intro hnone
  have hw := mem_after.mpr h
  rw [hnone] at hw
  exact notMem_lang_none hw

/-- A word matches if what is left behind it is nullable. -/
theorem mem_lang_iff {p : Pattern} {w : List UInt8} :
    w ∈ p.lang ↔ (w.foldl (fun p b => p.after b) p).nullable = true := by
  induction w generalizing p with
  | nil => exact (nullable_iff p).symm
  | cons b w ih => rw [← mem_after, ih, List.foldl_cons]

instance (p : Pattern) (w : List UInt8) : Decidable (w ∈ p.lang) :=
  decidable_of_iff _ mem_lang_iff.symm

/-! ### Bytes that occur in no word -/

/-- No class of the pattern holds the byte. -/
def avoids (b : UInt8) : Pattern → Bool
  | none | eps => true
  | byte ranges => !inRanges ranges b
  | alt p q | cat p q => p.avoids b && q.avoids b
  | star p => p.avoids b

theorem notMem_of_avoids {p : Pattern} {b : UInt8} {w : List UInt8} (h : p.avoids b = true)
    (hw : w ∈ p.lang) : b ∉ w := by
  induction p generalizing w with
  | none => exact absurd hw notMem_lang_none
  | eps =>
    obtain rfl := mem_lang_eps.mp hw
    exact List.not_mem_nil
  | byte ranges =>
    obtain ⟨c,hc,rfl⟩ := mem_lang_byte.mp hw
    rw [List.mem_singleton]
    rintro rfl
    simp [avoids, hc] at h
  | alt p q ihp ihq =>
    rw [avoids, Bool.and_eq_true] at h
    exact (mem_lang_alt.mp hw).elim (ihp h.1) (ihq h.2)
  | cat p q ihp ihq =>
    rw [avoids, Bool.and_eq_true] at h
    obtain ⟨u,hu,v,hv,rfl⟩ := mem_lang_cat.mp hw
    rw [List.mem_append, not_or]
    exact ⟨ihp h.1 hu,ihq h.2 hv⟩
  | star p ih =>
    obtain ⟨l,rfl,hl⟩ := Language.mem_kstar.mp hw
    intro hb
    obtain ⟨u,hu,hb⟩ := List.mem_flatten.mp hb
    exact ih h (hl u hu) hb

theorem avoids_union {p q : Pattern} {b : UInt8} (hp : p.avoids b = true)
    (hq : q.avoids b = true) : (p.union q).avoids b = true := by
  fun_induction union p q with
  | case1 q => exact hq
  | case2 p r q ih₁ ih₂ =>
    rw [avoids, Bool.and_eq_true] at hp
    exact ih₂ hp.1 (ih₁ hp.2 hq)
  | case3 p => exact hp
  | case4 p q => exact hq
  | case5 p q => rw [avoids, hp, hq, Bool.and_self]

theorem avoids_seq {p q : Pattern} {b : UInt8} (hp : p.avoids b = true)
    (hq : q.avoids b = true) : (p.seq q).avoids b = true := by
  unfold seq
  split
  · rfl
  · exact hq
  · rw [avoids, hp, hq, Bool.and_self]

/-- What is left of a pattern has no other bytes than the pattern. -/
theorem avoids_after {p : Pattern} {b : UInt8} (h : p.avoids b = true) (c : UInt8) :
    (p.after c).avoids b = true := by
  induction p with
  | none | eps => rfl
  | byte ranges =>
    rw [after]
    split <;> rfl
  | alt p q ihp ihq =>
    rw [avoids, Bool.and_eq_true] at h
    exact avoids_union (ihp h.1) (ihq h.2)
  | cat p q ihp ihq =>
    rw [avoids, Bool.and_eq_true] at h
    rw [after]
    split
    · exact avoids_union (avoids_seq (ihp h.1) h.2) (ihq h.2)
    · exact avoids_seq (ihp h.1) h.2
  | star p ih => exact avoids_seq (ih h) h

/-- A byte that occurs in no word leads nowhere. -/
theorem after_of_avoids {p : Pattern} {b : UInt8} (h : p.avoids b = true) :
    p.after b = none := by
  induction p with
  | none | eps => rfl
  | byte ranges =>
    rw [avoids, Bool.not_eq_true'] at h
    simp [after, h]
  | alt p q ihp ihq =>
    rw [avoids, Bool.and_eq_true] at h
    rw [after, ihp h.1, ihq h.2]
    rfl
  | cat p q ihp ihq =>
    rw [avoids, Bool.and_eq_true] at h
    simp [after, ihp h.1, ihq h.2, seq, union]
  | star p ih =>
    rw [after, ih h]
    rfl

/-- In a repetition of words of `p` and of one byte, the first such byte stands behind words of
`p`. -/
theorem mem_star_of_split {p q : Pattern} {b : UInt8} {x y : List UInt8}
    (hp : p.avoids b = true) (hq : ∀ w ∈ q.lang, w = [b])
    (hw : x++b :: y ∈ (star (alt p q)).lang) (hx : b ∉ x) :
    x ∈ (star p).lang ∧ y ∈ (star (alt p q)).lang := by
  obtain ⟨l,hl,hmem⟩ := Language.mem_kstar.mp hw
  induction l generalizing x with
  | nil => simp at hl
  | cons u l ih =>
    rw [List.flatten_cons] at hl
    have hrest : ∀ v ∈ l, v ∈ (alt p q).lang := fun v hv => hmem v (List.mem_cons_of_mem _ hv)
    rcases mem_lang_alt.mp (hmem u List.mem_cons_self) with hu | hu
    · obtain ⟨x',rfl,hl'⟩ : ∃ x', x = u++x' ∧ x'++b :: y = l.flatten := by
        rcases List.append_eq_append_iff.mp hl with ⟨z,hz,hy⟩ | ⟨z,hz,hy⟩
        · -- the word `u` would reach beyond the byte
          cases z with
          | nil => exact ⟨[],by simpa using hz.symm,hy⟩
          | cons c z =>
            cases hy
            exact absurd (hz ▸ List.mem_append_right x List.mem_cons_self)
              (notMem_of_avoids hp hu)
        · exact ⟨z,hz,hy.symm⟩
      have hx' : b ∉ x' := fun h => hx (List.mem_append_right _ h)
      obtain ⟨hstar,hy⟩ := ih (hl' ▸ Language.join_mem_kstar hrest) hx' hl' hrest
      obtain ⟨l',rfl,hl''⟩ := Language.mem_kstar.mp hstar
      exact ⟨Language.join_mem_kstar (L := u :: l') (List.forall_mem_cons.mpr ⟨hu,hl''⟩),hy⟩
    · obtain rfl := hq u hu
      cases x with
      | nil =>
        obtain ⟨-,rfl⟩ := List.cons.inj hl
        exact ⟨Language.nil_mem_kstar _,Language.join_mem_kstar hrest⟩
      | cons c x =>
        obtain ⟨rfl,-⟩ := List.cons.inj hl
        exact absurd List.mem_cons_self hx

/-! ### Reading words -/

theorem mem_foldl_after {p : Pattern} {w z : List UInt8} :
    z ∈ (w.foldl (fun p b => p.after b) p).lang ↔ w++z ∈ p.lang := by
  induction w generalizing p with
  | nil => rfl
  | cons b w ih => rw [List.foldl_cons, ih, mem_after, List.cons_append]

theorem foldl_after_ne_none {p : Pattern} {w z : List UInt8} (h : w++z ∈ p.lang) :
    w.foldl (fun p b => p.after b) p ≠ none := by
  intro hnone
  have hz := mem_foldl_after.mpr h
  rw [hnone] at hz
  exact notMem_lang_none hz

/-- Words of a pattern are read to their end in the states that keep the pattern that is left. -/
theorem silent_word {S A : Type*} [DecidableEq S] {error : S} {step : S → UInt8 → S × List A}
    (state : Pattern → S) {ends : List UInt8} (hstate : ∀ p, state p ≠ error)
    (hstep : ∀ rest b, b ∉ ends → rest.after b ≠ none →
      step (state rest) b = (state (rest.after b),[]))
    {rest : Pattern} {w : List UInt8} (hw : w ∈ rest.lang) (hends : ∀ b ∈ w, b ∉ ends) :
    ∃ last, silent error step (state rest) w = some (state last) ∧ last.nullable = true := by
  induction w generalizing rest with
  | nil => exact ⟨rest,rfl,(nullable_iff rest).mpr hw⟩
  | cons b w ih =>
    obtain ⟨last,hlast,hnull⟩ := ih (mem_after.mpr hw) fun c hc =>
      hends c (List.mem_cons_of_mem _ hc)
    have hb := hstep rest b (hends b List.mem_cons_self) (after_ne_none hw)
    exact ⟨last,by rw [silent_cons hb (hstate _), hlast],hnull⟩

end CoroutineWebserve.Ragel.Pattern
