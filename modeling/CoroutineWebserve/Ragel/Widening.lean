import CoroutineWebserve.Ragel.Language

/-!
# Patterns with extra bytes

A condition in a grammar adds bytes to a class. The wider pattern reads what the other one
reads once each extra byte is replaced by a byte that the class has anyway.
-/
namespace CoroutineWebserve.Ragel.Pattern
open Computability
variable {p q p' q' : Pattern} {b : UInt8}

/-! ### When nothing is left -/

/-- Some word matches. -/
def productive : Pattern → Bool
  | none => false
  | eps | star _ => true
  | byte ranges => ranges.any fun r => r.1 ≤ r.2
  | alt p q => p.productive || q.productive
  | cat p q => p.productive && q.productive

/-- What follows a part of the pattern can be matched. -/
def trim : Pattern → Bool
  | none | eps | byte _ => true
  | alt p q => p.trim && q.trim
  | cat p q => p.trim && q.trim && q.productive
  | star p => p.trim

theorem productive_iff (p : Pattern) : p.productive = true ↔ ∃ w, w ∈ p.lang := by
  induction p with
  | none => exact iff_of_false nofun fun ⟨_,h⟩ => notMem_lang_none h
  | eps => exact iff_of_true rfl ⟨[],mem_lang_eps.mpr rfl⟩
  | byte ranges =>
    rw [productive, List.any_eq_true]
    constructor
    · rintro ⟨r,hr,hle⟩
      exact ⟨[r.1],r.1,List.any_eq_true.mpr ⟨r,hr,by simpa using hle⟩,rfl⟩
    · rintro ⟨_,b,hb,rfl⟩
      obtain ⟨r,hr,hle⟩ := List.any_eq_true.mp hb
      rw [Bool.and_eq_true, decide_eq_true_eq, decide_eq_true_eq] at hle
      exact ⟨r,hr,decide_eq_true (UInt8.le_trans hle.1 hle.2)⟩
  | alt p q ihp ihq =>
    rw [productive, Bool.or_eq_true, ihp, ihq, ← exists_or]
    simp only [mem_lang_alt]
  | cat p q ihp ihq =>
    rw [productive, Bool.and_eq_true, ihp, ihq]
    constructor
    · rintro ⟨⟨u,hu⟩,v,hv⟩
      exact ⟨u++v,mem_lang_cat.mpr ⟨u,hu,v,hv,rfl⟩⟩
    · rintro ⟨w,hw⟩
      obtain ⟨u,hu,v,hv,-⟩ := mem_lang_cat.mp hw
      exact ⟨⟨u,hu⟩,v,hv⟩
  | star p => exact iff_of_true rfl ⟨[],Language.nil_mem_kstar _⟩

theorem productive_union (h : p = none ∨ p.productive = true)
    (h' : q = none ∨ q.productive = true) : p.union q = none ∨ (p.union q).productive = true := by
  rcases h with rfl | h
  · exact h'
  · obtain ⟨w,hw⟩ := (productive_iff p).mp h
    refine .inr ((productive_iff _).mpr ⟨w,?_⟩)
    rw [lang_union]
    exact (Language.mem_add ..).mpr (.inl hw)

theorem productive_seq (h : p = none ∨ p.productive = true) (h' : q.productive = true) :
    p.seq q = none ∨ (p.seq q).productive = true := by
  rcases h with rfl | h
  · exact .inl rfl
  · obtain ⟨u,hu⟩ := (productive_iff p).mp h
    obtain ⟨v,hv⟩ := (productive_iff q).mp h'
    refine .inr ((productive_iff _).mpr ⟨u++v,?_⟩)
    rw [lang_seq]
    exact Language.append_mem_mul hu hv

theorem trim_union (h : p.trim = true) (h' : q.trim = true) : (p.union q).trim = true := by
  fun_induction union p q with
  | case1 q => exact h'
  | case2 p r q ih₁ ih₂ =>
    rw [trim, Bool.and_eq_true] at h
    exact ih₂ h.1 (ih₁ h.2 h')
  | case3 p => exact h
  | case4 p q => exact h'
  | case5 p q => exact Bool.and_eq_true_iff.mpr ⟨h,h'⟩

theorem trim_seq (h : p.trim = true) (h' : q.trim = true) (hq : q.productive = true) :
    (p.seq q).trim = true := by
  unfold seq
  split
  · rfl
  · exact h'
  · simp [trim, h, h', hq]

theorem trim_after (h : p.trim = true) : (p.after b).trim = true := by
  induction p with
  | none | eps => rfl
  | byte ranges =>
    rw [after]
    split <;> rfl
  | alt p q ihp ihq =>
    rw [trim, Bool.and_eq_true] at h
    exact trim_union (ihp h.1) (ihq h.2)
  | cat p q ihp ihq =>
    simp only [trim, Bool.and_eq_true] at h
    have hseq := trim_seq (ihp h.1.1) h.1.2 h.2
    rw [after]
    split
    · exact trim_union hseq (ihq h.1.2)
    · exact hseq
  | star p ih => exact trim_seq (ih h) h rfl

/-- A trim pattern is left with nothing or with a word. -/
theorem productive_after (h : p.trim = true) :
    p.after b = none ∨ (p.after b).productive = true := by
  induction p with
  | none | eps => exact .inl rfl
  | byte ranges =>
    rw [after]
    split
    · exact .inr rfl
    · exact .inl rfl
  | alt p q ihp ihq =>
    rw [trim, Bool.and_eq_true] at h
    exact productive_union (ihp h.1) (ihq h.2)
  | cat p q ihp ihq =>
    simp only [trim, Bool.and_eq_true] at h
    have hseq := productive_seq (ihp h.1.1) h.2
    rw [after]
    split
    · exact productive_union hseq (ihq h.1.2)
    · exact hseq
  | star p ih => exact productive_seq (ih h) rfl

theorem after_ne_none_iff (h : p.trim = true) :
    p.after b ≠ none ↔ ∃ w, b :: w ∈ p.lang := by
  constructor
  · intro hne
    obtain ⟨w,hw⟩ := (productive_iff _).mp ((productive_after h).resolve_left hne)
    exact ⟨w,mem_after.mp hw⟩
  · rintro ⟨w,hw⟩
    exact after_ne_none hw

/-! ### The wider pattern -/

/-- `q` reads what `p` reads behind `fix`, which replaces the bytes that `p` does not know. -/
structure Widens (fix : UInt8 → UInt8) (p q : Pattern) : Prop where
  mem : ∀ w, w ∈ q.lang ↔ w.map fix ∈ p.lang
  fixed : ∀ w ∈ p.lang, w.map fix = w

namespace Widens
variable {fix : UInt8 → UInt8}

/-- No byte of the pattern is replaced, or replaces another. -/
theorem refl (h : ∀ b, fix b = b ∨ p.avoids b = true ∧ p.avoids (fix b) = true) :
    Widens fix p p := by
  have hfixed : ∀ w ∈ p.lang, w.map fix = w := by
    intro w hw
    refine (List.map_congr_left fun b hb => ?_).trans (List.map_id w)
    exact (h b).resolve_right fun h => notMem_of_avoids h.1 hw hb
  refine ⟨fun w => ⟨fun hw => ?_,fun hw => ?_⟩,hfixed⟩
  · rwa [hfixed w hw]
  · suffices hsame : w.map fix = w by rwa [hsame] at hw
    refine (List.map_congr_left fun b hb => ?_).trans (List.map_id w)
    exact (h b).resolve_right fun h => notMem_of_avoids h.2 hw (List.mem_map_of_mem hb)

/-- Two classes, compared byte by byte. -/
theorem byte {ranges ranges' : List (UInt8 × UInt8)}
    (h : ∀ b, inRanges ranges' b = inRanges ranges (fix b))
    (h' : ∀ b, inRanges ranges b = true → fix b = b) :
    Widens fix (byte ranges) (byte ranges') where
  mem w := by
    rw [mem_lang_byte, mem_lang_byte]
    constructor
    · rintro ⟨b,hb,rfl⟩
      exact ⟨fix b,by rwa [← h],rfl⟩
    · rintro ⟨c,hc,hw⟩
      obtain ⟨b,rfl,rfl⟩ := List.map_eq_singleton_iff.mp hw
      exact ⟨b,by rwa [h],rfl⟩
  fixed w hw := by
    obtain ⟨b,hb,rfl⟩ := mem_lang_byte.mp hw
    rw [List.map_singleton, h' b hb]

/-- The bytes that are replaced stand beside those that are kept. -/
theorem byte_alt {kept extra : List (UInt8 × UInt8)}
    (h : ∀ b, (inRanges kept b || inRanges extra b) = inRanges kept (fix b))
    (h' : ∀ b, inRanges kept b = true → fix b = b) :
    Widens fix (.alt (.byte kept) .none) (.alt (.byte kept) (.byte extra)) := by
  have hb : Widens fix (.byte kept) (.byte (kept++extra)) :=
    .byte (fun b => by rw [← h, inRanges, List.any_append]; rfl) h'
  refine ⟨fun w => ?_,fun w hw => hb.fixed w ((mem_lang_alt.mp hw).resolve_right notMem_lang_none)⟩
  rw [mem_lang_alt, mem_lang_alt, or_iff_left notMem_lang_none, ← hb.mem]
  simp only [mem_lang_byte, inRanges, List.any_append, Bool.or_eq_true, or_and_right, exists_or]

theorem alt (h : Widens fix p q) (h' : Widens fix p' q') :
    Widens fix (alt p p') (alt q q') where
  mem w := by rw [mem_lang_alt, mem_lang_alt, h.mem, h'.mem]
  fixed w hw := (mem_lang_alt.mp hw).elim (h.fixed w) (h'.fixed w)

theorem cat (h : Widens fix p q) (h' : Widens fix p' q') :
    Widens fix (cat p p') (cat q q') where
  mem w := by
    rw [mem_lang_cat, mem_lang_cat]
    constructor
    · rintro ⟨u,hu,v,hv,rfl⟩
      exact ⟨_,(h.mem u).mp hu,_,(h'.mem v).mp hv,List.map_append.symm⟩
    · rintro ⟨u,hu,v,hv,huv⟩
      obtain ⟨u,v,rfl,rfl,rfl⟩ := List.append_eq_map_iff.mp huv
      exact ⟨u,(h.mem u).mpr hu,v,(h'.mem v).mpr hv,rfl⟩
  fixed w hw := by
    obtain ⟨u,hu,v,hv,rfl⟩ := mem_lang_cat.mp hw
    rw [List.map_append, h.fixed u hu, h'.fixed v hv]

theorem star (h : Widens fix p q) : Widens fix (star p) (star q) where
  mem w := by
    constructor
    · intro hw
      obtain ⟨l,rfl,hl⟩ := Language.mem_kstar.mp hw
      rw [List.map_flatten]
      refine Language.join_mem_kstar fun y hy => ?_
      obtain ⟨u,hu,rfl⟩ := List.mem_map.mp hy
      exact (h.mem u).mp (hl u hu)
    · intro hw
      obtain ⟨l,hlw,hl⟩ := Language.mem_kstar.mp hw
      induction l generalizing w with
      | nil =>
        obtain rfl := List.map_eq_nil_iff.mp hlw
        exact Language.nil_mem_kstar _
      | cons y l ih =>
        obtain ⟨u,v,rfl,rfl,hv⟩ := List.map_eq_append_iff.mp hlw
        rw [List.forall_mem_cons] at hl
        have htail := ih v (hv ▸ Language.join_mem_kstar hl.2) hv hl.2
        obtain ⟨m,rfl,hm⟩ := Language.mem_kstar.mp htail
        exact Language.join_mem_kstar (L := u :: m)
          (List.forall_mem_cons.mpr ⟨(h.mem u).mpr hl.1,hm⟩)
  fixed w hw := by
    obtain ⟨l,rfl,hl⟩ := Language.mem_kstar.mp hw
    rw [List.map_flatten]
    have hmap : l.map (List.map fix) = l :=
      (List.map_congr_left fun y hy => h.fixed y (hl y hy)).trans (List.map_id l)
    rw [hmap]

theorem opt (h : Widens fix p q) : Widens fix p.opt q.opt := h.alt (refl fun _ => .inr ⟨rfl,rfl⟩)

theorem plus (h : Widens fix p q) : Widens fix p.plus q.plus := h.cat h.star

/-- Both read a byte that is kept. -/
theorem after (h : Widens fix p q) (hb : fix b = b) : Widens fix (p.after b) (q.after b) where
  mem w := by rw [mem_after, mem_after, h.mem, List.map_cons, hb]
  fixed w hw := (List.cons.inj (h.fixed _ (mem_after.mp hw))).2

theorem nullable_eq (h : Widens fix p q) : p.nullable = q.nullable := by
  rw [Bool.eq_iff_iff, nullable_iff, nullable_iff, h.mem, List.map_nil]

/-- The narrow pattern knows no byte that is replaced. -/
theorem after_eq_none (h : Widens fix p q) (hp : p.trim = true) (hb : fix b ≠ b) :
    p.after b = none := by
  by_contra hne
  obtain ⟨w,hw⟩ := (after_ne_none_iff hp).mp hne
  exact hb (List.cons.inj (h.fixed _ hw)).1

/-- The wide pattern reads a byte where the narrow one reads what replaces it. -/
theorem after_ne_none_iff (h : Widens fix p q) (hp : p.trim = true) (hq : q.trim = true) :
    q.after b ≠ none ↔ p.after (fix b) ≠ none := by
  rw [Pattern.after_ne_none_iff hq, Pattern.after_ne_none_iff hp]
  constructor
  · rintro ⟨w,hw⟩
    exact ⟨_,(h.mem _).mp hw⟩
  · rintro ⟨w,hw⟩
    refine ⟨w,(h.mem _).mpr ?_⟩
    rwa [List.map_cons, (List.cons.inj (h.fixed _ hw)).2]

end Widens
end CoroutineWebserve.Ragel.Pattern
