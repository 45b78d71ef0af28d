import CoroutineWebserve.Http.Grammar
import CoroutineWebserve.Uri.RoundTrip
import Mathlib.Algebra.Order.Kleene

/-!
# The target of a URI

What follows the authority of a URI is written into the first line of a request. The grammars of
`uri.rl` and of `http11_parser.rl` agree on it, unless the path begins with two slashes.
-/
namespace CoroutineWebserve.Client
open Ragel Pattern
open Http (Bytes bytes)

/-! ### The grammars -/

/-- `moreDelims` is empty unless the grammar is relaxed. -/
theorem subDelims_le : Uri.Grammar.subDelims.lang ≤ (Http.Grammar.subDelims false).lang :=
  fun _ hw => mem_lang_alt.mpr (.inl hw)

theorem char_le_oneOf {c : Char} {s : String} (h : c ∈ s.toList) :
    (char c).lang ≤ (oneOf s).lang := by
  intro w hw
  rw [mem_lang_char.mp hw]
  refine mem_lang_byte.mpr ⟨_,?_,rfl⟩
  rw [inRanges, List.any_eq_true]
  exact ⟨_,List.mem_map_of_mem h,by simp⟩

theorem pchar_le : Uri.Grammar.pchar.lang ≤ (Http.Grammar.pchar false).lang := by
  intro w hw
  refine mem_lang_alt.mpr ?_
  rcases mem_lang_alt.mp hw with hw | hat
  · rcases mem_lang_alt.mp hw with hw | hcolon
    · refine .inl (mem_lang_alt.mpr ?_)
      exact (mem_lang_alt.mp hw).imp_right fun h => subDelims_le h
    · exact .inr (char_le_oneOf (by decide) hcolon)
  · exact .inr (char_le_oneOf (by decide) hat)

theorem queryByte_le : (Uri.Grammar.pchar ||| char '/' ||| char '?' : Pattern).lang ≤
    (Http.Grammar.pchar false ||| oneOf "/?" : Pattern).lang := by
  intro w hw
  refine mem_lang_alt.mpr ?_
  rcases mem_lang_alt.mp hw with hw | hmark
  · exact (mem_lang_alt.mp hw).imp (fun h => pchar_le h) (fun h => char_le_oneOf (by decide) h)
  · exact .inr (char_le_oneOf (by decide) hmark)

theorem query_le : Uri.Grammar.query.lang ≤ (Http.Grammar.query false).lang :=
  kstar_mono queryByte_le

theorem fragment_le : Uri.Grammar.fragment.lang ≤ (Http.Grammar.fragment false).lang :=
  kstar_mono queryByte_le

theorem segment_le : Uri.Grammar.segment.lang ≤ (Http.Grammar.segment false).lang :=
  kstar_mono pchar_le

theorem segments_le : (star (char '/' ++ Uri.Grammar.segment)).lang ≤
    (star (char '/' ++ Http.Grammar.segment false)).lang :=
  kstar_mono (mul_le_mul' le_rfl segment_le)

/-- A path of a request target: no empty segment stands first. -/
theorem pathAbsolute_of_pathAbempty {q : Bytes} (h : 47 :: q ∈ Uri.Grammar.pathAbempty.lang)
    (hq : q.head? ≠ some 47) : 47 :: q ∈ (Http.Grammar.pathAbsolute false).lang := by
  have hslash {v : Bytes} (hv : v ∈ (char '/' ++ Uri.Grammar.segment : Pattern).lang) :
      ∃ w ∈ Uri.Grammar.segment.lang, v = 47 :: w := by
    obtain ⟨c,hc,w,hw,rfl⟩ := mem_lang_cat.mp hv
    exact ⟨w,hw,by rw [mem_lang_char.mp hc]; rfl⟩
  -- the first segment and the ones behind it
  obtain ⟨w,v,hw,hv,rfl⟩ : ∃ w v, w ∈ Uri.Grammar.segment.lang ∧
      v ∈ (star (char '/' ++ Uri.Grammar.segment)).lang ∧ q = w++v := by
    obtain ⟨x,hx,v,hv,heq⟩ := mem_lang_cat.mp h
    rcases mem_lang_alt.mp hx with hx | hx
    · obtain ⟨w,hw,rfl⟩ := hslash hx
      exact ⟨w,v,hw,hv,(List.cons.inj heq).2.symm⟩
    · obtain rfl := mem_lang_eps.mp hx
      obtain ⟨x,z,hx,hz,rfl⟩ := cons_mem_lang_star.mp ((show v = 47 :: q from heq) ▸ hv)
      obtain ⟨w,hw,hcons⟩ := hslash hx
      exact ⟨x,z,(List.cons.inj hcons).2 ▸ hw,hz,rfl⟩
  refine mem_lang_cat.mpr ⟨[47],mem_lang_char.mpr rfl,w++v,mem_lang_alt.mpr ?_,rfl⟩
  cases w with
  | nil =>
    cases v with
    | nil => exact .inr (mem_lang_eps.mpr rfl)
    | cons c v =>
      obtain ⟨x,z,hx,hz,rfl⟩ := cons_mem_lang_star.mp hv
      obtain ⟨w,hw,hcons⟩ := hslash hx
      obtain ⟨rfl,-⟩ := List.cons.inj hcons
      exact absurd rfl hq
  | cons c w =>
    have hseg := segment_le hw
    obtain ⟨x,z,hx,hz,rfl⟩ := cons_mem_lang_star.mp hseg
    exact .inl (mem_lang_cat.mpr
      ⟨_,mem_lang_cat.mpr ⟨_,hx,_,hz,rfl⟩,_,segments_le hv,rfl⟩)

end CoroutineWebserve.Client
