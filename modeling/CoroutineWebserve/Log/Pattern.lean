import CoroutineWebserve.Log.Formatter
import Mathlib.Data.List.Chain

/-!
# The grammar of log patterns

A pattern is a sequence of literals, `%%`, `%k` and `%k{fmt}`. The parser looks at the second sign
of `%%` again, so that it begins a directive.
-/
namespace CoroutineWebserve.Log

/-- A part of a pattern. -/
inductive PatternPiece
  | literal (s : Bytes)
  | percent
  | directive (k : UInt8)
  | withFmt (k : UInt8) (fmt : Bytes)
deriving DecidableEq

namespace PatternPiece

def text : PatternPiece → Bytes
  | literal s => s
  | percent => [37,37]
  | directive k => [37,k]
  | withFmt k fmt => 37 :: k :: 123 :: (fmt++[125])

def known (k : UInt8) : Prop := k ∈ bytes "mprctndflTFN"

instance : DecidablePred known := fun _ => inferInstanceAs (Decidable (_ ∈ _))

/-- The literals have no percent signs, and the letters are known. -/
def Ok : PatternPiece → Prop
  | literal s => s ≠ [] ∧ 37 ∉ s
  | percent => True
  | directive k => known k
  | withFmt k fmt => known k ∧ 125 ∉ fmt

instance : DecidablePred Ok
  | literal _ => inferInstanceAs (Decidable (_ ∧ _))
  | percent => isTrue trivial
  | directive k => inferInstanceAs (Decidable (known k))
  | withFmt _ _ => inferInstanceAs (Decidable (_ ∧ _))

/-- The byte is not taken for a part of the directive before it. -/
def Ends (c : UInt8) : Prop := ¬isalpha c ∧ c ≠ 123 ∧ c ≠ 125

/-- The second piece may come directly after the first. -/
def MayFollow : PatternPiece → PatternPiece → Prop
  | directive _, literal s => ∀ c ∈ s.head?, Ends c
  | _, _ => True

instance : DecidablePred Ends := fun _ => inferInstanceAs (Decidable (_ ∧ _))

instance : DecidableRel MayFollow
  | directive _, literal s => inferInstanceAs (Decidable (∀ c ∈ s.head?, Ends c))
  | directive _, percent | directive _, directive _ | directive _, withFmt _ _ => isTrue trivial
  | literal _, _ | percent, _ | withFmt _ _, _ => isTrue trivial

/-- What a piece stands for; `out` is what an item writes. -/
def output (out : FormatItem → Bytes) : PatternPiece → Bytes
  | literal s => s
  | percent => [37]
  | directive k => ((formatItem [k] []).map out).getD []
  | withFmt k fmt => ((formatItem [k] fmt).map out).getD []

end PatternPiece

open PatternPiece

/-- A pattern by the grammar. -/
structure Grammatical (ps : List PatternPiece) : Prop where
  ok : ∀ p ∈ ps, p.Ok
  chain : ps.IsChain MayFollow

theorem Grammatical.tail {p : PatternPiece} {ps : List PatternPiece} (h : Grammatical (p :: ps)) :
    Grammatical ps where
  ok q hq := h.ok q (List.mem_cons_of_mem p hq)
  chain := h.chain.tail

def patternText (ps : List PatternPiece) : Bytes := ps.flatMap text

/-- What items write: text is written as it is. -/
def Writes (out : FormatItem → Bytes) : Prop := ∀ s, out (.string s) = s

/-- `LogFormatter::format` for an event; `out` is what the items write for it. -/
def LogFormatter.format (f : LogFormatter) (out : FormatItem → Bytes) : Bytes := f.items.flatMap out

namespace LogFormatter

/-- The pattern is read without an error, and the pieces are written one after the other. -/
def Parses (ps : List PatternPiece) : Prop :=
  (new (patternText ps)).error = false ∧
    ∀ out, Writes out → (new (patternText ps)).format out = ps.flatMap (PatternPiece.output out)

/-- What the constructor makes of the entries. -/
def failed (r : List Piece × Bool) : Bool := r.2 || r.1.any fun piece => (item piece).2

def written (out : FormatItem → Bytes) (r : List Piece × Bool) : Bytes :=
  r.1.flatMap fun piece => out (item piece).1

theorem parses_iff {ps : List PatternPiece} : Parses ps ↔
    failed (pieces [] 0 (patternText ps)) = false ∧
      ∀ out, Writes out →
        written out (pieces [] 0 (patternText ps)) = ps.flatMap (PatternPiece.output out) := by
  unfold Parses new format written
  simp only [List.flatMap_map]
  rfl

/-! ### The parser on each piece -/

variable {nstr cs str fmt rest : Bytes} {out : FormatItem → Bytes}

theorem pieces_skip (nstr : Bytes) (n : ℕ) (cs : Bytes) :
    pieces nstr n cs = pieces nstr 0 (cs.drop n) := by
  induction n generalizing cs with
  | zero => rfl
  | succ n ih =>
    cases cs with
    | nil => simp [pieces]
    | cons c cs => rw [pieces, ih, List.drop_succ_cons]

theorem pieces_literal {s : Bytes} (h : 37 ∉ s) (nstr rest : Bytes) :
    pieces nstr 0 (s++rest) = pieces (nstr++s) 0 rest := by
  induction s generalizing nstr with
  | nil => rw [List.nil_append, List.append_nil]
  | cons c s ih =>
    obtain ⟨hc,hs⟩ := not_or.mp (mt List.mem_cons.mpr h)
    rw [List.cons_append, pieces, if_pos (Ne.symm hc), ih hs, List.append_assoc,
      List.singleton_append]

/-- Only the first of two signs is consumed. -/
theorem pieces_percent (nstr cs : Bytes) :
    pieces nstr 0 (37 :: 37 :: cs) = pieces (nstr++[37]) 0 (37 :: cs) := by
  rw [pieces, if_neg (not_not.mpr rfl), if_pos (by rw [List.head?_cons])]

theorem pieces_directive (hcs : cs.head? ≠ some 37) (h : scan [] cs = some (str,fmt,rest)) :
    pieces nstr 0 (37 :: cs) = (Piece.ofText nstr++
      .spec str fmt :: (pieces [] 0 (cs.drop (cs.length-rest.length))).1,
      (pieces [] 0 (cs.drop (cs.length-rest.length))).2) := by
  rw [pieces, if_neg (not_not.mpr rfl), if_neg hcs, h]
  dsimp only
  rw [pieces_skip]

theorem pieces_unclosed (hcs : cs.head? ≠ some 37) (h : scan [] cs = none) :
    failed (pieces nstr 0 (37 :: cs)) = true := by
  rw [pieces, if_neg (not_not.mpr rfl), if_neg hcs, h]
  rfl

theorem written_ofText (hout : Writes out) (nstr : Bytes) (vec : List Piece) (error : Bool) :
    written out (Piece.ofText nstr++vec,error) = nstr++written out (vec,error) := by
  unfold written Piece.ofText
  split_ifs with h
  · rw [h]
    rfl
  · rw [List.flatMap_append, List.flatMap_singleton]
    exact congrArg (·++_) (hout nstr)

theorem failed_ofText (nstr : Bytes) (vec : List Piece) (error : Bool) :
    failed (Piece.ofText nstr++vec,error) = failed (vec,error) := by
  unfold failed Piece.ofText
  split_ifs
  · rfl
  · rw [List.any_append]
    rfl

/-- What has been read before is written first, unless there is an error. -/
theorem prefix_written (hout : Writes out) (nstr : Bytes) (n : ℕ) (cs : Bytes)
    (h : failed (pieces nstr n cs) = false) : nstr <+: written out (pieces nstr n cs) := by
  fun_induction pieces nstr n cs with
  | case1 nstr n =>
    have hall := written_ofText hout nstr [] false
    rw [List.append_nil] at hall
    rw [hall]
    exact List.prefix_append ..
  | case2 nstr n c cs ih => exact ih h
  | case3 nstr c cs hc ih => exact (List.prefix_append ..).trans (ih h)
  | case4 nstr c cs hc hnext ih => exact (List.prefix_append ..).trans (ih h)
  | case5 nstr c cs hc hnext str fmt rest hscan vec error hrest ih =>
    rw [written_ofText hout]
    exact List.prefix_append ..
  | case6 nstr c cs hc hnext hscan ih => cases h

theorem isalpha_of_known {k : UInt8} (h : known k) : isalpha k ∧ k ≠ 123 ∧ k ≠ 37 := by
  have hall : ∀ k ∈ bytes "mprctndflTFN", isalpha k ∧ k ≠ 123 ∧ k ≠ 37 := by decide +kernel
  exact hall k h

/-- The items of directives are not text. -/
theorem formatItem_ne_string (str fmt s : Bytes) : formatItem str fmt ≠ some (.string s) := by
  have hite : ∀ (c : Prop) [Decidable c] (x y : Option FormatItem), x ≠ some (.string s) →
      y ≠ some (.string s) → (if c then x else y) ≠ some (.string s) := by
    intro c _ x y hx hy
    split_ifs
    · exact hx
    · exact hy
  unfold formatItem
  repeat' apply hite
  all_goals nofun

/-- Whether there is an item does not depend on the argument. -/
theorem isSome_formatItem (str fmt : Bytes) :
    (formatItem str fmt).isSome = (formatItem str []).isSome := by
  have hite : ∀ (c : Prop) [Decidable c] (x x' y y' : Option FormatItem), x.isSome = x'.isSome →
      y.isSome = y'.isSome → (if c then x else y).isSome = (if c then x' else y').isSome := by
    intro c _ x x' y y' hx hy
    split_ifs
    · exact hx
    · exact hy
  unfold formatItem
  repeat' apply hite
  all_goals rfl

theorem exists_formatItem {k : UInt8} (h : known k) (fmt : Bytes) :
    ∃ it, formatItem [k] fmt = some it := by
  have hall : ∀ k ∈ bytes "mprctndflTFN", (formatItem [k] []).isSome := by decide +kernel
  exact Option.isSome_iff_exists.mp ((isSome_formatItem [k] fmt).trans (hall k h))

theorem scanFmt_eq {fmt : Bytes} (h : 125 ∉ fmt) (acc rest : Bytes) :
    scanFmt acc (fmt++125 :: rest) = some (acc++fmt,rest) := by
  induction fmt generalizing acc with
  | nil => rw [List.nil_append, scanFmt, if_pos rfl, List.append_nil]
  | cons c fmt ih =>
    obtain ⟨hc,hfmt⟩ := not_or.mp (mt List.mem_cons.mpr h)
    rw [List.cons_append, scanFmt, if_neg (Ne.symm hc), ih hfmt, List.append_assoc,
      List.singleton_append]

theorem scan_letter {k : UInt8} (h : known k) (cs : Bytes) : scan [] (k :: cs) = scan [k] cs := by
  obtain ⟨halpha,hbrace,-⟩ := isalpha_of_known h
  rw [scan, if_neg (fun hk => hk.1 halpha), if_neg hbrace, List.nil_append]

theorem scan_ends {str rest : Bytes} (h : ∀ c ∈ rest.head?, Ends c) :
    scan str rest = some (str,[],rest) := by
  cases rest with
  | nil => rfl
  | cons c cs =>
    have hc : Ends c := h c rfl
    exact if_pos hc

theorem pieces_of_scan {k : UInt8} {fmt : Bytes} (hk : known k) {behind rest : Bytes}
    (h : scan [k] (behind++rest) = some ([k],fmt,rest)) (nstr : Bytes) :
    pieces nstr 0 (37 :: k :: (behind++rest)) =
      (Piece.ofText nstr++.spec [k] fmt :: (pieces [] 0 rest).1,(pieces [] 0 rest).2) := by
  have hne : (k :: (behind++rest)).head? ≠ some 37 := fun hhead =>
    (isalpha_of_known hk).2.2 (Option.some.inj hhead)
  have hlength : (k :: (behind++rest)).length-rest.length = (k :: behind).length := by
    simp only [List.length_cons, List.length_append]
    omega
  rw [pieces_directive hne ((scan_letter hk _).trans h), hlength, ← List.cons_append,
    List.drop_left]

theorem failed_spec {k : UInt8} (hk : known k) (fmt nstr : Bytes) (r : List Piece × Bool) :
    failed (Piece.ofText nstr++.spec [k] fmt :: r.1,r.2) = failed r := by
  obtain ⟨it,hit⟩ := exists_formatItem hk fmt
  rw [failed_ofText, failed, failed, List.any_cons, item, hit, Bool.false_or]

theorem written_spec {k : UInt8} (hk : known k) (hout : Writes out) (fmt nstr : Bytes)
    (r : List Piece × Bool) : written out (Piece.ofText nstr++.spec [k] fmt :: r.1,r.2) =
      nstr++(((formatItem [k] fmt).map out).getD []++written out r) := by
  obtain ⟨it,hit⟩ := exists_formatItem hk fmt
  rw [written_ofText hout, written, written, List.flatMap_cons, item, hit]
  rfl

/-! ### Whole patterns -/

variable {p : PatternPiece} {ps : List PatternPiece}

/-- What stands behind a directive does not belong to it. -/
theorem ends_of_mayFollow {k : UInt8} (h : Grammatical (.directive k :: ps)) :
    ∀ c ∈ (patternText ps).head?, Ends c := by
  have hpercent : Ends 37 := by decide
  cases ps with
  | nil => exact nofun
  | cons q ps =>
    have hfollow := (List.isChain_cons_cons.mp h.chain).1
    have hok := h.ok q (by simp)
    rw [patternText, List.flatMap_cons]
    cases q with
    | literal s =>
      rw [text, List.head?_append_of_ne_nil _ hok.1]
      exact hfollow
    | percent | directive | withFmt =>
      rintro c hc
      obtain rfl := Option.some.inj hc
      exact hpercent

/-- A directive becomes one entry. -/
theorem pieces_spec (h : Grammatical (p :: ps)) (nstr : Bytes) {k : UInt8} {fmt : Bytes}
    (hp : p = .directive k ∧ fmt = [] ∨ p = .withFmt k fmt) :
    known k ∧ pieces nstr 0 (patternText (p :: ps)) = (Piece.ofText nstr++
      .spec [k] fmt :: (pieces [] 0 (patternText ps)).1,(pieces [] 0 (patternText ps)).2) ∧
    ∀ out, p.output out = ((formatItem [k] fmt).map out).getD [] := by
  rcases hp with ⟨rfl,rfl⟩ | rfl
  · have hk : known k := h.ok _ List.mem_cons_self
    have hscan : scan [k] ([]++patternText ps) = some ([k],[],patternText ps) :=
      scan_ends (ends_of_mayFollow h)
    exact ⟨hk,pieces_of_scan hk hscan nstr,fun _ => rfl⟩
  · obtain ⟨hk,hfmt⟩ := h.ok _ List.mem_cons_self
    have hscan : scan [k] (123 :: (fmt++[125])++patternText ps) = some ([k],fmt,patternText ps) := by
      rw [List.cons_append, List.append_assoc, List.singleton_append, scan, if_neg (by decide),
        if_pos rfl, scanFmt_eq hfmt]
      rfl
    exact ⟨hk,pieces_of_scan hk hscan nstr,fun _ => rfl⟩

/-- The pieces are read, behind text that has been read before them. -/
def Reads (r : List Piece × Bool) (before : Bytes) (ps : List PatternPiece) : Prop :=
  failed r = false ∧
    ∀ out, Writes out → written out r = before++ps.flatMap (PatternPiece.output out)

/-- Items that write a byte. -/
def writeByte (b : UInt8) : FormatItem → Bytes
  | .string s => s
  | _ => [b]

theorem writes_writeByte (b : UInt8) : Writes (writeByte b) := fun _ => rfl

theorem map_writeByte {k : UInt8} (hk : known k) (fmt : Bytes) (b : UInt8) :
    ((formatItem [k] fmt).map (writeByte b)).getD [] = [b] := by
  obtain ⟨it,hit⟩ := exists_formatItem hk fmt
  rw [hit]
  cases it with
  | string s => exact absurd hit (formatItem_ne_string _ _ s)
  | _ => rfl

theorem exists_ne_byte (c : UInt8) : ∃ b : UInt8, b ≠ c := ⟨c+1,by simp⟩

/-- A sign that should not be there shows. -/
theorem signs_prefix_inj {before rest : Bytes} {n : ℕ} {c : UInt8}
    (h : before++List.replicate (n+1) 37 <+: before++c :: rest) : c = 37 := by
  rw [List.prefix_append_right_inj, List.replicate_succ, List.cons_prefix_cons] at h
  exact h.1.symm

/-- At the end of the pattern there is no name. -/
theorem failed_end (nstr : Bytes) : failed (pieces nstr 0 [37]) = true := by
  have hscan : scan [] [] = some ([],[],[]) := rfl
  rw [pieces_directive (by simp) hscan, failed_ofText]
  rfl

/-- A directive is not a byte of text. -/
theorem not_reads_literal {before s : Bytes} {c : UInt8} (hc : c ≠ 37)
    (h : Reads (pieces before 0 (37 :: c :: (s++patternText ps))) before (.literal (c :: s) :: ps)) :
    False := by
  obtain ⟨hfailed,hwritten⟩ := h
  have hne : (c :: (s++patternText ps)).head? ≠ some 37 := fun hhead => hc (Option.some.inj hhead)
  cases hscan : scan [] (c :: (s++patternText ps)) with
  | none =>
    rw [pieces_unclosed hne hscan] at hfailed
    cases hfailed
  | some r =>
    obtain ⟨str,fmt,rest⟩ := r
    rw [pieces_directive hne hscan] at hfailed hwritten
    obtain ⟨b,hb⟩ := exists_ne_byte c
    have hw := hwritten _ (writes_writeByte b)
    cases hitem : formatItem str fmt with
    | none =>
      rw [failed_ofText, failed, List.any_cons, item, hitem, Bool.true_or, Bool.or_true] at hfailed
      cases hfailed
    | some it =>
      have hbyte : writeByte b it = [b] := by
        cases it with
        | string s => exact absurd hitem (formatItem_ne_string _ _ s)
        | _ => rfl
      rw [written_ofText (writes_writeByte b), List.append_cancel_left_eq, written,
        List.flatMap_cons, item, hitem, List.flatMap_cons, output] at hw
      dsimp only at hw
      rw [hbyte] at hw
      exact hb (List.cons.inj hw).1

/-- The second sign of `%%` begins a directive: whatever follows, the pieces are not read. Some
signs may have been written already that stand for nothing. -/
theorem not_reads_percent (h : Grammatical ps) (before : Bytes) (n : ℕ) :
    ¬Reads (pieces (before++List.replicate n 37) 0 (37 :: patternText ps)) before ps := by
  have hsigns : ∀ (before : Bytes) (n : ℕ), before++List.replicate n 37++[37] =
      before++List.replicate (n+1) 37 := by
    intro before n
    rw [List.append_assoc, List.replicate_succ']
  induction ps generalizing before n with
  | nil =>
    rintro ⟨hfailed,-⟩
    rw [patternText, List.flatMap_nil, failed_end] at hfailed
    cases hfailed
  | cons p ps ih =>
    have hspec : ∀ k fmt, p = .directive k ∧ fmt = [] ∨ p = .withFmt k fmt → ∀ cs,
        patternText (p :: ps) = 37 :: cs →
        ¬Reads (pieces (before++List.replicate n 37) 0 (37 :: patternText (p :: ps)))
          before (p :: ps) := by
      rintro k fmt hp cs hcs ⟨hfailed,hwritten⟩
      obtain ⟨hk,-,hout⟩ := pieces_spec h [] hp
      obtain ⟨b,hb⟩ := exists_ne_byte 37
      rw [hcs, pieces_percent, hsigns] at hfailed hwritten
      have hpre := prefix_written (writes_writeByte b) _ _ _ hfailed
      rw [hwritten _ (writes_writeByte b), List.flatMap_cons, hout, map_writeByte hk] at hpre
      exact hb (signs_prefix_inj hpre)
    cases p with
    | percent =>
      intro hreads
      refine ih h.tail (before++[37]) (n+1) ?_
      have hbefore : before++[37]++List.replicate (n+1) 37 =
          before++List.replicate n 37++[37]++[37] := by
        rw [hsigns, hsigns, List.append_assoc, List.singleton_append, ← List.replicate_succ]
      rw [hbefore, ← pieces_percent, ← pieces_percent]
      refine ⟨hreads.1,fun out hout => (hreads.2 out hout).trans ?_⟩
      rw [List.flatMap_cons, output, List.append_assoc]
    | literal s =>
      obtain ⟨hne,hs⟩ := h.ok _ List.mem_cons_self
      obtain ⟨c,s,rfl⟩ := List.exists_cons_of_ne_nil hne
      obtain ⟨hc,-⟩ := not_or.mp (mt List.mem_cons.mpr hs)
      cases n with
      | zero =>
        rw [List.replicate_zero, List.append_nil]
        exact not_reads_literal (Ne.symm hc)
      | succ n =>
        rintro ⟨hfailed,hwritten⟩
        have hpre := prefix_written (writes_writeByte 0) _ _ _ hfailed
        rw [hwritten _ (writes_writeByte 0), List.flatMap_cons, output, List.cons_append] at hpre
        exact hc (signs_prefix_inj hpre).symm
    | directive k => exact hspec k [] (.inl ⟨rfl,rfl⟩) _ rfl
    | withFmt k fmt => exact hspec k fmt (.inr rfl) _ rfl

theorem reads_iff (h : Grammatical ps) (nstr : Bytes) :
    Reads (pieces nstr 0 (patternText ps)) nstr ps ↔ PatternPiece.percent ∉ ps := by
  induction ps generalizing nstr with
  | nil =>
    have hend : pieces nstr 0 (patternText []) = (Piece.ofText nstr++[],false) := by
      rw [List.append_nil]
      rfl
    rw [hend]
    refine iff_of_true ⟨failed_ofText nstr [] false,fun out hout => ?_⟩ List.not_mem_nil
    rw [written_ofText hout]
    rfl
  | cons p ps ih =>
    have hspec : ∀ k fmt, p = .directive k ∧ fmt = [] ∨ p = .withFmt k fmt →
        (Reads (pieces nstr 0 (patternText (p :: ps))) nstr (p :: ps) ↔
          PatternPiece.percent ∉ ps) := by
      intro k fmt hp
      obtain ⟨hk,hpieces,hout⟩ := pieces_spec h nstr hp
      rw [← ih h.tail [], hpieces, Reads, Reads, failed_spec hk]
      refine and_congr_right fun _ => forall₂_congr fun out hwrites => ?_
      rw [written_spec hk hwrites, List.flatMap_cons, hout, List.append_cancel_left_eq,
        List.append_cancel_left_eq, List.nil_append]
    cases p with
    | literal s =>
      obtain ⟨-,hs⟩ := h.ok _ List.mem_cons_self
      rw [patternText, List.flatMap_cons, text, pieces_literal hs, List.mem_cons,
        or_iff_right nofun, ← ih h.tail (nstr++s), Reads, Reads]
      refine and_congr_right fun _ => forall₂_congr fun out hwrites => ?_
      rw [List.flatMap_cons, output, List.append_assoc]
      rfl
    | percent =>
      refine iff_of_false (fun hreads => ?_) (not_not.mpr List.mem_cons_self)
      refine not_reads_percent h.tail (nstr++[37]) 0 ?_
      rw [List.replicate_zero, List.append_nil, ← pieces_percent]
      refine ⟨hreads.1,fun out hout => (hreads.2 out hout).trans ?_⟩
      rw [List.flatMap_cons, output, List.append_assoc]
    | directive k =>
      rw [hspec k [] (.inl ⟨rfl,rfl⟩), List.mem_cons, or_iff_right nofun]
    | withFmt k fmt =>
      rw [hspec k fmt (.inr rfl), List.mem_cons, or_iff_right nofun]

/-- A pattern of the grammar is read as the grammar says exactly if it does not contain `%%`. -/
theorem parses_iff_percent (h : Grammatical ps) : Parses ps ↔ PatternPiece.percent ∉ ps := by
  rw [parses_iff, ← reads_iff h []]
  rfl

/-- The pattern `[%p]%d{%H:%M}%T%m%n`. -/
theorem parses_date : Parses [.literal (bytes "["),.directive 112,.literal (bytes "]"),
    .withFmt 100 (bytes "%H:%M"),.directive 84,.directive 109,.directive 110] :=
  (parses_iff_percent ⟨by decide +kernel,by decide +kernel⟩).mpr (by decide +kernel)

/-- The pattern `%%m` writes the message. -/
theorem not_parses_percent : Grammatical [.percent,.literal (bytes "m")] ∧
    (new (bytes "%%m")).items = [.string (bytes "%"),.message] ∧
    ¬Parses [.percent,.literal (bytes "m")] := by
  refine ⟨⟨by decide,by decide⟩,by decide,?_⟩
  rintro ⟨-,hformat⟩
  exact absurd (hformat _ (writes_writeByte 0)) (by decide)

end LogFormatter
end CoroutineWebserve.Log
