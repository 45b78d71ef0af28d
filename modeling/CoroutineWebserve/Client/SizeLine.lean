import CoroutineWebserve.Client.ChunkLine
import Mathlib.Data.List.TakeWhile

/-!
# Lines with a size

Whatever a peer sends, the loop for the line before a chunk throws nothing. A line that it takes
has a size and a line feed, and the size is the one that was sent as long as the reads keep it.
-/
namespace CoroutineWebserve.Client
open Http

/-! ### The offsets of a run -/

namespace HttpclientParser

/-- The offsets of a run over `len` bytes that is at byte `p`. -/
structure Offsets (len p : ℕ) (parser : HttpclientParser) : Prop where
  mark_le : parser.mark ≤ p
  mark_lt : parser.mark < len
  fieldStart : parser.fieldStart < len
  fieldLen : parser.fieldLen ≤ len

variable {bs : Bytes} {len p : ℕ} {parser : HttpclientParser}

theorem Offsets.runAction (h : Offsets len p parser) (hp : p < len) (buffer : Bytes) (a : Action) :
    Offsets len p (parser.runAction buffer p a).1 ∧
      ∀ c ∈ (parser.runAction buffer p a).2, ∃ u, callback buffer c = .ok u := by
  cases a with
  | reasonPhrase =>
    refine ⟨h,fun c hc => ?_⟩
    simp only [HttpclientParser.runAction, List.mem_singleton] at hc
    refine ⟨.setReason (slice buffer parser.mark p),?_⟩
    rw [hc, callback, stdString, if_pos h.mark_le]
    rfl
  | chunkSize =>
    refine ⟨⟨h.mark_le,h.mark_lt,h.fieldStart,h.fieldLen⟩,fun c hc => ⟨.none,?_⟩⟩
    simp only [HttpclientParser.runAction, List.mem_singleton] at hc
    rw [hc]
    split <;> rfl
  | mark | startValue =>
    exact ⟨⟨le_rfl,hp,h.fieldStart,h.fieldLen⟩,by simp [HttpclientParser.runAction]⟩
  | startField =>
    exact ⟨⟨h.mark_le,h.mark_lt,hp,h.fieldLen⟩,by simp [HttpclientParser.runAction]⟩
  | writeField =>
    refine ⟨⟨h.mark_le,h.mark_lt,h.fieldStart,?_⟩,by simp [HttpclientParser.runAction]⟩
    exact (Nat.sub_le p parser.fieldStart).trans hp.le
  | writeContentLen | writeConnectionClose | transChunked =>
    exact ⟨⟨h.mark_le,h.mark_lt,h.fieldStart,h.fieldLen⟩,by simp [HttpclientParser.runAction]⟩
  | writeValue | statusCode | httpVersion =>
    exact ⟨h,by simp [HttpclientParser.runAction, callback]⟩
  | done =>
    exact ⟨⟨h.mark_le,h.mark_lt,h.fieldStart,h.fieldLen⟩,
      by simp [HttpclientParser.runAction, callback]⟩

theorem Offsets.runActions (h : Offsets len p parser) (hp : p < len) (buffer : Bytes)
    (actions : List Action) :
    Offsets len p (HttpclientParser.runActions buffer p parser actions).1 ∧
      ∀ c ∈ (HttpclientParser.runActions buffer p parser actions).2,
        ∃ u, callback buffer c = .ok u := by
  induction actions generalizing parser with
  | nil => exact ⟨h,by simp [HttpclientParser.runActions]⟩
  | cons a actions ih =>
    obtain ⟨hnext,hhere⟩ := h.runAction hp buffer a
    obtain ⟨hlast,hmore⟩ := ih hnext
    exact ⟨hlast,fun c hc => (List.mem_append.mp hc).elim (hhere c) (hmore c)⟩

theorem Offsets.succ (h : Offsets len p parser) : Offsets len (p+1) parser :=
  { h with mark_le := h.mark_le.trans (Nat.le_succ p) }

/-- A run stops inside its bytes, and its callbacks find what they are about. -/
theorem Offsets.exec (h : Offsets len p parser) (hlen : p+bs.length ≤ len) (buffer : Bytes) :
    Offsets len (parser.exec buffer p bs).2.1 (parser.exec buffer p bs).1 ∧
      (parser.exec buffer p bs).2.1 ≤ p+bs.length ∧
      ∀ c ∈ (parser.exec buffer p bs).2.2, ∃ u, callback buffer c = .ok u := by
  induction bs generalizing parser p with
  | nil => exact ⟨h,le_rfl,by simp [HttpclientParser.exec]⟩
  | cons b bs ih =>
    rw [List.length_cons] at hlen ⊢
    simp only [HttpclientParser.exec]
    generalize step parser.cs b = t
    obtain ⟨cs,actions⟩ := t
    have hcs : Offsets len p { parser with cs } := ⟨h.mark_le,h.mark_lt,h.fieldStart,h.fieldLen⟩
    obtain ⟨hnext,hhere⟩ := hcs.runActions (by omega) buffer actions
    obtain ⟨hlast,hstop,hmore⟩ := ih hnext.succ (by omega)
    dsimp only
    split
    · exact ⟨hcs,Nat.le_add_right ..,by simp⟩
    split
    · exact ⟨hnext.succ,Nat.add_le_add_left (Nat.le_add_left ..) p,hhere⟩
    · refine ⟨hlast,?_,fun c hc => (List.mem_append.mp hc).elim (hhere c) (hmore c)⟩
      exact hstop.trans (by omega)

end HttpclientParser

/-! ### Lines without their end -/

namespace State

/-- The states before the first line feed. -/
def Unended : State → Prop
  | header line closing specials =>
    (line = .lineEnd ∨ line = .headEnd) ∧ closing = false ∧ specials = []
  | _ => True

/-- The states behind a size. -/
def BehindSize : State → Prop
  | extensionStart | extensionName | extensionValueStart | extensionValue => True
  | header line closing specials => line = .headEnd ∧ closing = false ∧ specials = []
  | _ => False

theorem Unended.ne_firstFinal {s : State} (h : s.Unended) : s ≠ firstFinal := by
  rintro rfl
  exact absurd h.1 (by decide)

end State

theorem step_headEnd (b : UInt8) : step (.header .headEnd false []) b =
    if b = 10 then (.firstFinal,[.done]) else (.error,[]) := by
  split
  · next h => exact h ▸ (by decide)
  · next h => simp [step, headerStep, openSpecials, moves, Line.step, h]

theorem step_lineEnd {b : UInt8} (hb : b ≠ 10) :
    step (.header .lineEnd false []) b = (.error,[]) := by
  simp [step, headerStep, openSpecials, moves, Line.step, hb]

/-- Only a line feed ends a line. -/
theorem step_unended {s : State} (h : s.Unended) {b : UInt8} (hb : b ≠ 10) :
    (step s b).1.Unended ∧ .done ∉ (step s b).2 := by
  cases s with
  | header line closing specials =>
    obtain ⟨rfl | rfl,rfl,rfl⟩ := h
    · rw [step_lineEnd hb]
      exact ⟨trivial,by simp⟩
    · rw [step_headEnd, if_neg hb]
      exact ⟨trivial,by simp⟩
  | error => exact ⟨trivial,by simp [step]⟩
  | _ =>
    simp only [step]
    split_ifs <;> simp_all [State.Unended]

/-- Behind a size there are extensions and the end of the line. -/
theorem step_behindSize {s : State} (h : s.BehindSize) (b : UInt8) :
    (step s b).1 = .error ∨
      (if b = 10 then (step s b).1 = .firstFinal ∧ .done ∈ (step s b).2
        else (step s b).1.BehindSize ∧ .done ∉ (step s b).2) ∧
      ∀ a ∈ (step s b).2, a ≠ .chunkSize ∧ a ≠ .writeContentLen := by
  cases s with
  | header line closing specials =>
    obtain ⟨rfl,rfl,rfl⟩ := h
    rw [step_headEnd]
    split <;> simp
  | extensionStart | extensionName | extensionValueStart | extensionValue =>
    have hlf : isToken 10 = false := by decide
    simp only [step]
    split_ifs <;> simp_all [State.BehindSize]
  | _ => exact absurd h id

/-- The rest of a line, up to its LF, is one that the machine takes behind a size. -/
def LineTail (s : State) (tail : Bytes) : Prop :=
  (tail++[10]).foldl (fun s b => (step s b).1) s = .firstFinal

namespace HttpclientParser
variable {buffer bs tail : Bytes} {p : ℕ} {parser : HttpclientParser}

/-- Without a line feed a run ends in an error, or behind its bytes. -/
theorem exec_unended (h : parser.cs.Unended) (hbs : 10 ∉ bs) (buffer : Bytes) (p : ℕ) :
    (parser.exec buffer p bs).1.cs.Unended ∧
      ((parser.exec buffer p bs).1.cs = .error ∨ (parser.exec buffer p bs).2.1 = p+bs.length) := by
  induction bs generalizing parser p with
  | nil => exact ⟨h,.inr rfl⟩
  | cons b bs ih =>
    rw [List.mem_cons, not_or] at hbs
    have hstep : step parser.cs b = ((step parser.cs b).1,(step parser.cs b).2) := rfl
    obtain ⟨hnext,hdone⟩ := step_unended h (Ne.symm hbs.1)
    by_cases herror : (step parser.cs b).1 = .error
    · simp only [exec, if_pos herror]
      exact ⟨hnext,.inl herror⟩
    · have hcs : (parser.enter buffer p (step parser.cs b).1 (step parser.cs b).2).1.cs.Unended := by
        rwa [enter_cs]
      obtain ⟨hlast,hstop⟩ := ih hcs hbs.2 (p+1)
      rw [exec_cons hstep herror hdone]
      refine ⟨hlast,hstop.imp id fun h => ?_⟩
      rw [h, List.length_cons]
      omega

theorem enter_contentLen (parser : HttpclientParser) (p : ℕ) (cs : State) {actions : List Action}
    (h : ∀ a ∈ actions, a ≠ .chunkSize ∧ a ≠ .writeContentLen) :
    (parser.enter buffer p cs actions).1.contentLen = parser.contentLen := by
  have hall : ∀ parser : HttpclientParser,
      (runActions buffer p parser actions).1.contentLen = parser.contentLen := by
    induction actions with
    | nil => exact fun _ => rfl
    | cons a actions ih =>
      intro parser
      obtain ⟨hsize,hlen⟩ := h a List.mem_cons_self
      simp only [runActions, ih fun b hb => h b (List.mem_cons_of_mem a hb)]
      cases a with
      | chunkSize => exact absurd rfl hsize
      | writeContentLen => exact absurd rfl hlen
      | _ => rfl
  exact hall { parser with cs }

/-- Behind its size a line is read to its end, and the size stays. -/
theorem exec_behindSize (h : parser.cs.BehindSize) (htail : 10 ∉ tail) (more : Bytes) :
    (parser.exec buffer p (tail++10 :: more)).1.cs = .error ∨
      (parser.exec buffer p (tail++10 :: more)).1.cs = .firstFinal ∧
      (parser.exec buffer p (tail++10 :: more)).1.contentLen = parser.contentLen ∧
      LineTail parser.cs tail := by
  induction tail generalizing parser p with
  | nil =>
    rcases step_behindSize h 10 with herror | ⟨hlf,hkeeps⟩
    · simp only [List.nil_append, exec, if_pos herror]
      exact .inl herror
    · rw [if_pos rfl] at hlf
      have hne : (step parser.cs 10).1 ≠ .error := by
        rw [hlf.1]
        decide
      have hstep : step parser.cs 10 = ((step parser.cs 10).1,(step parser.cs 10).2) := rfl
      rw [List.nil_append, exec_done hstep hne hlf.2]
      exact .inr ⟨(enter_cs ..).trans hlf.1,enter_contentLen parser p _ hkeeps,hlf.1⟩
  | cons b tail ih =>
    rw [List.mem_cons, not_or] at htail
    have hstep : step parser.cs b = ((step parser.cs b).1,(step parser.cs b).2) := rfl
    by_cases herror : (step parser.cs b).1 = .error
    · simp only [List.cons_append, exec, if_pos herror]
      exact .inl herror
    · obtain ⟨hnext,hkeeps⟩ := (step_behindSize h b).resolve_left herror
      rw [if_neg (Ne.symm htail.1)] at hnext
      have hcs : (parser.enter buffer p (step parser.cs b).1 (step parser.cs b).2).1.cs =
        (step parser.cs b).1 := enter_cs ..
      rw [List.cons_append, exec_cons hstep herror hnext.2]
      refine (ih (p := p+1) (by rw [hcs]; exact hnext.1) htail.2).imp id fun hlast => ?_
      rw [hcs, enter_contentLen parser p _ hkeeps] at hlast
      exact hlast

/-- A whole line: either it is none, or its digits are the size. -/
theorem exec_sizeLine {ds : Bytes} (hne : ds ≠ []) (hds : ∀ b ∈ ds, isXdigit b)
    (hhead : ∀ b ∈ tail.head?, isXdigit b = false) (htail : 10 ∉ tail) {more : Bytes}
    (hbuffer : buffer = ds++(tail++10 :: more))
    (hsmall : LineTail .chunkSize tail → numeral 16 ds < 2^31) :
    (init.exec buffer 0 buffer).1.cs = .error ∨
      (init.exec buffer 0 buffer).1.cs = .firstFinal ∧
      (init.exec buffer 0 buffer).1.contentLen = numeral 16 ds ∧ LineTail .chunkSize tail := by
  have hsize : LineTail .chunkSize tail →
      (∀ b ∈ (tail++10 :: more).head?, digit b = 36 ∧ tolower b ≠ 120) →
      intOf (strtol 16 buffer) = numeral 16 ds := by
    intro hline hrest
    rw [hbuffer, strtol_numeral (le_refl 16) hne (fun b hb => (digit_facts b).1.mp (hds b hb)) hrest
      ((hsmall hline).trans (by decide)), intOf_of_lt (hsmall hline)]
  have hdigits : init.exec buffer 0 buffer =
      { init with cs := .chunkSize }.exec buffer ds.length (tail++10 :: more) := by
    conv_lhs => rw [hbuffer]
    rw [exec_digits _ hne hds, hbuffer]
  rw [hdigits]
  cases tail with
  | nil =>
    have hstep : step .chunkSize 10 = (.firstFinal,[.chunkSize,.done]) := by decide
    rw [List.nil_append, exec_done hstep (by decide) (by decide)]
    refine .inr ⟨enter_cs ..,hsize rfl ?_,rfl⟩
    rw [List.nil_append, List.head?_cons]
    rintro b ⟨⟩
    decide
  | cons b tail =>
    rw [List.mem_cons, not_or] at htail
    by_cases hb : b = 13 ∨ b = 59
    · obtain ⟨s,hstep,hbehind⟩ : ∃ s, step .chunkSize b = (s,[.chunkSize]) ∧ s.BehindSize := by
        rcases hb with rfl | rfl
        · exact ⟨.header .headEnd false [],by decide,rfl,rfl,rfl⟩
        · exact ⟨.extensionStart,by decide,trivial⟩
      have hs : s ≠ .error := by
        rintro rfl
        exact hbehind
      rw [List.cons_append, exec_cons hstep hs (by decide)]
      have hcs : (enter buffer { init with cs := .chunkSize } ds.length s [.chunkSize]).1.cs = s :=
        enter_cs ..
      refine (exec_behindSize (hcs ▸ hbehind) htail.2 more).imp id ?_
      rintro ⟨hfinal,hlen,hline⟩
      have hline' : LineTail .chunkSize (b :: tail) := by
        rw [LineTail, List.cons_append, List.foldl_cons, hstep]
        exact hcs ▸ hline
      refine ⟨hfinal,hlen.trans (hsize hline' ?_),hline'⟩
      rw [List.cons_append, List.head?_cons]
      rintro c ⟨⟩
      rcases hb with rfl | rfl <;> decide
    · rw [not_or] at hb
      have hstep : step .chunkSize b = (.error,[]) := by
        simp [step, Ne.symm htail.1, hb, hhead b rfl]
      left
      simp only [List.cons_append, exec, hstep, if_true]

end HttpclientParser

/-! ### The loop for the line -/

/-- What is to come begins with a line: the digits `ds` of a size, and `tail` before the LF. -/
structure SizeLine (stream ds tail more : Bytes) : Prop where
  eq : stream = ds++(tail++10 :: more)
  digits_ne : ds ≠ []
  xdigit : ∀ b ∈ ds, isXdigit b
  head : ∀ b ∈ tail.head?, isXdigit b = false
  tail : 10 ∉ tail

theorem SizeLine.lf_notMem {stream ds tail more : Bytes} (h : SizeLine stream ds tail more) :
    10 ∉ ds++tail := by
  rw [List.mem_append, not_or]
  exact ⟨fun hmem => absurd (h.xdigit 10 hmem) (by decide),h.tail⟩

/-- A read that ends in the digits leaves a line with the other digits. -/
theorem SizeLine.inside {piece stream ds tail more : Bytes}
    (h : SizeLine (piece++stream) ds tail more) (hlen : piece.length < ds.length) :
    10 ∉ piece ∧ ∃ behind, ds = piece++behind ∧ SizeLine stream behind tail more := by
  obtain ⟨behind,rfl⟩ : piece <+: ds := prefix_of_stream h.eq.symm hlen.le
  refine ⟨fun hmem => h.lf_notMem (List.mem_append_left _ (List.mem_append_left _ hmem)),
    behind,rfl,?_,?_,fun b hb => h.xdigit b (List.mem_append_right _ hb),h.head,h.tail⟩
  · have heq := h.eq
    rwa [List.append_assoc, List.append_cancel_left_eq] at heq
  · rintro rfl
    rw [List.append_nil] at hlen
    exact hlen.false

theorem SizeLine.whole {piece stream ds tail more : Bytes}
    (h : SizeLine (piece++stream) ds tail more) (hlen : ds.length+tail.length+1 ≤ piece.length) :
    ∃ behind, SizeLine piece ds tail behind := by
  have hstream : piece++stream = (ds++(tail++[10]))++more := by simp [h.eq]
  obtain ⟨behind,rfl⟩ := prefix_of_stream hstream (by simpa [Nat.add_assoc] using hlen)
  exact ⟨behind,{ h with eq := by simp }⟩

/-- A line has one size. -/
theorem SizeLine.unique {stream ds tail more ds' tail' more' : Bytes}
    (h : SizeLine stream ds tail more) (h' : SizeLine stream ds' tail' more') :
    ds = ds' ∧ tail = tail' := by
  have hdigits : ∀ {ds tail more : Bytes}, SizeLine stream ds tail more →
      stream.takeWhile isXdigit = ds := by
    intro ds tail more h
    rw [h.eq]
    refine takeWhile_append h.xdigit fun b hb => ?_
    cases tail with
    | nil =>
      cases hb
      decide
    | cons c tail => exact h.head b hb
  have htail : ∀ tail more : Bytes, 10 ∉ tail → (tail++10 :: more).takeWhile (· ≠ 10) = tail := by
    intro tail more hlf
    refine takeWhile_append (fun b hb => decide_eq_true fun h => hlf (h ▸ hb)) ?_
    rintro b ⟨⟩
    decide
  have hds := (hdigits h).symm.trans (hdigits h')
  refine ⟨hds,?_⟩
  have hrest := List.append_cancel_left (hds ▸ h.eq.symm.trans h'.eq)
  rw [← htail tail more h.tail, hrest, htail tail' more' h'.tail]

/-- Behind a read that ends `n` bytes into the line the parser finds the same size. -/
def KeepsSize (ds tail : Bytes) (n : ℕ) : Prop :=
  n = 0 ∨ ds.length+tail.length+1 ≤ n ∨ n < ds.length ∧ ∀ b ∈ ds.take n, b = 48

/-- Behind a read that ends `n` bytes into the line the parser finds neither a size nor a
status line. -/
def RejectsLine (ds tail : Bytes) (n : ℕ) : Prop :=
  ∃ b ∈ (ds++(tail++[10]))[n]?, isXdigit b = false ∧ b ≠ 72

/-- The reads leave the line as it is sent, or the first that does not makes the parser reject
it. -/
def LineKept (data : Bytes) (reads : List Bytes) (ds tail : Bytes) : Prop :=
  ∀ n, Cut data reads n → KeepsSize ds tail n ∨ ∃ m ≤ n, Cut data reads m ∧ RejectsLine ds tail m

theorem Cut.head (piece : Bytes) (reads : List Bytes) : Cut [] (piece :: reads) piece.length :=
  ⟨[piece],reads,rfl,by simp⟩

theorem Cut.tail {piece : Bytes} {reads : List Bytes} {n : ℕ} (h : Cut [] reads n) :
    Cut [] (piece :: reads) (piece.length+n) := by
  obtain ⟨pre,post,rfl,rfl⟩ := h
  exact ⟨piece :: pre,post,rfl,by simp⟩

theorem Cut.cases {piece : Bytes} {reads : List Bytes} {n : ℕ} (h : Cut [] (piece :: reads) n) :
    n = 0 ∨ ∃ k, n = piece.length+k ∧ Cut [] reads k := by
  obtain ⟨_ | ⟨p,pre⟩,post,hpre,rfl⟩ := h
  · exact .inl rfl
  · obtain ⟨rfl,rfl⟩ := List.cons.inj hpre
    exact .inr ⟨pre.flatten.length,by simp,pre,post,rfl,by simp⟩

theorem KeepsSize.drop {zs ds tail : Bytes} {n : ℕ}
    (h : KeepsSize (zs++ds) tail (zs.length+n)) : KeepsSize ds tail n := by
  rw [KeepsSize, List.length_append, List.take_length_add_append] at h
  rcases h with h | h | ⟨h,hzeros⟩
  · exact .inl (by omega)
  · exact .inr (.inl (by omega))
  · exact .inr (.inr ⟨by omega,fun b hb => hzeros b (List.mem_append_right _ hb)⟩)

/-- The parser finds a size behind a read that ends in the digits. -/
theorem RejectsLine.length_le {ds tail : Bytes} {n : ℕ} (h : RejectsLine ds tail n)
    (hds : ∀ b ∈ ds, isXdigit b) : ds.length ≤ n := by
  by_contra hlt
  obtain ⟨b,hb,hno,-⟩ := h
  rw [List.getElem?_append_left (Nat.lt_of_not_le hlt)] at hb
  rw [hds b (List.mem_of_getElem? hb)] at hno
  cases hno

theorem RejectsLine.drop {zs ds tail : Bytes} {n : ℕ}
    (h : RejectsLine (zs++ds) tail (zs.length+n)) : RejectsLine ds tail n := by
  obtain ⟨b,hb,hno⟩ := h
  rw [List.append_assoc, List.getElem?_append_right (Nat.le_add_right ..),
    Nat.add_sub_cancel_left] at hb
  exact ⟨b,hb,hno⟩

/-- What comes behind a read after which the line is rejected. -/
theorem RejectsLine.behind {ds tail piece stream more : Bytes}
    (h : RejectsLine ds tail piece.length) (hstream : (ds++tail)++10 :: more = piece++stream) :
    piece <+: ds++tail ∧ ∃ b t, stream = b :: t ∧ isXdigit b = false ∧ b ≠ 72 := by
  obtain ⟨b,hb,hno,hh⟩ := h
  obtain ⟨hlt,-⟩ := List.getElem?_eq_some_iff.mp hb
  rw [List.length_append, List.length_append, List.length_singleton] at hlt
  obtain ⟨behind,hbehind⟩ : piece <+: ds++tail :=
    prefix_of_stream hstream (by rw [List.length_append]; omega)
  rw [← hbehind, List.append_assoc, List.append_cancel_left_eq] at hstream
  rw [← List.append_assoc, ← hbehind, List.append_assoc, List.getElem?_append_right le_rfl,
    Nat.sub_self] at hb
  refine ⟨⟨behind,hbehind⟩,b,?_⟩
  cases behind with
  | nil =>
    cases hb
    exact ⟨more,hstream.symm,hno,hh⟩
  | cons c behind =>
    cases hb
    exact ⟨behind++10 :: more,hstream.symm,hno,hh⟩

/-- Behind a read of leading zeros. -/
theorem LineKept.tail {piece : Bytes} {reads : List Bytes} {ds tail : Bytes}
    (h : LineKept [] (piece :: reads) (piece++ds) tail) (hpiece : piece ≠ [])
    (hds : ∀ b ∈ piece++ds, isXdigit b) : LineKept [] reads ds tail := by
  intro n hn
  refine (h _ hn.tail).imp KeepsSize.drop ?_
  rintro ⟨m,hm,hcut,hrejects⟩
  rcases hcut.cases with rfl | ⟨k,rfl,hk⟩
  · have hlen := hrejects.length_le hds
    rw [List.length_append] at hlen
    exact absurd (List.length_pos_iff.mpr hpiece) (by omega)
  · exact ⟨k,Nat.le_of_add_le_add_left hm,hk,hrejects.drop⟩

namespace HttpConnection
variable {buffSize : ℕ} {r x : HttpResponseParser} {data left : Bytes} {reads rest : List Bytes}

/-- A parser that is given bytes takes some of them, and no callback fails. -/
theorem execute_ok (r : HttpResponseParser) (hdata : data ≠ []) :
    ∃ q, r.execute data true = .ok (q,(HttpclientParser.init.exec data 0 data).2.1,
        data.drop (HttpclientParser.init.exec data 0 data).2.1) ∧
      q.parser = (HttpclientParser.init.exec data 0 data).1 ∧
      (HttpclientParser.init.exec data 0 data).2.1 ≤ data.length := by
  have hpos := List.length_pos_iff.mpr hdata
  have hstart : HttpclientParser.Offsets data.length 0 .init := ⟨le_rfl,hpos,hpos,Nat.zero_le _⟩
  obtain ⟨hoffsets,hstop,hcalls⟩ := hstart.exec (Nat.zero_add _).le data
  rw [Nat.zero_add] at hstop
  obtain ⟨us,hus⟩ := exists_forall₂ hcalls
  have hmap := mapM_eq_ok.mpr hus
  have hexec : HttpclientParser.init.execute data = ((HttpclientParser.init.exec data 0 data).1,
      some (HttpclientParser.init.exec data 0 data).2.1,
      (HttpclientParser.init.exec data 0 data).2.2) :=
    HttpclientParser.execute_eq rfl ⟨hoffsets.mark_lt,hoffsets.fieldLen,hoffsets.fieldStart⟩
  refine ⟨{ us.foldl HttpResponseParser.update r with
    parser := (HttpclientParser.init.exec data 0 data).1 },?_,rfl,hstop⟩
  rw [HttpResponseParser.execute, if_pos rfl, hexec]
  dsimp only
  rw [hmap]
  rfl

/-- A round of the loop for the line ends it, or goes on with what the parser has left. -/
theorem parseChunkLine_cases (buffSize : ℕ) (r : HttpResponseParser) (hdata : data ≠ []) :
    parseChunkLine buffSize r data = .ok none ∨
      ∃ q, parseChunkLine buffSize r data =
          .ok (some (q,data.drop (HttpclientParser.init.exec data 0 data).2.1)) ∧
        q.parser = (HttpclientParser.init.exec data 0 data).1 ∧ q.parser.cs ≠ .error := by
  obtain ⟨q,hq,hparser,-⟩ := execute_ok r hdata
  simp only [parseChunkLine, hq, ok_bind]
  by_cases herror : q.HasError
  · rw [if_pos herror]
    exact .inl rfl
  rw [if_neg herror]
  split
  · exact .inl rfl
  · exact .inr ⟨q,rfl,hparser,fun hcs => herror (.inr hcs)⟩

/-- Bytes without a line feed leave the loop behind them. -/
theorem parseChunkLine_unended (hdata : data ≠ []) (hlf : 10 ∉ data)
    (h : parseChunkLine buffSize r data = .ok (some (x,left))) : left = [] ∧ ¬x.IsFinished := by
  rcases parseChunkLine_cases buffSize r hdata with hnone | ⟨q,hq,hparser,hcs⟩
  · rw [hnone] at h
    cases h
  · obtain ⟨hunended,hstop⟩ := HttpclientParser.exec_unended
      (show HttpclientParser.init.cs.Unended from trivial) hlf data 0
    rw [hq] at h
    cases h
    rw [hparser] at hcs
    refine ⟨?_,fun hfinished => hunended.ne_firstFinal (hparser ▸ hfinished)⟩
    rw [hstop.resolve_left hcs, Nat.zero_add, List.drop_length]

/-- A whole line is read with its size. -/
theorem parseChunkLine_sizeLine {ds tail more : Bytes} (hline : SizeLine data ds tail more)
    (hsmall : LineTail .chunkSize tail → numeral 16 ds < 2^31)
    (h : parseChunkLine buffSize r data = .ok (some (x,left))) :
    x.IsFinished ∧ x.parser.contentLen = numeral 16 ds ∧ LineTail .chunkSize tail := by
  have hdata : data ≠ [] := by
    rw [hline.eq]
    exact List.append_ne_nil_of_left_ne_nil hline.digits_ne _
  rcases parseChunkLine_cases buffSize r hdata with hnone | ⟨q,hq,hparser,hcs⟩
  · rw [hnone] at h
    cases h
  · rw [hq] at h
    cases h
    rw [hparser] at hcs
    obtain ⟨hfinal,hlen,htail⟩ := (HttpclientParser.exec_sizeLine hline.digits_ne hline.xdigit
      hline.head hline.tail hline.eq hsmall).resolve_left hcs
    rw [HttpResponseParser.IsFinished, hparser]
    exact ⟨hfinal,hlen,htail⟩

/-- What a read does to the loop. -/
theorem readChunkLine_cases (buffSize : ℕ) (r : HttpResponseParser) (data piece : Bytes)
    (reads : List Bytes) :
    readChunkLine buffSize r data (piece :: reads) = .error .overrun ∨
      readChunkLine buffSize r data (piece :: reads) = .ok (none,reads) ∨
      piece ≠ [] ∧ piece.length ≤ buffSize-data.length ∧
      ∃ y d, parseChunkLine buffSize r (data++piece) = .ok (some (y,d)) ∧
        readChunkLine buffSize r data (piece :: reads) =
          if y.IsFinished then .ok (some (y,d),reads) else readChunkLine buffSize y d reads := by
  simp only [readChunkLine, Http.read]
  by_cases hfits : piece.length ≤ buffSize-data.length ∧ piece.length < 2^31
  · rw [if_pos hfits, ok_bind]
    by_cases hne : piece = []
    · rw [if_pos hne]
      exact .inr (.inl rfl)
    rw [if_neg hne]
    have hall : data++piece ≠ [] := List.append_ne_nil_of_right_ne_nil data hne
    rcases parseChunkLine_cases buffSize r hall with hnone | ⟨y,hy,-⟩
    · rw [hnone]
      exact .inr (.inl rfl)
    · rw [hy]
      refine .inr (.inr ⟨hne,hfits.1,y,_,rfl,?_⟩)
      rw [ok_bind]
      dsimp only
      split <;> rfl
  · rw [if_neg hfits]
    exact .inl rfl

theorem readChunkLine_cons_some {piece : Bytes}
    (h : readChunkLine buffSize r data (piece :: reads) = .ok (some (x,left),rest)) :
    piece ≠ [] ∧ piece.length ≤ buffSize-data.length ∧
      ∃ y d, parseChunkLine buffSize r (data++piece) = .ok (some (y,d)) ∧
        if y.IsFinished then x = y ∧ left = d ∧ rest = reads
        else readChunkLine buffSize y d reads = .ok (some (x,left),rest) := by
  rcases readChunkLine_cases buffSize r data piece reads with h' | h' | ⟨hne,hfits,y,d,hy,h'⟩
  · rw [h'] at h
    cases h
  · rw [h'] at h
    cases h
  · rw [h'] at h
    refine ⟨hne,hfits,y,d,hy,?_⟩
    split_ifs at h ⊢
    · cases h
      exact ⟨rfl,rfl,rfl⟩
    · exact h

/-- A read without a line feed is forgotten. -/
theorem readChunkLine_unended {piece : Bytes} (hlf : 10 ∉ piece)
    (h : readChunkLine buffSize r [] (piece :: reads) = .ok (some (x,left),rest)) :
    ∃ y, readChunkLine buffSize y [] reads = .ok (some (x,left),rest) := by
  obtain ⟨hne,-,y,d,hparse,hnext⟩ := readChunkLine_cons_some h
  rw [List.nil_append] at hparse
  obtain ⟨rfl,hunfinished⟩ := parseChunkLine_unended hne hlf hparse
  rw [if_neg hunfinished] at hnext
  exact ⟨y,hnext⟩

/-- A line that is read ends with a line feed. -/
theorem lf_of_readChunkLine
    (h : readChunkLine buffSize r [] reads = .ok (some (x,left),rest)) : 10 ∈ reads.flatten := by
  induction reads generalizing r with
  | nil => cases h
  | cons piece reads ih =>
    rw [List.flatten_cons, List.mem_append]
    by_cases hlf : 10 ∈ piece
    · exact .inl hlf
    · obtain ⟨y,hnext⟩ := readChunkLine_unended hlf h
      exact .inr (ih hnext)

theorem step_start_error {b : UInt8} (hb : isXdigit b = false) (hh : b ≠ 72) :
    step .start b = (.error,[]) := by
  simp [step, hb, hh]

/-- Bytes that no line begins with end the loop. -/
theorem readChunkLine_dead {b : UInt8} {more : Bytes} (hb : isXdigit b = false) (hh : b ≠ 72)
    (hstream : reads.flatten = b :: more) :
    readChunkLine buffSize r [] reads ≠ .ok (some (x,left),rest) := by
  intro h
  cases reads with
  | nil => cases hstream
  | cons piece reads =>
    obtain ⟨hne,-,y,d,hparse,-⟩ := readChunkLine_cons_some h
    rw [List.nil_append] at hparse
    obtain ⟨c,tail,rfl⟩ := List.exists_cons_of_ne_nil hne
    obtain rfl : c = b := (List.cons.inj hstream).1
    rcases parseChunkLine_cases buffSize r hne with hnone | ⟨q,-,hparser,hcs⟩
    · rw [hnone] at hparse
      cases hparse
    · refine hcs ?_
      rw [hparser]
      simp only [HttpclientParser.exec, HttpclientParser.init, step_start_error hb hh, if_true]

section line
variable {ds tail more piece : Bytes}

/-- The read holds the whole line. -/
theorem readChunkLine_whole (hline : SizeLine piece ds tail more)
    (hsmall : LineTail .chunkSize tail → numeral 16 ds < 2^31)
    (h : readChunkLine buffSize r [] (piece :: reads) = .ok (some (x,left),rest)) :
    x.parser.contentLen = numeral 16 ds ∧ LineTail .chunkSize tail := by
  obtain ⟨-,-,y,d,hparse,hnext⟩ := readChunkLine_cons_some h
  rw [List.nil_append] at hparse
  obtain ⟨hfinished,hsize⟩ := parseChunkLine_sizeLine hline hsmall hparse
  rw [if_pos hfinished] at hnext
  exact hnext.1 ▸ hsize

/-- What is behind the read begins no line. -/
theorem readChunkLine_rejects (hline : SizeLine (piece++reads.flatten) ds tail more)
    (hrejects : RejectsLine ds tail piece.length) :
    readChunkLine buffSize r [] (piece :: reads) ≠ .ok (some (x,left),rest) := by
  intro h
  have hstream : (ds++tail)++10 :: more = piece++reads.flatten := by simp [hline.eq]
  obtain ⟨hbefore,b,t,hfirst,hno,hh⟩ := hrejects.behind hstream
  obtain ⟨y,hnext⟩ := readChunkLine_unended
    (fun hmem => hline.lf_notMem (hbefore.subset hmem)) h
  exact readChunkLine_dead hno hh hfirst hnext

/-- The line that is read is the one that is sent, if the reads keep it. -/
theorem readChunkLine_sizeLine (hline : SizeLine reads.flatten ds tail more)
    (hkept : LineKept [] reads ds tail)
    (hsmall : LineTail .chunkSize tail → numeral 16 ds < 2^31)
    (h : readChunkLine buffSize r [] reads = .ok (some (x,left),rest)) :
    x.parser.contentLen = numeral 16 ds ∧ LineTail .chunkSize tail := by
  induction reads generalizing ds r with
  | nil => cases h
  | cons piece reads ih =>
    rw [List.flatten_cons] at hline
    have hne := (readChunkLine_cons_some h).1
    have hpos := List.length_pos_iff.mpr hne
    rcases hkept _ (Cut.head piece reads) with
      (hzero | hwhole | ⟨hinside,hzeros⟩) | ⟨m,hm,hcut,hrejects⟩
    · omega
    · obtain ⟨behind,hpiece⟩ := hline.whole hwhole
      exact readChunkLine_whole hpiece hsmall h
    · -- the read holds leading zeros only
      obtain ⟨hlf,behind,rfl,hrest⟩ := hline.inside hinside
      obtain ⟨y,hnext⟩ := readChunkLine_unended hlf h
      rw [List.take_left] at hzeros
      rw [numeral_zeros hzeros behind] at hsmall ⊢
      exact ih hrest (hkept.tail hne hline.xdigit) hsmall hnext
    · have hlen := hrejects.length_le hline.xdigit
      have hds := List.length_pos_iff.mpr hline.digits_ne
      obtain ⟨k,rfl,-⟩ := hcut.cases.resolve_left (by omega)
      obtain rfl : k = 0 := by omega
      exact absurd h (readChunkLine_rejects hline hrejects)

end line

theorem le_of_parseChunkLine (hne : data ≠ [])
    (h : parseChunkLine buffSize r data = .ok (some (x,left))) : left.length ≤ data.length := by
  rcases parseChunkLine_cases buffSize r hne with hnone | ⟨q,hq,-⟩
  · rw [hnone] at h
    cases h
  · rw [hq] at h
    cases h
    rw [List.length_drop]
    exact Nat.sub_le ..

theorem readChunkLine_fits (h : readChunkLine buffSize r data reads = .ok (some (x,left),rest))
    (hdata : data.length ≤ buffSize) : left.length ≤ buffSize := by
  induction reads generalizing r data with
  | nil => cases h
  | cons piece reads ih =>
    obtain ⟨hne,hfits,y,d,hparse,hnext⟩ := readChunkLine_cons_some h
    have hle := le_of_parseChunkLine (List.append_ne_nil_of_right_ne_nil data hne) hparse
    rw [List.length_append] at hle
    split_ifs at hnext
    · obtain ⟨-,rfl,-⟩ := hnext
      omega
    · exact ih hnext (by omega)

theorem readChunkLine_ne_lengthError (r : HttpResponseParser) (data : Bytes) (reads : List Bytes) :
    readChunkLine buffSize r data reads ≠ .error .lengthError := by
  induction reads generalizing r data with
  | nil => exact fun h => by cases h
  | cons piece reads ih =>
    rcases readChunkLine_cases buffSize r data piece reads with h | h | ⟨-,-,y,d,-,h⟩
    · rw [h]
      exact fun hno => by cases hno
    · rw [h]
      exact fun hno => by cases hno
    · rw [h]
      split
      · exact fun hno => by cases hno
      · exact ih y d

/-- What a line is read from. -/
def pieces (data : Bytes) (reads : List Bytes) : List Bytes :=
  if data = [] then reads else data :: reads

theorem flatten_pieces (data : Bytes) (reads : List Bytes) :
    (pieces data reads).flatten = data++reads.flatten := by
  rw [pieces]
  split
  · next h => rw [h, List.nil_append]
  · rfl

theorem cut_pieces {n : ℕ} : Cut [] (pieces data reads) n ↔ n = 0 ∨ Cut data reads n := by
  rw [pieces]
  split
  · next h =>
    subst h
    refine ⟨.inr,fun h => h.elim ?_ id⟩
    rintro rfl
    exact ⟨[],reads,rfl,rfl⟩
  · refine ⟨fun h => h.cases.imp_right ?_,?_⟩
    · rintro ⟨k,rfl,pre,post,rfl,rfl⟩
      exact ⟨pre,post,rfl,by simp⟩
    · rintro (rfl | ⟨pre,post,rfl,rfl⟩)
      · exact ⟨[],_,rfl,rfl⟩
      · exact ⟨data :: pre,post,rfl,by simp⟩

theorem recvChunkLine_pieces (hbuf : buffSize < 2^31) (hdata : data.length ≤ buffSize)
    (r : HttpResponseParser) (reads : List Bytes) :
    recvChunkLine buffSize r data reads = readChunkLine buffSize r [] (pieces data reads) := by
  by_cases hempty : data = []
  · subst hempty
    rw [recvChunkLine, pieces, if_pos rfl, if_pos rfl]
  · rw [pieces, if_neg hempty, recvChunkLine_of_ne hempty ⟨hdata,hdata.trans_lt hbuf⟩]

theorem exists_sizeLine {stream : Bytes} {b : UInt8} {t : Bytes} (hstream : stream = b :: t)
    (hb : isXdigit b) (hlf : 10 ∈ stream) : ∃ ds tail more, SizeLine stream ds tail more := by
  have hsplit := List.takeWhile_append_dropWhile (p := isXdigit) (l := stream)
  have hds : ∀ c ∈ stream.takeWhile isXdigit, isXdigit c := fun c hc => List.mem_takeWhile_imp hc
  have hne : stream.takeWhile isXdigit ≠ [] := by simp [hstream, hb]
  have hrest : 10 ∈ stream.dropWhile isXdigit := by
    rw [← hsplit, List.mem_append] at hlf
    exact hlf.resolve_left fun hmem => absurd (hds 10 hmem) (by decide)
  have hhead := List.head?_dropWhile_not isXdigit stream
  obtain ⟨tail,more,hmore,htail⟩ := List.eq_append_cons_of_mem hrest
  refine ⟨_,tail,more,by rw [← hmore, hsplit],hne,hds,fun c hc => ?_,htail⟩
  rw [hmore] at hhead
  cases tail with
  | nil => cases hc
  | cons d tail =>
    cases hc
    simpa using hhead

end HttpConnection
end CoroutineWebserve.Client
