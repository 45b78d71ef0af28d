import CoroutineWebserve.Uri.Authority

/-!
# The end of a URI

The query and the fragment, and the actions that the states before them make at a `?`, a `#` or the
end of the text.
-/
namespace CoroutineWebserve.Uri
open Ragel
open Http (Bytes bytes)

/-- From offset `p` on `bs` is left; the parser accepts it in state `s`, and the URI is then
`v`. -/
def Ends (text : Bytes) (p : ℕ) (s : Parser) (u : Uri) (bs : Bytes) (v : Uri) : Prop :=
  ∃ t m, Parses text p s u bs t m ∧ t.cs.Final ∧
    (t.runActions (p+bs.length) (eof t.cs)).2.foldlM (set text) m = .ok v

theorem Parses.ends {text bs cs : Bytes} {p : ℕ} {s t : Parser} {u v w : Uri}
    (h : Parses text p s u bs t v) (h' : Ends text (p+bs.length) t v cs w) :
    Ends text p s u (bs++cs) w := by
  obtain ⟨r,m,hparses,hfinal,heof⟩ := h'
  refine ⟨r,m,h.trans hparses,hfinal,?_⟩
  rw [List.length_append, ← Nat.add_assoc]
  exact heof

theorem Parses.ends_cons {text bs : Bytes} {p : ℕ} {s t : Parser} {u v w : Uri} {b : UInt8}
    (h : Parses text p s u [b] t v) (h' : Ends text (p+1) t v bs w) :
    Ends text p s u (b :: bs) w := h.ends h'

theorem create_of_ends {text : Bytes} {v : Uri} (h : Ends text 0 ⟨.start,none⟩ new text v) :
    Create text = .ok (some v) := by
  obtain ⟨t,m,⟨calls,hreads,hset⟩,hfinal,heof⟩ := h
  have hrun : run Parser.byteStep ⟨.start,none⟩ 0 text = (t,text.length,calls) := by
    have hrun := hreads []
    rw [List.append_nil, Nat.zero_add] at hrun
    rw [hrun, run, List.append_nil]
  rw [Nat.zero_add] at heof
  simp only [Create, hrun, if_pos hfinal, List.foldlM_append, hset, bind, Except.bind] at heof ⊢
  rw [heof]
  rfl

/-! ### Behind the authority -/

theorem slash_of_pathAbempty {path : Bytes} (h : path ∈ Grammar.pathAbempty.lang)
    (hne : path ≠ []) : ∃ q, path = 47 :: q := by
  obtain ⟨c,q,rfl⟩ := List.exists_cons_of_ne_nil hne
  have honly : ∀ b, b ≠ 47 → Grammar.pathAbempty.after b = .none :=
    forall_byte (by decide +kernel)
  refine ⟨q,?_⟩
  rw [not_not.mp (mt (honly c) (Pattern.after_ne_none h))]

section parts
variable (text : Bytes) (p : ℕ) (u : Uri)

/-- A part that is marked at its first byte. -/
theorem parses_marked {first : State} {state : Pattern → State} {grammar : Pattern}
    {ends w : Bytes} (hstate : ∀ rest, state rest ≠ .error)
    (hfirst : ∀ b, b ∉ ends → grammar.after b ≠ .none →
      step first b = (state (grammar.after b),[.marku]))
    (hstep : ∀ rest b, b ∉ ends → rest.after b ≠ .none →
      step (state rest) b = (state (rest.after b),[]))
    (hw : w ∈ grammar.lang) (hne : w ≠ []) (hends : ∀ b ∈ w, b ∉ ends) (mark : Option ℕ) :
    ∃ rest, rest.nullable = true ∧
      Parses text p ⟨first,mark⟩ u w ⟨state rest,some p⟩ u := by
  obtain ⟨c,cs,rfl⟩ := List.exists_cons_of_ne_nil hne
  have hc := hfirst c (hends c List.mem_cons_self) (Pattern.after_ne_none hw)
  obtain ⟨last,hlast,hnull⟩ := Pattern.silent_word state hstate hstep
    (Pattern.mem_after.mpr hw) fun b hb => hends b (List.mem_cons_of_mem _ hb)
  have hmark : Parses text p ⟨first,mark⟩ u [c] ⟨state (grammar.after c),some p⟩ u :=
    .of_byte hc (hstate _) rfl rfl
  exact ⟨last,hnull,hmark.cons (.of_silent _ _ _ _ hlast)⟩

theorem within_of_ne {rest : Pattern} (h : rest ≠ .none) (state : Pattern → State)
    (actions : List Action) : within rest state actions = (state rest,actions) := if_neg h

theorem parses_query {query : Bytes} (h : query ∈ Grammar.query.lang) (hne : query ≠ [])
    (mark : Option ℕ) : ∃ rest, rest.nullable = true ∧
      Parses text p ⟨.queryStart,mark⟩ u query ⟨.query rest,some p⟩ u := by
  have hends : ∀ b ∈ query, b ∉ [35] := by
    intro b hb hmem
    obtain rfl := List.mem_singleton.mp hmem
    exact Pattern.notMem_of_avoids (by decide +kernel) h hb
  refine parses_marked text p u (by simp) ?_ ?_ h hne hends mark
  · intro b hb hafter
    rw [List.mem_singleton] at hb
    simp only [step, if_neg hb, within_of_ne hafter]
  · intro rest b hb hafter
    rw [List.mem_singleton] at hb
    simp only [step, hb, decide_false, Bool.and_false, Bool.false_eq_true, if_false,
      within_of_ne hafter]

theorem parses_fragment {fragment : Bytes} (h : fragment ∈ Grammar.fragment.lang)
    (hne : fragment ≠ []) (mark : Option ℕ) : ∃ rest, rest.nullable = true ∧
      Parses text p ⟨.fragmentStart,mark⟩ u fragment ⟨.fragment rest,some p⟩ u := by
  have hends : ∀ b ∈ fragment, b ∉ ([] : Bytes) := fun _ _ => List.not_mem_nil
  refine parses_marked text p u (by simp) ?_ ?_ h hne hends mark
  · intro b _ hafter
    simp only [step, within_of_ne hafter]
  · intro rest b _ hafter
    simp only [step, within_of_ne hafter]

/-- A path behind its first slash. -/
theorem parses_path {q : Bytes} (h : 47 :: q ∈ Grammar.pathAbempty.lang) (mark : Option ℕ) :
    ∃ rest, rest.nullable = true ∧
      Parses text p ⟨.path (Grammar.pathAbempty.after 47),mark⟩ u q ⟨.path rest,mark⟩ u := by
  have hends : ∀ b ∈ q, b ∉ [35,63] := by
    intro b hb hmem
    have havoid : ∀ c ∈ [35,63], Grammar.pathAbempty.avoids c = true := by decide +kernel
    exact Pattern.notMem_of_avoids (havoid b hmem) h (List.mem_cons_of_mem _ hb)
  have hstep : ∀ rest b, b ∉ [35,63] → rest.after b ≠ .none →
      step (.path rest) b = (.path (rest.after b),[]) := by
    intro rest b hb hafter
    simp only [List.mem_cons, List.not_mem_nil, or_false, not_or] at hb
    simp only [step, hb, decide_false, Bool.and_false, Bool.false_eq_true, if_false,
      within_of_ne hafter]
  have hstate : ∀ rest, State.path rest ≠ .error := by simp
  obtain ⟨last,hlast,hnull⟩ :=
    Pattern.silent_word State.path hstate hstep (Pattern.mem_after.mpr h) hends
  exact ⟨last,hnull,.of_silent _ _ _ _ hlast⟩

end parts

/-! ### Query and fragment -/

/-- A part behind its delimiter, if there is one. -/
def optional (delimiter : UInt8) (part : Option Bytes) : Bytes := part.elim [] (delimiter :: ·)

/-- The actions at offset `p`, with that mark, make `v` of the URI `u`. -/
def Sets (text : Bytes) (p : ℕ) (mark : Option ℕ) (u : Uri) (actions : List Action) (v : Uri) :
    Prop :=
  ∃ mark' calls, (∀ cs, Parser.runActions p ⟨cs,mark⟩ actions = (⟨cs,mark'⟩,calls)) ∧
    calls.foldlM (set text) u = .ok v

section sets
variable {text : Bytes} {p : ℕ} {u v : Uri} {s : Parser} {actions : List Action}

theorem Sets.nil (text : Bytes) (p : ℕ) (mark : Option ℕ) (u : Uri) : Sets text p mark u [] u :=
  ⟨mark,[],fun _ => rfl,rfl⟩

theorem Sets.byte {b : UInt8} {cs : State} (h : Sets text p s.mark u actions v)
    (hstep : step s.cs b = (cs,actions)) (hcs : cs ≠ .error) :
    ∃ mark, Parses text p s u [b] ⟨cs,mark⟩ v := by
  obtain ⟨mark,calls,hrun,hset⟩ := h
  exact ⟨mark,.of_byte hstep hcs (hrun cs) hset⟩

theorem Sets.ends (h : Sets text p s.mark u actions v) (hfinal : s.cs.Final)
    (heof : eof s.cs = actions) : Ends text p s u [] v := by
  obtain ⟨mark,calls,hrun,hset⟩ := h
  refine ⟨s,u,.of_silent text p s u rfl,hfinal,?_⟩
  rw [heof, List.length_nil, Nat.add_zero, hrun s.cs]
  exact hset

variable {mark : ℕ} {w post : Bytes}

theorem sets_path (h : text.drop mark = w++post) :
    Sets text (mark+w.length) (some mark) u [.savePath] { u with path := w } :=
  ⟨none,_,fun _ => rfl,set_slice h .path⟩

theorem sets_query (h : text.drop mark = w++post) :
    Sets text (mark+w.length) (some mark) u [.saveQuery] { u with query := w } :=
  ⟨none,_,fun _ => rfl,set_slice h .query⟩

theorem sets_fragment (h : text.drop mark = w++post) :
    Sets text (mark+w.length) (some mark) u [.saveFragment] { u with fragment := w } :=
  ⟨none,_,fun _ => rfl,set_slice h .fragment⟩

variable (text p u) in
/-- An empty part is marked and saved at once. -/
theorem sets_empty (mark : Option ℕ) :
    Sets text p mark u [.marku,.saveQuery] { u with query := [] } ∧
      Sets text p mark u [.marku,.saveFragment] { u with fragment := [] } := by
  have hslice : text.drop p = []++text.drop p := rfl
  exact ⟨⟨none,_,fun _ => rfl,set_slice hslice .query⟩,
    ⟨none,_,fun _ => rfl,set_slice hslice .fragment⟩⟩

/-- The fragment, behind a state whose actions are made at a `#` and at the end. -/
theorem ends_fragment {fragment : Option Bytes} (h : Sets text p s.mark u actions v)
    (hfinal : s.cs.Final) (heof : eof s.cs = actions)
    (hhash : step s.cs 35 = (.fragmentStart,actions))
    (hfragment : ∀ w ∈ fragment, w ∈ Grammar.fragment.lang)
    (htext : text.drop p = optional 35 fragment) :
    Ends text p s u (optional 35 fragment) { v with fragment := fragment.getD v.fragment } := by
  cases fragment with
  | none => exact h.ends hfinal heof
  | some w =>
    obtain ⟨mark,hbyte⟩ := h.byte hhash (by simp)
    have hslice : text.drop (p+1) = w++[] := by
      rw [← List.drop_drop, htext, List.append_nil]
      rfl
    refine hbyte.ends_cons ?_
    by_cases hempty : w = []
    · subst hempty
      exact (sets_empty text (p+1) v mark).2.ends trivial rfl
    · obtain ⟨rest,hrest,hparses⟩ := parses_fragment text (p+1) v (hfragment w rfl) hempty mark
      have hend := (sets_fragment (u := v) hslice).ends (s := ⟨.fragment rest,some (p+1)⟩) hrest rfl
      have hboth := hparses.ends hend
      rwa [List.append_nil] at hboth

/-- The query and the fragment, behind a state whose actions are made at a `?` too. -/
theorem ends_query {query fragment : Option Bytes} (h : Sets text p s.mark u actions v)
    (hfinal : s.cs.Final) (heof : eof s.cs = actions)
    (hmark : step s.cs 63 = (.queryStart,actions))
    (hhash : step s.cs 35 = (.fragmentStart,actions))
    (hquery : ∀ w ∈ query, w ∈ Grammar.query.lang)
    (hfragment : ∀ w ∈ fragment, w ∈ Grammar.fragment.lang)
    (htext : text.drop p = optional 63 query++optional 35 fragment) :
    Ends text p s u (optional 63 query++optional 35 fragment)
      { v with query := query.getD v.query, fragment := fragment.getD v.fragment } := by
  cases query with
  | none => exact ends_fragment h hfinal heof hhash hfragment htext
  | some w =>
    obtain ⟨mark,hbyte⟩ := h.byte hmark (by simp)
    have hslice : text.drop (p+1) = w++optional 35 fragment := by
      rw [← List.drop_drop, htext]
      rfl
    refine hbyte.ends_cons ?_
    by_cases hempty : w = []
    · subst hempty
      exact ends_fragment (s := ⟨.queryStart,mark⟩) (sets_empty text (p+1) v mark).1 trivial rfl rfl
        hfragment hslice
    · obtain ⟨rest,hrest,hparses⟩ := parses_query text (p+1) v (hquery w rfl) hempty mark
      have hstep : step (.query rest) 35 = (.fragmentStart,[.saveQuery]) := by
        simp [step, hrest]
      exact hparses.ends (ends_fragment (s := ⟨.query rest,some (p+1)⟩) (sets_query hslice) hrest rfl
        hstep hfragment (drop_add hslice))

end sets
end CoroutineWebserve.Uri
