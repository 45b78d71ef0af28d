import CoroutineWebserve.Http.Independence

/-!
# One call of `recvRequest`

If the first read holds the head, what is behind the head stays in the buffer, and the body
is taken from there and from the following reads.
-/
namespace CoroutineWebserve.Http

namespace HttpParser

/-- A run that ends in a final state does not look at the bytes behind it. -/
theorem exec_final_append {parser : HttpParser} {p : ℕ} {bs : Bytes} (hnf : ¬parser.cs.Final)
    (hend : (parser.exec p bs).2.1 = p+bs.length) (hfin : (parser.exec p bs).1.cs.Final)
    (t : Bytes) : parser.exec p (bs++t) = parser.exec p bs := by
  induction bs generalizing parser p with
  | nil => exact absurd hfin hnf
  | cons b bs ih =>
    have ht := step_transition parser.uriRelaxed parser.cs b
    simp only [List.cons_append, exec] at hend hfin ⊢
    generalize step parser.uriRelaxed parser.cs b = x at ht hend hfin
    obtain ⟨next,actions⟩ := x
    dsimp only at ht hend hfin ⊢
    split_ifs at hend hfin ⊢ with hn hd
    · rfl
    · rfl
    · have hnext : ¬(parser.enter p next actions).1.cs.Final := by
        rwa [enter_cs, ← ht.final]
      rw [ih hnext (by rw [hend, List.length_cons]; omega) hfin]

/-- The end of a head takes a byte. -/
theorem lt_of_exec_final {parser : HttpParser} {p : ℕ} {bs : Bytes} (hnf : ¬parser.cs.Final)
    (hfin : (parser.exec p bs).1.cs.Final) : p < (parser.exec p bs).2.1 := by
  induction bs generalizing parser p with
  | nil => exact absurd hfin hnf
  | cons b bs ih =>
    have ht := step_transition parser.uriRelaxed parser.cs b
    simp only [exec] at hfin ⊢
    generalize step parser.uriRelaxed parser.cs b = x at ht hfin
    obtain ⟨next,actions⟩ := x
    dsimp only at ht hfin ⊢
    split_ifs at hfin ⊢ with hn hd
    · subst hn
      exact absurd hfin id
    · exact Nat.lt_succ_self p
    · have hnext : ¬(parser.enter p next actions).1.cs.Final := by
        rwa [enter_cs, ← ht.final]
      exact (Nat.lt_succ_self p).trans (ih hnext hfin)

end HttpParser

theorem Callback.kept_zero (c : Callback) : c.kept (fun _ => 0) = c := by
  cases c with
  | element e first stop => cases e <;> simp [Callback.kept]
  | httpField => simp [Callback.kept]
  | headerDone => rfl

theorem Callback.shift_zero (c : Callback) : c.shift 0 = c := by
  cases c <;> simp [Callback.shift]

/-- What follows a head does not matter to the parser. -/
theorem Accepted.execute_append {u : Uninit} {s : Bytes} {d : HttpRequest} (h : Accepted u s d)
    (t : Bytes) :
    ∃ q, (HttpRequestParser.new u).execute (s++t) = .ok (q,s.length,t) ∧ ¬q.HasError ∧
      q.IsFinished ∧ q.data = d := by
  obtain ⟨us,h₁⟩ := h.oneCall
  have hrun : (HttpRequestParser.new u).parser.execute (s++t) = (HttpParser.init u).exec 0 s := by
    have hs : s ≠ [] := by
      rintro rfl
      exact h₁.final
    rw [HttpParser.execute, if_neg (by simp [hs])]
    exact HttpParser.exec_final_append (show ¬State.start.Final by decide)
      (by rw [Nat.zero_add]; exact h₁.consumed) h₁.final t
  have hin : InStep (fun _ => 0) 0 0 (.of (HttpParser.init u).cs) (.init u) (.init u) :=
    InStep.refl (fun _ => 0) 0 le_rfl le_rfl
  have hfit : ∀ c ∈ calls u s, (c.kept fun _ => 0).Fits (s++t) 0 s.length :=
    (hin.exec s (fun _ _ _ => rfl) le_rfl (Nat.zero_add _).le
      (fun i hi => by rw [Nat.zero_add, List.getElem?_append_left hi])).2.2.2
  have hcall : ∀ c ∈ calls u s, callback (s++t) c = callback s c := by
    intro c hc
    have hc := hfit c hc
    rw [Callback.kept_zero] at hc
    have hshift := callback_shift (show s++t = []++s++t from rfl) (by simpa using hc)
    rw [← hshift, List.length_nil, Callback.shift_zero]
  have hus : List.Forall₂ (fun c v => callback (s++t) c = .ok v)
      ((HttpRequestParser.new u).parser.execute (s++t)).2.2 us := by
    rw [hrun]
    refine (forall₂_congr_of_mem fun c hc v => ?_).mpr (h₁.sets.imp fun _ _ hv => hv.1)
    rw [hcall c hc]
    rfl
  refine ⟨{ us.foldl HttpRequestParser.update (.new u) with
      parser := ((HttpParser.init u).exec 0 s).1 },
    HttpRequestParser.execute_eq_ok.mpr ⟨us,hus,?_⟩,?_,h₁.final,h₁.data⟩
  · rw [hrun, h₁.consumed, List.drop_left]
  · have hne : ((HttpParser.init u).exec 0 s).1.cs ≠ .error := by
      intro h0
      have := h₁.final
      rw [h0] at this
      exact this
    have herr := error_of_sets h₁.sets (.new u)
    exact not_or.mpr ⟨not_not.mpr herr,hne⟩

/-- A head says nothing about the body itself. -/
theorem Accepted.body {u : Uninit} {s : Bytes} {d : HttpRequest} (h : Accepted u s d) :
    d.body = [] := by
  obtain ⟨us,h₁⟩ := h.oneCall
  rw [← h₁.data, (frame_foldl us (.new u)).2]
  rfl

theorem Accepted.ne_nil {u : Uninit} {s : Bytes} {d : HttpRequest} (h : Accepted u s d) :
    s ≠ [] := by
  rintro rfl
  obtain ⟨us,h₁⟩ := h.oneCall
  exact h₁.final

@[simp] theorem init_body (d : HttpRequest) : d.init.body = d.body := by
  unfold HttpRequest.init
  dsimp only
  split <;> rfl

/-! ### The reads of the body -/

/-- The reads of a body: as many as give it. -/
theorem exists_of_readLeft {left : ℕ} {reads rest : List Bytes} {got : Bytes}
    (h : readLeft left reads = .ok (some got,rest)) :
    ∃ taken, reads = taken++rest ∧ taken.flatten = got ∧ got.length = left := by
  induction reads generalizing left got with
  | nil =>
    cases left with
    | zero => cases h; exact ⟨[],rfl,rfl,rfl⟩
    | succ left => cases h
  | cons piece reads ih =>
    cases left with
    | zero => cases h; exact ⟨[],rfl,rfl,rfl⟩
    | succ left =>
      obtain ⟨⟨first,_⟩,hread,h⟩ := exists_of_bind h
      rw [read] at hread
      split_ifs at hread with hfits
      cases hread
      dsimp only at h
      split_ifs at h with hne
      · cases h
      obtain ⟨⟨more,rest'⟩,hmore,h⟩ := exists_of_bind h
      cases more with
      | none => cases h
      | some more =>
        cases h
        obtain ⟨taken,rfl,rfl,hlen⟩ := ih hmore
        exact ⟨piece :: taken,rfl,rfl,by rw [List.length_append, hlen]; omega⟩

theorem readLeft_append {left : ℕ} {taken : List Bytes}
    (htaken : ∀ piece ∈ taken, piece ≠ [] ∧ piece.length < 2^31)
    (hleft : taken.flatten.length = left) (rest : List Bytes) :
    readLeft left (taken++rest) = .ok (some taken.flatten,rest) := by
  induction taken generalizing left with
  | nil =>
    subst hleft
    cases rest <;> rfl
  | cons piece taken ih =>
    obtain ⟨hne,hlt⟩ := htaken piece List.mem_cons_self
    have hpos := List.length_pos_iff.mpr hne
    rw [List.flatten_cons, List.length_append] at hleft
    obtain ⟨k,rfl⟩ : ∃ k, left = k+1 := ⟨left-1,by omega⟩
    have hrest := ih (fun p hp => htaken p (List.mem_cons_of_mem _ hp))
      (show taken.flatten.length = k+1-piece.length by omega)
    have hfits : piece.length ≤ k+1 ∧ piece.length < 2^31 := ⟨by omega,hlt⟩
    simp only [List.cons_append, readLeft, read, if_pos hfits, bind, Except.bind, if_neg hne,
      hrest, pure, Except.pure, Option.map_some, List.flatten_cons]

theorem int64_of_lt {n : ℕ} (h : n < 2^63) : int64 n = n := by
  unfold int64
  rw [Int.bmod_eq_of_le] <;> omega

theorem int64_of_pos {n : ℕ} (h : n < 2^64) (hpos : 0 < int64 n) : n < 2^63 ∧ int64 n = n := by
  have hlt : n < 2^63 := by
    by_contra hge
    have : int64 n = n-2^64 := by
      unfold int64
      rw [Int.bmod_eq_iff (by decide)]
      omega
    omega
  exact ⟨hlt,int64_of_lt hlt⟩

namespace HttpSession

/-- What a body takes from the reads, beside what is there of it. -/
theorem exists_of_recvBody {length : ℤ} {data body : Bytes} {reads rest : List Bytes}
    (h : recvBody length data reads = .ok (some body,rest)) :
    length ≤ data.length ∧ reads = rest ∧ body = data.take length.toNat ∨
      (data.length : ℤ) < length ∧ 0 < int (length-data.length).toNat ∧
        ∃ taken, reads = taken++rest ∧ body = data++taken.flatten ∧
          (body.length : ℤ) = length := by
  unfold recvBody at h
  split_ifs at h with hle
  · cases h
    exact .inl ⟨hle,rfl,rfl⟩
  · right
    obtain ⟨⟨more,reads'⟩,hmore,h⟩ := exists_of_bind h
    obtain ⟨⟨got,reads''⟩,hgot,hmap⟩ := exists_of_bind hmore
    cases hmap
    cases got with
    | none => cases h
    | some more =>
      obtain ⟨h₁,rfl⟩ := Prod.mk.inj (Except.ok.inj h)
      split_ifs at h₁ with hrt
      cases h₁
      obtain ⟨taken,rfl,rfl,hlen⟩ := exists_of_readLeft hgot
      refine ⟨by omega,by omega,taken,rfl,rfl,?_⟩
      rw [List.length_append, hlen]
      omega

theorem recvBody_append {length : ℕ} {data : Bytes} {taken : List Bytes}
    (htaken : ∀ piece ∈ taken, piece ≠ [] ∧ piece.length < 2^31)
    (hlength : data.length+taken.flatten.length = length)
    (hint : data.length < length → 0 < int (length-data.length)) (rest : List Bytes) :
    recvBody length data (taken++rest) = .ok (some (data++taken.flatten),rest) := by
  unfold recvBody
  split_ifs with hle
  · have hnil : taken = [] := by
      cases taken with
      | nil => rfl
      | cons piece taken =>
        have := List.length_pos_iff.mpr (htaken piece List.mem_cons_self).1
        rw [List.flatten_cons, List.length_append] at hlength
        omega
    subst hnil
    have htake : data.take length = data := List.take_of_length_le (by omega)
    simp [htake]
  · have hleft : ((length : ℤ)-data.length).toNat = length-data.length := by omega
    have hpos := hint (by omega)
    have hgot := readLeft_append htaken (show _ = length-data.length by omega) rest
    simp only [readFixSize, hleft, hgot, bind, Except.bind, pure, Except.pure, Option.map_some]
    rw [if_neg (by omega)]

/-- A read that begins with a head gives the head, and what is behind it stays in the buffer. -/
theorem recvHead_of_accepted {buffSize : ℕ} {u : Uninit} {head : Bytes} {d : HttpRequest}
    (h : Accepted u head d) {data : Bytes} (hread : Deliverable buffSize (head++data))
    (reads : List Bytes) :
    ∃ q, q.data = d ∧ recvHead buffSize (.new u) [] ((head++data) :: reads) =
      .ok (if (data.length : ℤ) = int buffSize then none else some (q,data),reads) := by
  obtain ⟨q,hq,he,hf,hd⟩ := h.execute_append data
  refine ⟨q,hd,?_⟩
  have hgot : read buffSize [head++data] = .ok (head++data,[]) := if_pos hread.2
  simp only [recvHead, List.length_nil, Nat.sub_zero, hgot, List.nil_append, hq, bind,
    Except.bind, if_neg hread.1, if_neg he, if_pos hf, pure, Except.pure]
  split_ifs <;> rfl

theorem recvHead_overrun {buffSize : ℕ} {u : Uninit} {piece : Bytes} (hne : piece ≠ [])
    (hread : ¬Deliverable buffSize piece) (reads : List Bytes) :
    recvHead buffSize (.new u) [] (piece :: reads) = .error .overrun := by
  have hgot : read buffSize [piece] = .error .overrun := if_neg fun h => hread ⟨hne,h⟩
  simp only [recvHead, List.length_nil, Nat.sub_zero, hgot, bind, Except.bind]

/-- Behind the head comes a body of the length that the header says. -/
theorem recvRequest_of_recvHead {c : Config} {u : Uninit} {reads rest : List Bytes}
    {parser : HttpRequestParser} {data : Bytes} {length : ℤ}
    (h : recvHead c.buffSize (.new u) [] reads = .ok (some (parser,data),rest))
    (hlength : int64 (parser.getContentLength c.lexicalCast).toNat = length) :
    recvRequest c u reads =
      if 0 < length then
        (recvBody length data rest).map fun x =>
          (x.1.map fun body => { parser.data with body }.init,x.2)
      else .ok (some parser.data.init,rest) := by
  unfold recvRequest
  rw [h, ok_bind]
  simp only [hlength]
  split_ifs
  · cases recvBody length data rest <;> rfl
  · rfl

theorem recvRequest_of_none {c : Config} {u : Uninit} {reads rest : List Bytes}
    (h : recvHead c.buffSize (.new u) [] reads = .ok (none,rest)) :
    recvRequest c u reads = .ok (none,rest) := by
  unfold recvRequest
  rw [h, ok_bind]
  rfl

theorem recvRequest_of_error {c : Config} {u : Uninit} {reads : List Bytes} {e : Fault}
    (h : recvHead c.buffSize (.new u) [] reads = .error e) :
    recvRequest c u reads = .error e := by
  unfold recvRequest
  rw [h]
  rfl

/-- The end of a head takes a byte from the reads, and no callback sets a body. -/
theorem lt_of_recvHead {buffSize : ℕ} {r : HttpRequestParser} {data : Bytes}
    {reads rest : List Bytes} {y : HttpRequestParser × Bytes} (hnf : ¬r.IsFinished)
    (h : recvHead buffSize r data reads = .ok (some y,rest)) :
    y.2.length+rest.flatten.length < data.length+reads.flatten.length ∧
      y.1.data.body = r.data.body ∧ rest <:+ reads := by
  induction reads generalizing r data with
  | nil => cases h
  | cons piece reads ih =>
    obtain ⟨q,left⟩ := y
    obtain ⟨hne,y,n,d,hexecute,-,-,hnext⟩ := recvHead_cons_some h
    obtain ⟨us,-,hy⟩ := HttpRequestParser.execute_eq_ok.mp hexecute
    cases hy
    have hbody := (frame_foldl us r).2
    have hlen : ((data++piece).drop (r.parser.execute (data++piece)).2.1).length =
        data.length+piece.length-(r.parser.execute (data++piece)).2.1 := by
      rw [List.length_drop, List.length_append]
    rw [List.flatten_cons, List.length_append]
    have hpos := List.length_pos_iff.mpr hne
    split_ifs at hnext with hfin
    · obtain ⟨rfl,rfl,rfl⟩ := hnext
      refine ⟨?_,hbody,List.suffix_cons ..⟩
      dsimp only
      have hexec : (r.parser.execute (data++piece)) = r.parser.reset.exec 0 (data++piece) :=
        if_neg (List.append_ne_nil_of_right_ne_nil _ hne)
      have hnf : ¬r.parser.reset.cs.Final := hnf
      have := HttpParser.lt_of_exec_final hnf (hexec ▸ hfin)
      rw [← hexec] at this
      omega
    · obtain ⟨hlt,hb,hsuffix⟩ := ih hfin hnext
      exact ⟨by omega,hb.trans hbody,hsuffix.trans (List.suffix_cons ..)⟩

/-- A request takes at least one byte and its body from the reads. -/
theorem lt_of_recvRequest {c : Config} {u : Uninit} {d : HttpRequest} {reads rest : List Bytes}
    (h : recvRequest c u reads = .ok (some d,rest)) :
    d.body.length+rest.flatten.length < reads.flatten.length ∧ rest <:+ reads := by
  cases hhead : recvHead c.buffSize (.new u) [] reads with
  | error e =>
    rw [recvRequest_of_error hhead] at h
    cases h
  | ok x =>
    obtain ⟨head,reads'⟩ := x
    cases head with
    | none =>
      rw [recvRequest_of_none hhead] at h
      cases h
    | some y =>
      have hnf : ¬(HttpRequestParser.new u).IsFinished := show ¬State.start.Final by decide
      obtain ⟨hlt,hb,hsuffix⟩ := lt_of_recvHead hnf hhead
      obtain ⟨q,data⟩ := y
      rw [recvRequest_of_recvHead hhead rfl] at h
      generalize int64 (q.getContentLength c.lexicalCast).toNat = length at h
      dsimp only [List.length_nil] at hlt
      split_ifs at h
      · obtain ⟨⟨body,reads''⟩,hx,h⟩ := exists_of_map h
        obtain ⟨hreq,rfl⟩ := Prod.mk.inj h
        cases body with
        | none => cases hreq
        | some body =>
          obtain rfl : d.body = body := by
            rw [← Option.some.inj hreq, init_body]
          rcases exists_of_recvBody hx with ⟨hle,rfl,hd⟩ | ⟨hgt,hread,taken,rfl,hd,-⟩
          · refine ⟨?_,hsuffix⟩
            dsimp only
            rw [hd, List.length_take]
            omega
          · refine ⟨?_,(List.suffix_append ..).trans hsuffix⟩
            dsimp only
            rw [hd, List.length_append]
            rw [List.flatten_append, List.length_append] at hlt
            omega
      · obtain ⟨hreq,rfl⟩ := Prod.mk.inj (Except.ok.inj h)
        rw [← Option.some.inj hreq, init_body, hb]
        refine ⟨?_,hsuffix⟩
        simp only [HttpRequestParser.new, HttpRequest.new, List.length_nil]
        omega

end HttpSession

end CoroutineWebserve.Http
