import CoroutineWebserve.Http.Cuts

/-!
# Requests that arrive in several reads

`recvRequest` gives the parser one read after the other. The request is the one of a single
call of `execute` exactly when the last cut before the end of each part has left the part
as it is, or as good.
-/
namespace CoroutineWebserve.Http

theorem ok_bind {ε α β : Type} (x : α) (f : α → Except ε β) : Except.ok x >>= f = f x := rfl

theorem exists_of_bind {ε α β : Type} {x : Except ε α} {f : α → Except ε β} {b : β}
    (h : x >>= f = .ok b) : ∃ a, x = .ok a ∧ f a = .ok b := by
  cases x with
  | error e => cases h
  | ok a => exact ⟨a,rfl,h⟩

theorem exists_of_map {ε α β : Type} {x : Except ε α} {f : α → β} {b : β}
    (h : x.map f = .ok b) : ∃ a, x = .ok a ∧ f a = b := by
  cases x with
  | error e => cases h
  | ok a => exact ⟨a,rfl,Except.ok.inj h⟩

theorem mapM_eq_ok {α β ε : Type*} {f : α → Except ε β} {l : List α} {us : List β} :
    l.mapM f = .ok us ↔ List.Forall₂ (fun a u => f a = .ok u) l us := by
  induction l generalizing us with
  | nil => simp [pure, Except.pure, eq_comm]
  | cons a l ih =>
    rw [List.mapM_cons, List.forall₂_cons_left_iff]
    simp only [← ih]
    cases f a with
    | error e => simp [bind, Except.bind]
    | ok u =>
      cases l.mapM f with
      | error e => simp [bind, Except.bind]
      | ok vs => simp [bind, Except.bind, pure, Except.pure, eq_comm]

namespace HttpRequestParser

theorem parser_update (r : HttpRequestParser) (parser : HttpParser) (u : Update) :
    { r with parser }.update u = { r.update u with parser } := by cases u <;> rfl

theorem parser_foldl_update (us : List Update) (r : HttpRequestParser) (parser : HttpParser) :
    us.foldl update { r with parser } = { us.foldl update r with parser } := by
  induction us generalizing r with
  | nil => rfl
  | cons u us ih => rw [List.foldl_cons, parser_update, ih, List.foldl_cons]

/-- An error stays. -/
theorem error_of_foldl {us : List Update} (hus : .setError 0 ∉ us) {r : HttpRequestParser}
    (h : (us.foldl update r).error = 0) : r.error = 0 := by
  induction us generalizing r with
  | nil => exact h
  | cons u us ih =>
    rw [List.mem_cons, not_or] at hus
    have hu := ih hus.2 h
    cases u with
    | setError v =>
      have hv : v = 0 := hu
      exact absurd (hv ▸ rfl) hus.1
    | _ => exact hu

theorem execute_eq_ok {r : HttpRequestParser} {data : Bytes} {x : HttpRequestParser × ℕ × Bytes} :
    r.execute data = .ok x ↔
      ∃ us, List.Forall₂ (fun c u => callback data c = .ok u) (r.parser.execute data).2.2 us ∧
        x = ({ us.foldl update r with parser := (r.parser.execute data).1 },
          (r.parser.execute data).2.1,data.drop (r.parser.execute data).2.1) := by
  simp only [execute, bind, Except.bind, pure, Except.pure, ← mapM_eq_ok]
  cases (r.parser.execute data).2.2.mapM (callback data) with
  | error e => simp
  | ok us => simp [eq_comm]

end HttpRequestParser

/-- The errors of the callbacks have numbers other than 0. -/
theorem callback_ne {s : Bytes} {c : Callback} {u : Update} (h : callback s c = .ok u) :
    u ≠ .setError 0 := by
  rintro rfl
  cases c with
  | headerDone => cases h
  | httpField =>
    simp only [callback, onRequestHttpField, Except.ok.injEq] at h
    split at h <;> cases h
  | element e first stop =>
    cases e with
    | requestUri => cases h
    | requestMethod =>
      simp only [callback, onRequestMethod, Except.ok.injEq] at h
      split at h <;> cases h
    | httpVersion =>
      simp only [callback, onRequestVersion, Except.ok.injEq] at h
      split_ifs at h
      all_goals cases h
    | requestPath | queryString | fragment =>
      simp only [callback, stdString] at h
      split at h <;> cases h

theorem setError_notMem {s : Bytes} {f : Callback → Callback} {calls : List Callback}
    {us : List Update} (h : List.Forall₂ (fun c u => callback s (f c) = .ok u) calls us) :
    .setError 0 ∉ us := by
  induction h with
  | nil => simp
  | cons hu _ ih => exact List.not_mem_cons_of_ne_of_not_mem (callback_ne hu).symm ih

theorem forall₂_congr_of_mem {α β : Type*} {R S : α → β → Prop} {l : List α} {us : List β}
    (h : ∀ a ∈ l, ∀ u, R a u ↔ S a u) : List.Forall₂ R l us ↔ List.Forall₂ S l us := by
  induction l generalizing us with
  | nil => simp
  | cons a l ih =>
    rw [List.forall₂_cons_left_iff, List.forall₂_cons_left_iff]
    simp only [h a List.mem_cons_self, ih fun b hb => h b (List.mem_cons_of_mem a hb)]

theorem forall₂_append {α β : Type*} {R : α → β → Prop} {l₁ l₂ : List α} {us : List β} :
    List.Forall₂ R (l₁++l₂) us ↔
      ∃ us₁ us₂, List.Forall₂ R l₁ us₁ ∧ List.Forall₂ R l₂ us₂ ∧ us = us₁++us₂ := by
  refine ⟨fun h => ⟨us.take l₁.length,us.drop l₁.length,?_,?_,?_⟩,?_⟩
  · simpa using List.forall₂_take l₁.length h
  · simpa using List.forall₂_drop l₁.length h
  · rw [List.take_append_drop]
  · rintro ⟨us₁,us₂,h₁,h₂,rfl⟩
    exact List.rel_append h₁ h₂

/-- One read of the message: the parser consumes it, and its callbacks are those of the
whole message with what the cuts have left. -/
theorem InStep.execute {start : ℕ → ℕ} {b : ℕ} {P : HttpParser} {r : HttpRequestParser}
    {s pre piece post : Bytes} (hs : s = pre++piece++post) (hpiece : piece ≠ [])
    (hstart : ∀ p < piece.length, start (pre.length+p) = pre.length)
    (h : InStep start b pre.length (.of P.cs) P r.parser)
    (hend : (P.exec pre.length piece).2.1 = pre.length+piece.length) :
    ∃ Q, InStep start pre.length (pre++piece).length (.of (P.exec pre.length piece).1.cs)
        (P.exec pre.length piece).1 Q ∧
      ∀ x, r.execute piece = .ok x ↔
        ∃ us, List.Forall₂ (fun c u => callback s (c.kept start) = .ok u)
            (P.exec pre.length piece).2.2 us ∧
          x = ({ us.foldl HttpRequestParser.update r with parser := Q },piece.length,[]) := by
  have hexec : r.parser.execute piece = r.parser.reset.exec 0 piece := by
    rw [HttpParser.execute, if_neg hpiece]
  obtain ⟨hin,hq,hcalls,hfits⟩ := h.reset.exec (e := pre.length+piece.length) (s := s) piece
    (fun q h₁ h₂ => by
      obtain ⟨i,rfl⟩ := Nat.exists_eq_add_of_le h₁
      exact hstart i (by omega))
    le_rfl le_rfl (fun i hi => by
      rw [hs, List.append_assoc, List.getElem?_append_right (Nat.le_add_right ..),
        Nat.add_sub_cancel_left, List.getElem?_append_left hi])
  rw [Nat.sub_self] at hin hq hcalls
  rw [hend] at hin hq
  refine ⟨_,by rwa [List.length_append],fun x => ?_⟩
  have hq : (r.parser.reset.exec 0 piece).2.1 = piece.length := by omega
  rw [HttpRequestParser.execute_eq_ok, hexec, hcalls, hq, List.drop_length]
  simp only [List.forall₂_map_left_iff]
  refine exists_congr fun us => and_congr_left' (forall₂_congr_of_mem fun c hc u => ?_)
  rw [callback_shift hs (hfits c hc)]

/-- Where the piece with byte `p` of the message begins. -/
def pieceStart : List Bytes → ℕ → ℕ
  | [], _ => 0
  | piece :: pieces, p =>
    if p < piece.length then 0 else piece.length+pieceStart pieces (p-piece.length)

/-- What a socket can deliver to a buffer of this size in one read. -/
def Deliverable (buffSize : ℕ) (piece : Bytes) : Prop :=
  piece ≠ [] ∧ piece.length ≤ buffSize ∧ piece.length < 2^31

instance (buffSize : ℕ) (piece : Bytes) : Decidable (Deliverable buffSize piece) :=
  inferInstanceAs (Decidable (_ ∧ _ ∧ _))

namespace HttpSession

/-- A read that the parser consumes: an error ends the loop, the end of the head does, or the
next read follows. -/
theorem recvHead_cons {buffSize : ℕ} (hbuf : int buffSize ≠ 0) {piece : Bytes}
    (h : Deliverable buffSize piece) {r : HttpRequestParser} {reads left : List Bytes}
    {y : HttpRequestParser × Bytes} (hall : ∀ x, r.execute piece = .ok x → x.2.2 = []) :
    recvHead buffSize r [] (piece :: reads) = .ok (some y,left) ↔
      ∃ x n, r.execute piece = .ok (x,n,[]) ∧ ¬x.HasError ∧
        if x.IsFinished then y = (x,[]) ∧ left = reads
        else recvHead buffSize x [] reads = .ok (some y,left) := by
  have hread : read buffSize [piece] = .ok (piece,[]) := if_pos h.2
  simp only [recvHead, List.length_nil, Nat.sub_zero, hread, List.nil_append]
  simp only [bind, Except.bind, if_neg h.1, pure, Except.pure]
  cases hx : r.execute piece with
  | error e => simp
  | ok x =>
    obtain ⟨x,n,rest⟩ := x
    obtain rfl : rest = [] := hall _ hx
    simp only [List.length_nil, Nat.cast_zero, if_neg (Ne.symm hbuf)]
    by_cases he : x.HasError
    · simp [he]
    · by_cases hf : x.IsFinished
      · simp [he, hf, eq_comm]
      · simp [he, hf]

theorem left_of_execute {r : HttpRequestParser} {piece : Bytes} {calls : List Callback}
    {f : Callback → Update → Prop} {g : List Update → HttpRequestParser}
    (h : ∀ x, r.execute piece = .ok x ↔
      ∃ us, List.Forall₂ f calls us ∧ x = (g us,piece.length,[])) :
    ∀ x, r.execute piece = .ok x → x.2.2 = [] := by
  intro x hx
  obtain ⟨us,-,rfl⟩ := (h x).mp hx
  rfl

/-- A read of the loop, when the loop ends with a head. -/
theorem recvHead_cons_some {buffSize : ℕ} {r q : HttpRequestParser} {data left piece : Bytes}
    {reads rest : List Bytes}
    (h : recvHead buffSize r data (piece :: reads) = .ok (some (q,left),rest)) :
    piece ≠ [] ∧ ∃ y n d, r.execute (data++piece) = .ok (y,n,d) ∧ ¬y.HasError ∧
      (d.length : ℤ) ≠ int buffSize ∧
      if y.IsFinished then q = y ∧ left = d ∧ rest = reads
      else recvHead buffSize y d reads = .ok (some (q,left),rest) := by
  obtain ⟨⟨got,later⟩,hread,h⟩ := exists_of_bind h
  rw [read] at hread
  split_ifs at hread
  cases hread
  dsimp only at h
  split_ifs at h with hne
  · cases h
  obtain ⟨⟨y,n,d⟩,hx,h⟩ := exists_of_bind h
  dsimp only at h
  split_ifs at h with herror hfull hfinished
  · cases h
  · cases h
  · cases h
    exact ⟨hne,_,_,_,hx,herror,hfull,by rw [if_pos hfinished]; exact ⟨rfl,rfl,rfl⟩⟩
  · exact ⟨hne,_,_,_,hx,herror,hfull,by rwa [if_neg hfinished]⟩

/-- The loop does not end when the bytes behind the head look like a full buffer. -/
theorem left_ne_of_recvHead {buffSize : ℕ} {r q : HttpRequestParser} {data left : Bytes}
    {reads rest : List Bytes}
    (h : recvHead buffSize r data reads = .ok (some (q,left),rest)) :
    (left.length : ℤ) ≠ int buffSize := by
  induction reads generalizing r data with
  | nil => cases h
  | cons piece reads ih =>
    obtain ⟨-,y,n,d,-,-,hfull,hnext⟩ := recvHead_cons_some h
    split_ifs at hnext
    · exact hnext.2.1 ▸ hfull
    · exact ih hnext

/-- The reads of a message, up to the one that ends it, give the request that the callbacks
of the whole message make of what the cuts have left. -/
theorem recvHead_iff {buffSize : ℕ} (hbuf : int buffSize ≠ 0) {start : ℕ → ℕ} {s : Bytes}
    {pieces : List Bytes} (hpieces : ∀ piece ∈ pieces, Deliverable buffSize piece)
    (hne : pieces ≠ []) {pre : Bytes} (hs : s = pre++pieces.flatten)
    (hstart : ∀ p < pieces.flatten.length,
      start (pre.length+p) = pre.length+pieceStart pieces p)
    {b : ℕ} {P : HttpParser} {r : HttpRequestParser}
    (h : InStep start b pre.length (.of P.cs) P r.parser) (hnf : ¬P.cs.Final)
    (hend : (P.exec pre.length pieces.flatten).2.1 = pre.length+pieces.flatten.length)
    (hfin : (P.exec pre.length pieces.flatten).1.cs.Final) (d : HttpRequest) :
    (∃ q, recvHead buffSize r [] pieces = .ok (some (q,[]),[]) ∧ q.data = d) ↔
      ∃ us, List.Forall₂ (fun c u => callback s (c.kept start) = .ok u)
          (P.exec pre.length pieces.flatten).2.2 us ∧
        (us.foldl HttpRequestParser.update r).error = 0 ∧
        (us.foldl HttpRequestParser.update r).data = d := by
  induction pieces generalizing pre b P r with
  | nil => exact absurd rfl hne
  | cons piece rest ih =>
    have hpiece := hpieces piece List.mem_cons_self
    have hhere : ∀ p < piece.length, start (pre.length+p) = pre.length := by
      intro p hp
      rw [hstart p (by rw [List.flatten_cons, List.length_append]; omega), pieceStart, if_pos hp,
        Nat.add_zero]
    rw [List.flatten_cons] at hs hend hfin ⊢
    by_cases hrest : rest = []
    · -- the last read ends the head
      subst hrest
      rw [List.flatten_nil, List.append_nil] at hs hend hfin ⊢
      have hs' : s = pre++piece++[] := by rw [hs, List.append_nil]
      obtain ⟨Q,hin,hexec⟩ := h.execute hs' hpiece.1 hhere hend
      have hQ : Q.cs.Final := hin.cs ▸ hfin
      have hQe : Q.cs ≠ .error := fun he => by rw [he] at hQ; exact hQ
      simp only [recvHead_cons hbuf hpiece (left_of_execute hexec)]
      constructor
      · rintro ⟨q,⟨x,n,hx,he,hq⟩,rfl⟩
        obtain ⟨us,hus,hx⟩ := (hexec _).mp hx
        cases hx
        rw [if_pos (by exact hQ)] at hq
        cases hq.1
        exact ⟨us,hus,not_not.mp fun h0 => he (.inl h0),rfl⟩
      · rintro ⟨us,hus,he,rfl⟩
        refine ⟨{ us.foldl HttpRequestParser.update r with parser := Q },⟨_,_,
          (hexec _).mpr ⟨us,hus,rfl⟩,not_or.mpr ⟨not_not.mpr he,hQe⟩,?_⟩,rfl⟩
        rw [if_pos (by exact hQ)]
        exact ⟨rfl,trivial⟩
    · have hflat : rest.flatten ≠ [] := by
        obtain ⟨next,more,rfl⟩ := List.exists_cons_of_ne_nil hrest
        have := (hpieces next (by simp)).1
        simp [this]
      obtain ⟨hends,happ,hnf₁⟩ := HttpParser.exec_append hflat hend
      have hs' : s = pre++piece++rest.flatten := by rw [hs, List.append_assoc]
      obtain ⟨Q,hin,hexec⟩ := h.execute hs' hpiece.1 hhere hends
      have hQ : ¬Q.cs.Final := hin.cs ▸ hnf₁ hnf
      have hQe : Q.cs ≠ .error := by
        rw [hin.cs]
        intro he
        rw [happ, HttpParser.exec_of_error he] at hfin
        exact hfin
      have hlen : (pre++piece).length = pre.length+piece.length := List.length_append
      simp only [recvHead_cons hbuf hpiece (left_of_execute hexec)]
      have hstart' : ∀ p < rest.flatten.length,
          start ((pre++piece).length+p) = (pre++piece).length+pieceStart rest p := by
        intro p hp
        have := hstart (piece.length+p) (by rw [List.flatten_cons, List.length_append]; omega)
        rw [hlen, Nat.add_assoc, this, pieceStart, if_neg (by omega), Nat.add_sub_cancel_left,
          Nat.add_assoc]
      rw [happ, ← hlen] at hend hfin
      rw [happ, ← hlen]
      have hnext := fun us : List Update => ih
        (r := { us.foldl HttpRequestParser.update r with parser := Q })
        (fun p hp => hpieces p (List.mem_cons_of_mem piece hp)) hrest hs' hstart' hin (hnf₁ hnf)
        (by rw [hend, hlen, List.length_append, Nat.add_assoc]) hfin
      simp only [HttpRequestParser.parser_foldl_update] at hnext
      constructor
      · rintro ⟨q,⟨x,n,hx,he,hq⟩,hd⟩
        obtain ⟨us₁,hus₁,hx⟩ := (hexec _).mp hx
        cases hx
        rw [if_neg (by exact hQ)] at hq
        obtain ⟨us₂,hus₂,herr,hdata⟩ := (hnext us₁).mp ⟨q,hq,hd⟩
        refine ⟨us₁++us₂,List.rel_append hus₁ hus₂,?_,?_⟩
        · rwa [List.foldl_append]
        · rwa [List.foldl_append]
      · rintro ⟨us,hus,herr,hdata⟩
        obtain ⟨us₁,us₂,hus₁,hus₂,rfl⟩ := forall₂_append.mp hus
        rw [List.foldl_append] at herr hdata
        have he := HttpRequestParser.error_of_foldl (setError_notMem hus₂) herr
        obtain ⟨q,hq,hd⟩ := (hnext us₁).mpr ⟨us₂,hus₂,herr,hdata⟩
        refine ⟨q,⟨_,_,(hexec _).mpr ⟨us₁,hus₁,rfl⟩,not_or.mpr ⟨not_not.mpr he,hQe⟩,?_⟩,hd⟩
        rwa [if_neg (by exact hQ)]

end HttpSession
end CoroutineWebserve.Http
