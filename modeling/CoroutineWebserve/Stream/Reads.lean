import CoroutineWebserve.Http.Session
import CoroutineWebserve.Stream.FixSize

/-!
# The streams of the sockets and of the requests

A `SocketStream` on a connected socket reads and writes a fixed size as the kernel behind it does.
The requests are modelled with the list of the reads of a connection; their `readFixSize` is the
loop of the streams.
-/
namespace CoroutineWebserve.Stream
variable {σ τ : Type*}

/-- Loops whose calls answer alike in related states. -/
theorem fixSizeLoop_simulation {call : (offset left : ℕ) → σ → Transfer left × σ}
    {call' : (offset left : ℕ) → τ → Transfer left × τ} {R : σ → τ → Prop}
    (hcall : ∀ offset left s t, R s t → (call offset left s).1 = (call' offset left t).1 ∧
      R (call offset left s).2 (call' offset left t).2)
    {length offset left : ℕ} {s : σ} {t : τ} (hst : R s t) (hlt : offset+left < 2^64) :
    let r := fixSizeLoop call length offset left s
    let r' := fixSizeLoop call' length offset left t
    r.rt = r'.rt ∧ r.calls = r'.calls ∧ R r.state r'.state := by
  refine fixSizeLoop_induction call length (P := fun offset left s r => ∀ t, R s t → offset+left < 2^64 →
    let r' := fixSizeLoop call' length offset left t
    r.rt = r'.rt ∧ r.calls = r'.calls ∧ R r.state r'.state) ?_ ?_ ?_ hlt t hst hlt
  · intro offset s t hst _
    rw [fixSizeLoop_done]
    exact ⟨rfl,rfl,hst⟩
  · intro offset left s hleft hrt t hst _
    obtain ⟨heq,hnext⟩ := hcall offset left s t hst
    rw [fixSizeLoop_failed call' length t hleft (heq ▸ hrt)]
    exact ⟨congrArg (·.rt.toInt) heq,by simp only [callOf, heq],hnext⟩
  · intro offset left s r hpos ih t hst hlt
    obtain ⟨heq,hnext⟩ := hcall offset left s t hst
    have hle := (call offset left s).1.length_le
    rw [fixSizeLoop_more call' length t (by omega) hlt (heq ▸ hpos), ← heq]
    obtain ⟨hrt,hcalls,hstate⟩ := ih _ hnext (by omega)
    exact ⟨hrt,by simp only [callOf, heq, hcalls],hstate⟩

/-! ### Sockets -/

section sockets
variable {κ : Type*} (kernel : Stream κ) (memory : Memory) (buffer : ℕ) {length : ℕ}
  {s : SocketStream κ}

theorem readFixSize_socket (hs : s.isConnected) (hlt : length < 2^63) :
    let r := (SocketStream.stream kernel).readFixSize memory buffer length s
    let r' := kernel.readFixSize memory buffer length s.peer
    r.rt = r'.rt ∧ r.calls = r'.calls ∧ r.state = (r'.state.1,{ s with peer := r'.state.2 }) := by
  unfold readFixSize
  rw [int64_of_lt hlt]
  have hbound : 0+length < 2^64 := by omega
  refine fixSizeLoop_simulation (s := (memory,s)) (t := (memory,s.peer))
    (R := fun x y => x = (y.1,{ s with peer := y.2 })) ?_ rfl hbound
  rintro offset left _ y rfl
  have hs' : SocketStream.isConnected { s with peer := y.2 } := hs
  simp [readAt, SocketStream.stream, hs']

theorem writeFixSize_socket (hs : s.isConnected) (hlt : length < 2^63) :
    let r := (SocketStream.stream kernel).writeFixSize memory buffer length s
    let r' := kernel.writeFixSize memory buffer length s.peer
    r.rt = r'.rt ∧ r.calls = r'.calls ∧ r.state = { s with peer := r'.state } := by
  unfold writeFixSize
  rw [int64_of_lt hlt]
  have hbound : 0+length < 2^64 := by omega
  refine fixSizeLoop_simulation (s := s) (t := s.peer) (R := fun x y => x = { s with peer := y }) ?_
    rfl hbound
  rintro offset left _ y rfl
  have hs' : SocketStream.isConnected { s with peer := y } := hs
  simp [writeAt, SocketStream.stream, hs']

end sockets

/-! ### Requests -/

open Http (Bytes)

/-- A connection that delivers these pieces; one that is too long fails, as no socket gives it. -/
def pieces : Stream (List Bytes) where
  read _ _ length
    | [] => (.ofBytes [] (Nat.zero_le _) (by decide),[])
    | piece :: reads =>
      if h : piece.length ≤ length ∧ piece.length < 2^31 then (.ofBytes piece h.1 h.2,reads)
      else (.failed length,reads)
  write _ _ length reads := (.failed length,reads)

section requests
variable (memory : Memory) (buffer : ℕ) {length : ℕ} {reads rest : List Bytes}

/-- One round of `readLeft` is one call. -/
theorem readLeft_step (offset : ℕ) {left : ℕ} {got : Option Bytes} (hleft : 0 < left)
    (h : Http.readLeft left reads = .ok (got,rest)) :
    let c := pieces.readAt buffer offset left (memory,reads)
    (c.1.bytes = [] ∧ got = none ∧ c.2.2 = rest) ∨
      (0 < c.1.bytes.length ∧ ∃ more,
        Http.readLeft (left-c.1.bytes.length) c.2.2 = .ok (more,rest) ∧
          got = more.map (c.1.bytes++·)) := by
  obtain ⟨left,rfl⟩ : ∃ n, left = n+1 := ⟨left-1,by omega⟩
  cases reads with
  | nil =>
    simp only [Http.readLeft, Except.ok.injEq, Prod.mk.injEq] at h
    exact .inl ⟨rfl,h.1.symm,h.2⟩
  | cons piece reads =>
    simp only [Http.readLeft, Http.read, bind, Except.bind, pure, Except.pure] at h
    by_cases hfits : piece.length ≤ left+1 ∧ piece.length < 2^31
    · have hcall : pieces.read memory (buffer+offset) (left+1) (piece :: reads) =
          (.ofBytes piece hfits.1 hfits.2,reads) := dif_pos hfits
      simp only [readAt, hcall, Transfer.ofBytes]
      rw [if_pos hfits] at h
      by_cases hnil : piece = []
      · simp only [if_pos hnil, Except.ok.injEq, Prod.mk.injEq] at h
        exact .inl ⟨hnil,h.1.symm,h.2⟩
      · simp only [if_neg hnil] at h
        cases hmore : Http.readLeft (left+1-piece.length) reads with
        | error e => simp [hmore] at h
        | ok res =>
          obtain ⟨more,rest'⟩ := res
          simp only [hmore, Except.ok.injEq, Prod.mk.injEq] at h
          obtain ⟨hgot,rfl⟩ := h
          exact .inr ⟨List.length_pos_iff.mpr hnil,more,rfl,hgot.symm⟩
    · rw [if_neg hfits] at h
      simp at h

theorem readLeft_eq_fixSizeLoop (length : ℕ) {offset left : ℕ} {got : Option Bytes}
    (h : Http.readLeft left reads = .ok (got,rest)) (hlt : offset+left < 2^64) :
    let r := fixSizeLoop (pieces.readAt buffer) length offset left (memory,reads)
    r.state.2 = rest ∧
      got = if (transferred r.calls).length = left then some (transferred r.calls) else none := by
  refine fixSizeLoop_induction (pieces.readAt buffer) length
    (P := fun offset left s r => ∀ got rest, Http.readLeft left s.2 = .ok (got,rest) →
      r.state.2 = rest ∧
        got = if (transferred r.calls).length = left then some (transferred r.calls) else none)
    ?_ ?_ ?_ hlt got rest h
  · rintro offset ⟨memory,reads⟩ got rest h
    simp only [Http.readLeft, Except.ok.injEq, Prod.mk.injEq] at h
    exact ⟨h.2,h.1.symm⟩
  · rintro offset left ⟨memory,reads⟩ hleft hrt got rest h
    have hbytes := ((pieces.readAt buffer offset left (memory,reads)).1).bytes_eq_nil hrt
    obtain ⟨_,rfl,hrest⟩ | ⟨hpos,_⟩ := readLeft_step memory buffer offset hleft h
    · refine ⟨hrest,?_⟩
      rw [transferred_cons, transferred_nil, callOf, hbytes, if_neg]
      exact hleft.ne
    · rw [hbytes] at hpos
      exact absurd hpos (Nat.lt_irrefl 0)
  · rintro offset left ⟨memory,reads⟩ r hpos ih got rest h
    have hle := (pieces.readAt buffer offset left (memory,reads)).1.length_le
    obtain ⟨hnil,_⟩ | ⟨_,more,hmore,rfl⟩ := readLeft_step memory buffer offset (by omega) h
    · rw [hnil] at hpos
      exact absurd hpos (Nat.lt_irrefl 0)
    · obtain ⟨hrest,rfl⟩ := ih more rest hmore
      refine ⟨hrest,?_⟩
      have hiff : (transferred r.calls).length =
          left-(pieces.readAt buffer offset left (memory,reads)).1.bytes.length ↔
          (transferred (callOf (pieces.readAt buffer) offset left (memory,reads) :: r.calls)).length
            = left := by
        rw [length_transferred_callOf]
        omega
      simp only [← hiff, apply_ite (Option.map _), Option.map_some, Option.map_none]
      rfl

/-- The requests read what a stream reads, and take the value of `readFixSize` for what it is. -/
theorem readFixSize_pieces {got : Option (ℤ × Bytes)} (hlt : length < 2^63)
    (h : Http.readFixSize length reads = .ok (got,rest)) :
    let r := pieces.readFixSize memory buffer length reads
    r.state.2 = rest ∧ (got = none → r.rt ≤ 0) ∧
      ∀ rt data, got = some (rt,data) → r.rt = rt ∧ r.state.1 = memory.store buffer data := by
  have hplaced := placed_readFixSize pieces memory buffer reads hlt
  have hint : int length = Http.int length := by
    unfold int
    rfl
  simp only [Http.readFixSize, bind, Except.bind, pure, Except.pure] at h
  cases hleft : Http.readLeft length reads with
  | error e => simp [hleft] at h
  | ok res =>
    obtain ⟨g,rest'⟩ := res
    simp only [hleft, Except.ok.injEq, Prod.mk.injEq] at h
    obtain ⟨rfl,rfl⟩ := h
    have hbound : 0+length < 2^64 := by omega
    obtain ⟨hrest,rfl⟩ := readLeft_eq_fixSizeLoop memory buffer length hleft hbound
    unfold readFixSize at hplaced ⊢
    rw [int64_of_lt hlt] at hplaced ⊢
    refine ⟨hrest,?_⟩
    cases outcome_fixSizeLoop (pieces.readAt buffer) length (memory,reads) hbound with
    | through _ hlength hrt =>
      rw [if_pos hlength, Option.map_some]
      refine ⟨nofun,fun rt data hgot => ?_⟩
      obtain ⟨hreturned,hdata⟩ := Prod.mk.inj (Option.some.inj hgot)
      exact ⟨(hrt.trans hint).trans hreturned,hdata ▸ hplaced⟩
    | failed _ hlength hlast =>
      rw [if_neg hlength.ne]
      obtain ⟨_,c,_,hc,hrt⟩ := hlast
      exact ⟨fun _ => hrt ▸ hc,nofun⟩

end requests
end CoroutineWebserve.Stream
