import CoroutineWebserve.Http.Lexical
import CoroutineWebserve.Http.Receive

/-!
# The body and the header `content-length`

`recvRequest` takes as many bytes behind the head as `lexical_cast` reads from the header,
and none where it throws: `getHeaderAs` returns its default then.
-/
namespace CoroutineWebserve.Http

/-- `recvRequest` has given up, or the body of its request is the first `n` bytes of `stream`. -/
def Framed (n : ℕ) (stream : Bytes) (r : Except Fault (Option HttpRequest × List Bytes)) : Prop :=
  (∃ rest, r = .ok (none,rest)) ∨
    ∃ d rest, r = .ok (some d,rest) ∧ d.body.length = n ∧ d.body <+: stream

theorem readLeft_error {left : ℕ} {reads : List Bytes} {e : Fault}
    (h : readLeft left reads = .error e) : e = .overrun := by
  induction reads generalizing left with
  | nil => cases left <;> cases h
  | cons piece reads ih =>
    cases left with
    | zero => cases h
    | succ left =>
      simp only [readLeft, read, bind, Except.bind, pure, Except.pure] at h
      split_ifs at h with hfits
      · dsimp only at h
        split_ifs at h
        cases hmore : readLeft (left+1-piece.length) reads with
        | error e' =>
          rw [hmore] at h
          cases h
          exact ih hmore
        | ok x => rw [hmore] at h; cases h
      · cases h
        rfl

namespace HttpSession

theorem recvBody_error {length : ℤ} {data : Bytes} {reads : List Bytes} {e : Fault}
    (h : recvBody length data reads = .error e) : e = .overrun := by
  unfold recvBody at h
  split_ifs at h
  simp only [readFixSize, bind, Except.bind, pure, Except.pure] at h
  cases hgot : readLeft (length-data.length).toNat reads with
  | error e' =>
    rw [hgot] at h
    cases h
    exact readLeft_error hgot
  | ok x =>
    obtain ⟨got,rest⟩ := x
    rw [hgot] at h
    cases got <;> cases h

/-- The body is a part of what the socket delivers behind the head, as long as it should be. -/
theorem body_of_recvBody {length : ℤ} (hpos : 0 < length) {data body : Bytes}
    {reads rest : List Bytes} (h : recvBody length data reads = .ok (some body,rest)) :
    (body.length : ℤ) = length ∧ body <+: data++reads.flatten := by
  rcases exists_of_recvBody h with ⟨hle,rfl,rfl⟩ | ⟨hgt,-,taken,rfl,rfl,hlen⟩
  · refine ⟨?_,(List.take_prefix ..).trans (List.prefix_append ..)⟩
    rw [List.length_take]
    omega
  · rw [List.flatten_append, ← List.append_assoc]
    exact ⟨hlen,List.prefix_append ..⟩

/-- A request is framed by the length that its parser has read from the header. -/
theorem recvRequest_framed_of_length {c : Config} {u : Uninit} {head : Bytes} {d : HttpRequest}
    (h : Accepted u head d) {n : ℕ}
    (hn : (d.getHeaderAs c.lexicalCast (bytes "content-length") 0).toNat = n) (hlt : n < 2^63)
    {data : Bytes} {later : List Bytes}
    (hlegal : recvRequest c u ((head++data) :: later) ≠ .error .overrun) :
    Framed n (data++later.flatten) (recvRequest c u ((head++data) :: later)) := by
  have hne : head++data ≠ [] := List.append_ne_nil_of_left_ne_nil h.ne_nil _
  by_cases hread : Deliverable c.buffSize (head++data)
  swap
  · exact absurd (recvRequest_of_error (recvHead_overrun hne hread later)) hlegal
  obtain ⟨q,rfl,hhead⟩ := recvHead_of_accepted h hread later
  split_ifs at hhead
  · exact .inl ⟨later,recvRequest_of_none hhead⟩
  have hlength : int64 (q.getContentLength c.lexicalCast).toNat = n := by
    rw [HttpRequestParser.getContentLength, hn, int64_of_lt hlt]
  rw [recvRequest_of_recvHead hhead hlength] at hlegal ⊢
  split_ifs at hlegal ⊢ with hpos
  · cases hx : recvBody n data later with
    | error e =>
      obtain rfl := recvBody_error hx
      rw [hx] at hlegal
      exact absurd rfl hlegal
    | ok x =>
      obtain ⟨body,rest⟩ := x
      cases body with
      | none => exact .inl ⟨rest,rfl⟩
      | some body =>
        obtain ⟨hlen,hhead⟩ := body_of_recvBody hpos hx
        refine .inr ⟨_,rest,rfl,?_,?_⟩
        · rw [init_body]
          exact Int.ofNat.inj hlen
        · rw [init_body]
          exact hhead
  · refine .inr ⟨_,later,rfl,?_,?_⟩
    · rw [init_body, h.body, List.length_nil]
      omega
    · rw [init_body, h.body]
      exact List.nil_prefix

end HttpSession

/-- A numeral with a blank behind it is none. -/
example : lexicalCast (bytes "5 ") = none := by decide

/-- A head whose header `content-length` has the value `v`. -/
def lengthHead (v : Bytes) : Bytes :=
  bytes "POST / HTTP/1.1\r\ncontent-length: "++v++bytes "\r\n\r\n"

def lengthRequest (v : Bytes) : HttpRequest :=
  { HttpRequest.new with method := .POST, headers := [(bytes "content-length",v)] }

theorem lengthHead_accepted {v : Bytes} (hv : v ∈ [bytes "3",bytes "x"]) :
    Accepted ⟨0,false⟩ (lengthHead v) (lengthRequest v) := by
  have hrun : ∀ v ∈ [bytes "3",bytes "x"],
      (HttpRequestParser.new ⟨0,false⟩).execute (lengthHead v) =
        .ok (⟨⟨.requestDone,38,0,33,36,14,0,false,false,false⟩,0,lengthRequest v⟩,
          (lengthHead v).length,[]) := by decide +kernel
  have hcs : State.requestDone ≠ .error := by decide
  exact ⟨_,hrun v hv,not_or.mpr ⟨not_not.mpr rfl,hcs⟩,trivial,rfl⟩

/-- The digits `v` are a numeral of `n` between blanks. -/
def PaddedDecimal (v : Bytes) (n : ℕ) : Prop :=
  ∃ before digits after, v = before++digits++after ∧ (∀ b ∈ before++after, b = 32 ∨ b = 9) ∧
    Decimal digits n

end CoroutineWebserve.Http
