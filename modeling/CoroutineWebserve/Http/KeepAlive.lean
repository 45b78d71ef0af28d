import CoroutineWebserve.Http.Lexical
import CoroutineWebserve.Http.Receive

/-!
# Requests on a kept connection

A connection that is kept gives one request after the other. `recvRequest` reads into a
buffer of its own, so the bytes it reads behind a request are lost for the next call.
-/
namespace CoroutineWebserve.Http

/-! ### Requests and what is received of them -/

/-- A request on the wire, and what its head says. -/
structure Message where
  head : Bytes
  body : Bytes
  request : HttpRequest

/-- The bytes of requests one behind the other. -/
def stream : List Message → Bytes
  | [] => []
  | m :: messages => m.head++m.body++stream messages

/-- A well-formed request that keeps the connection: its head is accepted, and the body is as
long as the header says, or there is none of both. -/
structure WellFormed (u : Uninit) (m : Message) : Prop where
  accepted : Accepted u m.head m.request
  keepAlive : folded (m.request.getHeader (bytes "connection")) = folded (bytes "keep-alive")
  length : m.request.headers.find (bytes "content-length") = none ∧ m.body = [] ∨
    ∃ v, m.request.headers.find (bytes "content-length") = some v ∧ Decimal v m.body.length

/-- The request that `recvRequest` should return. -/
def Message.received (m : Message) : HttpRequest := { m.request with body := m.body }.init

/-- No read begins behind the first byte of a head and in it. -/
def HeadsWhole (messages : List Message) (reads : List Bytes) : Prop :=
  ∀ later, later <:+ reads → ∀ m rest, m :: rest <:+ messages →
    later.flatten.length ≤ (m.body++stream rest).length ∨
      (stream (m :: rest)).length ≤ later.flatten.length

/-- The reads of one request end where it ends, and no integer on the way wraps around. -/
structure Received (c : Config) (m : Message) (group : List Bytes) : Prop where
  whole : group.flatten = m.head++m.body
  offset : ((group.headD []).length-m.head.length : ℤ) ≠ int c.buffSize
  length : m.body.length < 2^63
  left : (group.headD []).length < (m.head++m.body).length →
    0 < int ((m.head++m.body).length-(group.headD []).length)

@[simp] theorem Message.received_body (m : Message) : m.received.body = m.body :=
  init_body _

theorem WellFormed.close {u : Uninit} {m : Message} (h : WellFormed u m) :
    m.received.close = false := by
  have hk := h.keepAlive
  have hne : m.request.getHeader (bytes "connection") ≠ [] := by
    intro h0
    rw [h0] at hk
    exact absurd hk (by decide)
  have hget : { m.request with body := m.body }.getHeader (bytes "connection") =
      m.request.getHeader (bytes "connection") := rfl
  simp only [Message.received, HttpRequest.init, hget, if_neg hne, hk, ne_eq, not_true_eq_false,
    decide_false]

theorem WellFormed.contentLength {c : Config} (hcast : CastsDecimals c.lexicalCast) {u : Uninit}
    {m : Message} (h : WellFormed u m) {r : HttpRequestParser} (hr : r.data = m.request) :
    (r.getContentLength c.lexicalCast).toNat =
      if m.body.length < 2^64 then m.body.length else 0 := by
  simp only [HttpRequestParser.getContentLength, HttpRequest.getHeaderAs, hr]
  rcases h.length with ⟨hno,hb⟩ | ⟨v,hv,hd⟩
  · rw [hno, hb]
    rfl
  · rw [hv, Option.bind_some, hcast v _ hd]
    split_ifs with hlt
    · exact UInt64.toNat_ofNat_of_lt hlt
    · rfl

namespace HttpSession

/-- What a request takes from the reads: no less than its head and its body. -/
theorem exists_of_recvRequest {c : Config} (hcast : CastsDecimals c.lexicalCast) {u : Uninit}
    {m : Message} (hm : WellFormed u m) {data : Bytes} {reads rest : List Bytes}
    (h : recvRequest c u ((m.head++data) :: reads) = .ok (some m.received,rest)) :
    ∃ taken, reads = taken++rest ∧ m.body.length ≤ data.length+taken.flatten.length ∧
      (data.length : ℤ) ≠ int c.buffSize ∧ m.body.length < 2^63 ∧
      (data.length < m.body.length → 0 < int (m.body.length-data.length)) := by
  have hne : m.head++data ≠ [] := List.append_ne_nil_of_left_ne_nil hm.accepted.ne_nil _
  by_cases hread : Deliverable c.buffSize (m.head++data)
  swap
  · rw [recvRequest_of_error (recvHead_overrun hne hread reads)] at h
    cases h
  obtain ⟨q,hd,hhead⟩ := recvHead_of_accepted hm.accepted hread reads
  split_ifs at hhead with hbuf
  · rw [recvRequest_of_none hhead] at h
    cases h
  have hlen := hm.contentLength hcast hd
  have hlt := UInt64.toNat_lt (q.getContentLength c.lexicalCast)
  rw [recvRequest_of_recvHead hhead rfl] at h
  generalize (q.getContentLength c.lexicalCast).toNat = n at h hlen hlt
  split_ifs at h with hpos
  · obtain ⟨h63,hint⟩ := int64_of_pos hlt hpos
    obtain rfl : n = m.body.length := by
      split_ifs at hlen
      · exact hlen
      · rw [hlen, int64_of_lt (by decide)] at hpos
        omega
    rw [hint] at h
    obtain ⟨⟨body,reads'⟩,hx,h⟩ := exists_of_map h
    obtain ⟨hreq,rfl⟩ := Prod.mk.inj h
    cases body with
    | none => cases hreq
    | some body =>
      obtain rfl : body = m.body := by
        have := congrArg HttpRequest.body (Option.some.inj hreq)
        simpa using this
      rcases exists_of_recvBody hx with ⟨hle,rfl,-⟩ | ⟨hgt,hread,taken,rfl,hb,-⟩
      · exact ⟨[],rfl,by simp; omega,hbuf,h63,by omega⟩
      · refine ⟨taken,rfl,?_,hbuf,h63,fun _ => ?_⟩
        · rw [← List.length_append, ← hb]
        · rwa [show ((m.body.length : ℤ)-data.length).toNat = m.body.length-data.length by omega]
            at hread
  · obtain ⟨hreq,rfl⟩ := Prod.mk.inj (Except.ok.inj h)
    have hbody : m.body = [] := by
      have := congrArg HttpRequest.body (Option.some.inj hreq)
      rw [init_body, hd, hm.accepted.body, Message.received_body] at this
      exact this.symm
    exact ⟨[],rfl,by simp [hbody],hbuf,by simp [hbody],by simp [hbody]⟩

/-- A request of accepted head, with the body that its head announces. -/
theorem recvRequest_of_accepted {c : Config} {u : Uninit} {m : Message}
    (haccepted : Accepted u m.head m.request)
    (hlength : ∀ q : HttpRequestParser, q.data = m.request →
      (q.getContentLength c.lexicalCast).toNat = m.body.length) {data : Bytes} {taken : List Bytes}
    (htaken : ∀ piece ∈ taken, piece ≠ [] ∧ piece.length < 2^31)
    (hread : Deliverable c.buffSize (m.head++data))
    (h : Received c m ((m.head++data) :: taken)) (rest : List Bytes) :
    recvRequest c u ((m.head++data) :: (taken++rest)) = .ok (some m.received,rest) := by
  obtain ⟨hwhole,hoffset,h63,hleft⟩ := h
  simp only [List.headD_cons, List.length_append] at hoffset hleft
  have hbody : data++taken.flatten = m.body := by
    rw [List.flatten_cons, List.append_assoc] at hwhole
    exact List.append_cancel_left hwhole
  obtain ⟨q,hd,hhead⟩ := recvHead_of_accepted haccepted hread (taken++rest)
  have hbuf : (data.length : ℤ) ≠ int c.buffSize := by
    intro h0
    rw [← h0] at hoffset
    exact hoffset (by omega)
  rw [if_neg hbuf] at hhead
  rw [recvRequest_of_recvHead hhead rfl, hlength q hd, int64_of_lt h63]
  split_ifs with hpos
  · have hint : data.length < m.body.length → 0 < int (m.body.length-data.length) := by
      intro hlt
      rw [← Nat.add_sub_add_left m.head.length]
      exact hleft (by omega)
    rw [recvBody_append htaken (by rw [← List.length_append, hbody]) hint rest, hbody,
      Message.received, ← hd]
    rfl
  · have hnil : m.body = [] := List.length_eq_zero_iff.mp (by omega)
    rw [hnil, List.append_eq_nil_iff] at hbody
    have htn : taken = [] := by
      cases taken with
      | nil => rfl
      | cons piece taken =>
        exact absurd hbody.2 (List.append_ne_nil_of_left_ne_nil (htaken piece (by simp)).1 _)
    have hb := haccepted.body
    rw [htn, List.nil_append, hd, Message.received, hnil, ← hb]

/-- A request whose reads end where it ends is received. -/
theorem recvRequest_of_received {c : Config} (hcast : CastsDecimals c.lexicalCast) {u : Uninit}
    {m : Message} (hm : WellFormed u m) {data : Bytes} {taken : List Bytes}
    (htaken : ∀ piece ∈ taken, piece ≠ [] ∧ piece.length < 2^31)
    (hread : Deliverable c.buffSize (m.head++data))
    (h : Received c m ((m.head++data) :: taken)) (rest : List Bytes) :
    recvRequest c u ((m.head++data) :: (taken++rest)) = .ok (some m.received,rest) := by
  refine recvRequest_of_accepted hm.accepted (fun q hq => ?_) htaken hread h rest
  have h63 := h.length
  rw [hm.contentLength hcast hq, if_pos (by omega)]

end HttpSession

/-! ### The rounds of `handleClient` -/

/-- A round that hands over a request ends the connection, or the next round follows. -/
theorem serve_eq_cons {c : Config} {rounds : ℕ} {u : ℕ → Uninit} {reads : List Bytes}
    {d : HttpRequest} {more : List HttpRequest}
    (h : serve c true rounds u reads = .ok (d :: more)) :
    ∃ n rest, rounds = n+1 ∧ HttpSession.recvRequest c (u 0) reads = .ok (some d,rest) ∧
      (d.close = true ∧ more = [] ∨
        d.close = false ∧ serve c true n (fun i => u (i+1)) rest = .ok more) := by
  cases rounds with
  | zero => cases h
  | succ n =>
    rw [serve] at h
    obtain ⟨⟨req,rest⟩,hreq,h⟩ := exists_of_bind h
    cases req with
    | none => cases h
    | some req =>
      simp only [Bool.not_true, Bool.false_or] at h
      split_ifs at h with hclose
      · cases h
        exact ⟨n,rest,rfl,hreq,.inl ⟨hclose,rfl⟩⟩
      · obtain ⟨ds,hmore,h⟩ := exists_of_bind h
        cases h
        exact ⟨n,rest,rfl,hreq,.inr ⟨Bool.eq_false_of_not_eq_true hclose,hmore⟩⟩

theorem serve_of_recvRequest {c : Config} {n : ℕ} {u : ℕ → Uninit} {reads rest : List Bytes}
    {d : HttpRequest} (h : HttpSession.recvRequest c (u 0) reads = .ok (some d,rest))
    (hclose : d.close = false) :
    serve c true (n+1) u reads = (serve c true n (fun i => u (i+1)) rest).map (d :: ·) := by
  rw [serve, h, ok_bind]
  simp only [hclose, Bool.not_true, Bool.or_self, Bool.false_eq_true, if_false]
  cases serve c true n (fun i => u (i+1)) rest <;> rfl

theorem serve_nil {c : Config} {n : ℕ} {u : ℕ → Uninit} : serve c true n u [] = .ok [] := by
  cases n <;> rfl

/-- If every request is received, the reads left for the rest hold all its bytes: a request
takes a byte at least, and no read ends in its head. -/
theorem stream_le {c : Config} {messages : List Message} {reads : List Bytes}
    (hheads : HeadsWhole messages reads) {rest : List Message} (hrest : rest <:+ messages)
    {later : List Bytes} (hlater : later <:+ reads) {rounds : ℕ} {u : ℕ → Uninit}
    (h : serve c true rounds u later = .ok (rest.map Message.received)) :
    (stream rest).length ≤ later.flatten.length := by
  induction rest generalizing later rounds u with
  | nil => exact Nat.zero_le _
  | cons m rest ih =>
    obtain ⟨n,reads',-,hreq,hmore⟩ := serve_eq_cons h
    obtain ⟨hlt,hsuffix⟩ := HttpSession.lt_of_recvRequest hreq
    have hle : (stream rest).length ≤ reads'.flatten.length := by
      rcases hmore with ⟨-,hnil⟩ | ⟨-,hmore⟩
      · rw [List.map_eq_nil_iff.mp hnil]
        exact Nat.zero_le _
      · exact ih ((List.suffix_cons ..).trans hrest) (hsuffix.trans hlater) hmore
    rw [Message.received_body] at hlt
    rcases hheads later hlater m rest hrest with hin | hwhole
    · rw [List.length_append] at hin
      omega
    · exact hwhole

theorem HeadsWhole.mono {messages messages' : List Message} {reads reads' : List Bytes}
    (h : HeadsWhole messages reads) (hm : messages' <:+ messages) (hr : reads' <:+ reads) :
    HeadsWhole messages' reads' := fun later hlater m rest hrest =>
  h later (hlater.trans hr) m rest (hrest.trans hm)

/-- The first read holds the first head. -/
theorem exists_first {m : Message} {messages : List Message} {reads : List Bytes}
    (hheads : HeadsWhole (m :: messages) reads) (hreads : ∀ piece ∈ reads, piece ≠ [])
    (hm : m.head ≠ []) (hflat : reads.flatten = stream (m :: messages)) :
    ∃ data later, reads = (m.head++data) :: later ∧
      data++later.flatten = m.body++stream messages := by
  cases reads with
  | nil =>
    have := congrArg List.length hflat
    have hpos := List.length_pos_iff.mpr hm
    simp only [List.flatten_nil, List.length_nil, stream, List.length_append] at this
    omega
  | cons first later =>
    have hpos := List.length_pos_iff.mpr (hreads first List.mem_cons_self)
    have hlen := congrArg List.length hflat
    rw [List.flatten_cons, List.length_append] at hlen
    have hle : m.head.length ≤ first.length := by
      rcases hheads later (List.suffix_cons ..) m messages List.suffix_rfl with hin | hwhole
      · simp only [stream, List.length_append] at hlen hin
        omega
      · omega
    rw [List.flatten_cons, stream, List.append_assoc] at hflat
    have hprefix : m.head <+: first :=
      List.prefix_of_prefix_length_le ⟨_,rfl⟩ ⟨later.flatten,hflat⟩ hle
    obtain ⟨data,rfl⟩ := hprefix
    rw [List.append_assoc] at hflat
    exact ⟨data,later,rfl,List.append_cancel_left hflat⟩

section serve
variable {c : Config}

theorem exists_groups (hcast : CastsDecimals c.lexicalCast) {messages : List Message}
    {reads : List Bytes} (hreads : ∀ piece ∈ reads, piece ≠ [])
    (hflat : reads.flatten = stream messages) (hheads : HeadsWhole messages reads)
    {rounds : ℕ} {u : ℕ → Uninit}
    (hmessages : ∀ i m, messages[i]? = some m → WellFormed (u i) m)
    (h : serve c true rounds u reads = .ok (messages.map Message.received)) :
    ∃ groups, reads = groups.flatten ∧ List.Forall₂ (Received c) messages groups := by
  induction messages generalizing reads rounds u with
  | nil =>
    refine ⟨[],?_,.nil⟩
    cases reads with
    | nil => rfl
    | cons piece reads =>
      exact absurd (List.append_eq_nil_iff.mp hflat).1 (hreads piece List.mem_cons_self)
  | cons m messages ih =>
    have hm := hmessages 0 m rfl
    obtain ⟨data,later,rfl,hrest⟩ := exists_first hheads hreads hm.accepted.ne_nil hflat
    obtain ⟨n,rest,-,hreq,hmore⟩ := serve_eq_cons h
    obtain ⟨taken,rfl,hle,hbuf,h63,hint⟩ := HttpSession.exists_of_recvRequest hcast hm hreq
    have hmore : serve c true n (fun i => u (i+1)) rest = .ok (messages.map Message.received) := by
      rcases hmore with ⟨hclose,-⟩ | ⟨-,hmore⟩
      · rw [hm.close] at hclose
        cases hclose
      · exact hmore
    have hsuffix : rest <:+ (m.head++data) :: (taken++rest) :=
      (List.suffix_append ..).trans (List.suffix_cons ..)
    -- The rest of the stream needs all the bytes that are left, so this request took its own.
    have hstream := stream_le hheads (List.suffix_cons ..) hsuffix hmore
    rw [List.flatten_append, ← List.append_assoc] at hrest
    have hlen : (data++taken.flatten).length = m.body.length := by
      have := congrArg List.length hrest
      simp only [List.length_append] at this ⊢
      omega
    obtain ⟨hbody,hflat'⟩ := List.append_inj hrest hlen
    obtain ⟨groups,rfl,hgroups⟩ := ih (fun p hp => hreads p (hsuffix.subset hp)) hflat'
      (hheads.mono (List.suffix_cons ..) hsuffix) (fun i m h => hmessages (i+1) m h) hmore
    refine ⟨((m.head++data) :: taken) :: groups,rfl,.cons ⟨?_,?_,h63,fun hlt => ?_⟩ hgroups⟩
    · rw [List.flatten_cons, List.append_assoc, hbody]
    · rw [List.headD_cons, List.length_append]
      omega
    · simp only [List.headD_cons, List.length_append] at hlt ⊢
      rw [Nat.add_sub_add_left]
      exact hint (by omega)

theorem stream_of_groups {messages : List Message} {groups : List (List Bytes)}
    (h : List.Forall₂ (Received c) messages groups) :
    groups.flatten.flatten = stream messages := by
  induction h with
  | nil => rfl
  | cons hm _ ih => rw [List.flatten_cons, List.flatten_append, hm.whole, ih, stream]

theorem serve_of_groups (hcast : CastsDecimals c.lexicalCast) {messages : List Message}
    {groups : List (List Bytes)} (hgroups : List.Forall₂ (Received c) messages groups)
    (hreads : ∀ piece ∈ groups.flatten, piece ≠ [] ∧ piece.length < 2^31)
    (hheads : HeadsWhole messages groups.flatten) {rounds : ℕ}
    (hrounds : groups.flatten.length < rounds) {u : ℕ → Uninit}
    (hmessages : ∀ i m, messages[i]? = some m → WellFormed (u i) m)
    (hlegal : serve c true rounds u groups.flatten ≠ .error .overrun) :
    serve c true rounds u groups.flatten = .ok (messages.map Message.received) := by
  induction hgroups generalizing rounds u with
  | nil => exact serve_nil
  | @cons m group messages groups hgroup htail ih =>
    have hm := hmessages 0 m rfl
    obtain ⟨n,rfl⟩ : ∃ n, rounds = n+1 := ⟨rounds-1,by omega⟩
    obtain ⟨data,later,hlater,-⟩ := exists_first hheads (fun p hp => (hreads p hp).1)
      hm.accepted.ne_nil (stream_of_groups (.cons hgroup htail))
    obtain ⟨taken,rfl⟩ : ∃ taken, group = (m.head++data) :: taken := by
      cases group with
      | nil =>
        have := hgroup.whole
        exact absurd (List.append_eq_nil_iff.mp this.symm).1 hm.accepted.ne_nil
      | cons first taken =>
        cases hlater
        exact ⟨taken,rfl⟩
    simp only [List.flatten_cons, List.cons_append, List.length_cons, List.length_append]
      at hreads hheads hrounds hlegal ⊢
    have hread : Deliverable c.buffSize (m.head++data) := by
      have hne := (hreads _ List.mem_cons_self).1
      by_contra hno
      refine hlegal ?_
      rw [serve, HttpSession.recvRequest_of_error (HttpSession.recvHead_overrun hne hno _)]
      rfl
    have hreq := HttpSession.recvRequest_of_received hcast hm
      (fun p hp => hreads p (List.mem_cons_of_mem _ (List.mem_append_left _ hp))) hread hgroup
      groups.flatten
    have hserve := serve_of_recvRequest (n := n) hreq hm.close
    rw [hserve] at hlegal ⊢
    have hsuffix : groups.flatten <:+ (m.head++data) :: (taken++groups.flatten) :=
      (List.suffix_append ..).trans (List.suffix_cons ..)
    rw [ih (fun p hp => hreads p (hsuffix.subset hp)) (hheads.mono (List.suffix_cons ..) hsuffix)
      (by omega) (fun i m h => hmessages (i+1) m h) fun he => hlegal (by rw [he]; rfl)]
    rfl

/-- On a kept connection every request is received, with its body and in order, exactly when
the reads of each request end where it ends. -/
theorem handleClient_eq_iff (hcast : CastsDecimals c.lexicalCast) {u : ℕ → Uninit}
    {messages : List Message} (hmessages : ∀ i m, messages[i]? = some m → WellFormed (u i) m)
    {reads : List Bytes} (hreads : ∀ piece ∈ reads, piece ≠ [] ∧ piece.length < 2^31)
    (hflat : reads.flatten = stream messages) (hheads : HeadsWhole messages reads)
    (hlegal : handleClient c true u reads ≠ .error .overrun) :
    handleClient c true u reads = .ok (messages.map Message.received) ↔
      ∃ groups, reads = groups.flatten ∧ List.Forall₂ (Received c) messages groups := by
  constructor
  · exact exists_groups hcast (fun p hp => (hreads p hp).1) hflat hheads hmessages
  · rintro ⟨groups,rfl,hgroups⟩
    exact serve_of_groups hcast hgroups hreads hheads (Nat.lt_succ_self _) hmessages hlegal

end serve

instance (messages : List Message) (reads : List Bytes) : Decidable (HeadsWhole messages reads) :=
  decidable_of_iff (∀ later ∈ reads.tails, ∀ rest ∈ messages.tails, ∀ m ∈ rest.head?,
      later.flatten.length ≤ (m.body++stream rest.tail).length ∨
        (stream rest).length ≤ later.flatten.length) <| by
    constructor
    · exact fun h later hlater m rest hrest =>
        h later ((List.mem_tails ..).mpr hlater) (m :: rest) ((List.mem_tails ..).mpr hrest) m rfl
    · intro h later hlater rest hrest m hm
      obtain ⟨m',rest,rfl⟩ : ∃ m' rest', rest = m' :: rest' := by
        cases rest with
        | nil => cases hm
        | cons m' rest => exact ⟨m',rest,rfl⟩
      cases hm
      exact h later ((List.mem_tails ..).mp hlater) m rest ((List.mem_tails ..).mp hrest)

/-- A request with a body of three bytes. -/
def keptMessage : Message where
  head := bytes "POST / HTTP/1.1\r\nconnection: keep-alive\r\ncontent-length: 3\r\n\r\n"
  body := bytes "abc"
  request := { HttpRequest.new with
    method := .POST
    headers := [(bytes "connection",bytes "keep-alive"),(bytes "content-length",bytes "3")] }

theorem keptMessage_wellFormed : WellFormed ⟨0,false⟩ keptMessage where
  accepted := ⟨⟨⟨.requestDone,62,0,57,60,14,0,false,false,false⟩,0,keptMessage.request⟩,
    by decide +kernel,by decide,by decide,rfl⟩
  keepAlive := by decide
  length := .inr ⟨bytes "3",by decide +kernel,by decide +kernel⟩

theorem wellFormed_of_replicate {n i : ℕ} {m : Message}
    (h : (List.replicate n keptMessage)[i]? = some m) : WellFormed ⟨0,false⟩ m := by
  obtain ⟨-,rfl⟩ := List.mem_replicate.mp (List.mem_of_getElem? h)
  exact keptMessage_wellFormed

/-- A cut in the body. -/
theorem handleClient_eq_iff_cut :
    handleClient ⟨4096,lexicalCast⟩ true (fun _ => ⟨0,false⟩)
        [keptMessage.head++bytes "a",bytes "bc"] =
      .ok ((List.replicate 1 keptMessage).map Message.received) ↔
      ∃ groups, [keptMessage.head++bytes "a",bytes "bc"] = groups.flatten ∧
        List.Forall₂ (Received ⟨4096,lexicalCast⟩) (List.replicate 1 keptMessage) groups :=
  handleClient_eq_iff lexicalCast_castsDecimals (fun _ _ => wellFormed_of_replicate)
    (by decide) (by decide) (by decide) (by decide +kernel)

/-- Two requests in one read: the second one is lost. -/
theorem handleClient_of_two_in_one : ¬∀ (c : Config) (u : ℕ → Uninit) (messages : List Message)
    (reads : List Bytes), CastsDecimals c.lexicalCast →
    (∀ i m, messages[i]? = some m → WellFormed (u i) m) →
    (∀ piece ∈ reads, piece ≠ [] ∧ piece.length < 2^31) → reads.flatten = stream messages →
    HeadsWhole messages reads → handleClient c true u reads ≠ .error .overrun →
    handleClient c true u reads = .ok (messages.map Message.received) := by
  intro h
  have hrun : handleClient ⟨4096,lexicalCast⟩ true (fun _ => ⟨0,false⟩)
      [stream (List.replicate 2 keptMessage)] = .ok [keptMessage.received] := by decide +kernel
  have htwo := h ⟨4096,lexicalCast⟩ (fun _ => ⟨0,false⟩) (List.replicate 2 keptMessage)
    [stream (List.replicate 2 keptMessage)] lexicalCast_castsDecimals
    (fun _ _ => wellFormed_of_replicate) (by decide +kernel) (by decide)
    (by decide +kernel) (by rw [hrun]; nofun)
  rw [hrun] at htwo
  cases htwo

end CoroutineWebserve.Http
