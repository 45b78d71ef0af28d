import CoroutineWebserve.Client.Chunked
import CoroutineWebserve.Client.SizeLine

/-!
# Where the body of a response goes

`recvResponse` puts the body together in a local variable. No callback of the parser sets the
body of the response object, and the call of `setBody` is commented out.
-/
namespace CoroutineWebserve.Client
open Http

/-- `getBody()`. -/
def HttpResponse.getBody (r : HttpResponse) : Bytes := r.body

theorem update_body (r : HttpResponseParser) (u : Update) :
    (r.update u).data.body = r.data.body := by
  cases u <;> rfl

theorem foldl_update_body (updates : List Update) (r : HttpResponseParser) :
    (updates.foldl .update r).data.body = r.data.body := by
  induction updates generalizing r with
  | nil => rfl
  | cons u updates ih => rw [List.foldl_cons, ih, update_body]

namespace HttpConnection
variable {buffSize : ℕ} {r q : HttpResponseParser} {data left : Bytes} {reads rest : List Bytes}

theorem execute_body {chunck : Bool} {n : ℕ} (h : r.execute data chunck = .ok (q,n,left)) :
    q.data.body = r.data.body := by
  obtain ⟨us,rfl,-⟩ := exists_of_execute h
  exact foldl_update_body us r

theorem recvHead_body (h : recvHead buffSize r data reads = .ok (some (q,left),rest)) :
    q.data.body = r.data.body := by
  induction reads generalizing r data with
  | nil => cases h
  | cons piece reads ih =>
    obtain ⟨-,-,y,n,d,hexecute,-,hnext⟩ := recvHead_cons_some h
    have hbody := execute_body hexecute
    split_ifs at hnext
    · rw [hnext.1, hbody]
    · exact (ih hnext).trans hbody

theorem parseChunkLine_body (h : parseChunkLine buffSize r data = .ok (some (q,left))) :
    q.data.body = r.data.body := by
  obtain ⟨⟨parser,n,data'⟩,hx,h⟩ := exists_of_bind h
  dsimp only at h
  split_ifs at h
  · cases h
  · cases h
  · cases h
    exact execute_body hx

theorem readChunkLine_body (h : readChunkLine buffSize r data reads = .ok (some (q,left),rest)) :
    q.data.body = r.data.body := by
  induction reads generalizing r data with
  | nil => cases h
  | cons piece reads ih =>
    obtain ⟨-,-,y,d,hparse,hnext⟩ := readChunkLine_cons_some h
    have hbody := parseChunkLine_body hparse
    split_ifs at hnext
    · rw [hnext.1, hbody]
    · exact (ih hnext).trans hbody

theorem recvChunkLine_body (h : recvChunkLine buffSize r data reads = .ok (some (q,left),rest)) :
    q.data.body = r.data.body := by
  unfold recvChunkLine at h
  split at h
  · exact readChunkLine_body h
  · obtain ⟨x,hx,h⟩ := exists_of_bind h
    split at h
    · cases h
    · have hbody := parseChunkLine_body hx
      split_ifs at h
      · cases h
        exact hbody
      · exact (readChunkLine_body h).trans hbody

theorem recvChunks_body {rounds : ℕ} {body content : Bytes}
    (h : recvChunks buffSize rounds r body data reads = .ok (some (q,content),rest)) :
    q.data.body = r.data.body := by
  induction rounds generalizing r body data reads with
  | zero => cases h
  | succ rounds ih =>
    obtain ⟨⟨line,reads₁⟩,hx,h⟩ := exists_of_bind h
    cases line with
    | none => cases h
    | some line =>
      have hbody := recvChunkLine_body hx
      obtain ⟨⟨payload,reads₂⟩,-,h⟩ := exists_of_bind h
      cases payload with
      | none => cases h
      | some payload =>
        dsimp only at h
        split_ifs at h
        · cases h
          exact hbody
        · exact (ih h).trans hbody

/-- The response that is returned has no body. -/
theorem recvResponse_body {c : Config} {response : HttpResponse} {content : Bytes}
    (h : recvResponse c reads = .ok (some (response,content),rest)) : response.getBody = [] := by
  obtain ⟨⟨head,reads₁⟩,hx,h⟩ := exists_of_bind h
  cases head with
  | none => cases h
  | some head =>
    obtain ⟨parser,data⟩ := head
    have hhead : parser.data.body = [] := recvHead_body hx
    dsimp only at h
    by_cases hchunked : parser.parser.chunked = true
    · rw [if_pos hchunked] at h
      obtain ⟨⟨result,reads₂⟩,hy,h⟩ := exists_of_bind h
      cases result with
      | none => cases h
      | some result =>
        cases h
        exact (recvChunks_body hy).trans hhead
    · rw [if_neg hchunked] at h
      generalize int64 (parser.getContentLength c.lexicalCast).toNat = length at h
      by_cases hpos : 0 < length
      · rw [if_pos hpos] at h
        obtain ⟨⟨result,reads₂⟩,-,h⟩ := exists_of_bind h
        cases result with
        | none => cases h
        | some result =>
          cases h
          exact hhead
      · rw [if_neg hpos] at h
        cases h
        exact hhead

/-- Behind a head that declares a length the body is what `recvBody` gives. -/
theorem recvResponse_of_length {c : Config} {parser : HttpResponseParser}
    (hhead : recvHead c.buffSize .new [] reads = .ok (some (parser,data),rest))
    (hchunked : ¬parser.parser.chunked) {n : ℕ} (hn : 0 < n) (hlt : n < 2^63)
    (hlength : (parser.getContentLength c.lexicalCast).toNat = n) :
    recvResponse c reads = HttpSession.recvBody n data rest >>= fun x =>
      .ok (x.1.map fun body => (parser.data,body),x.2) := by
  rw [recvResponse, hhead, ok_bind]
  dsimp only
  rw [if_neg hchunked, hlength, int64_of_lt hlt, if_pos (by exact_mod_cast hn)]
  rfl

end HttpConnection

open HttpConnection

/-- The first read holds a head that declares `n` bytes and no chunks, and `data` behind it. -/
def DeclaresLength (c : Config) (first : Bytes) (n : ℕ) (data : Bytes) : Prop :=
  ∃ parser : HttpResponseParser, (∀ reads, recvHead c.buffSize .new [] (first :: reads) =
      .ok (some (parser,data),reads)) ∧
    ¬parser.parser.chunked ∧ (parser.getContentLength c.lexicalCast).toNat = n

/-- The body of `n` bytes: it is in the buffer, or the reads up to `rest` give what is missing. -/
def Delivers (data : Bytes) (reads : List Bytes) (n : ℕ) (body : Bytes) (rest : List Bytes) :
    Prop :=
  n ≤ data.length ∧ body = data.take n ∧ rest = reads ∨
    data.length < n ∧ ∃ taken, reads = taken++rest ∧
      (∀ piece ∈ taken, piece ≠ [] ∧ piece.length < 2^31) ∧
      body = data++taken.flatten ∧ body.length = n

/-- `recvResponse` returns a response with this body. -/
def KeepsBody (c : Config) (reads : List Bytes) (body : Bytes) : Prop :=
  ∃ response content rest, recvResponse c reads = .ok (some (response,content),rest) ∧
    response.getBody = body

theorem keepsBody_nil {c : Config} {reads : List Bytes} {body : Bytes}
    (h : KeepsBody c reads body) : body = [] := by
  obtain ⟨response,content,rest,hrun,hbody⟩ := h
  rw [← hbody, recvResponse_body hrun]

/-- A body of declared length is put together as it was sent. -/
theorem recvResponse_delivered {c : Config} {first : Bytes} {n : ℕ} {data body : Bytes}
    {reads rest : List Bytes} (hn : 0 < n) (hlt : n < 2^31) (hhead : DeclaresLength c first n data)
    (hbody : Delivers data reads n body rest) :
    ∃ response, recvResponse c (first :: reads) = .ok (some (response,body),rest) := by
  obtain ⟨parser,hrecv,hchunked,hlength⟩ := hhead
  rw [recvResponse_of_length (hrecv reads) hchunked hn (by omega) hlength]
  rcases hbody with ⟨hle,rfl,rfl⟩ | ⟨hmissing,taken,rfl,htaken,rfl,hlen⟩
  · refine ⟨parser.data,?_⟩
    rw [HttpSession.recvBody, if_pos (by exact_mod_cast hle), ok_bind]
    rfl
  · refine ⟨parser.data,?_⟩
    have hint : data.length < n → 0 < int (n-data.length) := by
      intro hlt'
      have hsmall : int (n-data.length) = (n-data.length : ℕ) := intOf_of_lt (by omega)
      rw [hsmall]
      omega
    rw [List.length_append] at hlen
    rw [HttpSession.recvBody_append htaken hlen hint rest, ok_bind]
    rfl

/-- The local variable has the body, and the response that is returned has none: a declared body
never arrives, and one of chunks arrives exactly if no byte is in it. -/
theorem body_lost (c : Config) :
    (∀ (first : Bytes) (n : ℕ) (data body : Bytes) (reads rest : List Bytes), 0 < n → n < 2^31 →
      DeclaresLength c first n data → Delivers data reads n body rest →
      (∃ response, recvResponse c (first :: reads) = .ok (some (response,body),rest)) ∧
        ¬KeepsBody c (first :: reads) body) ∧
    (∀ (reads rest : List Bytes) (response : HttpResponse) (content : Bytes),
      recvResponse c reads = .ok (some (response,content),rest) →
      (response.getBody = content ↔ content = [])) ∧
    (∀ (reads rest : List Bytes) (parser : HttpResponseParser) (data : Bytes)
      (chunks : List Chunk), c.buffSize < 2^31 →
      recvHead c.buffSize .new [] reads = .ok (some (parser,data),rest) →
      parser.parser.chunked → (∀ c ∈ chunks, c.WellFormed ∧ c.payload ≠ []) →
      data++rest.flatten = (chunks++[Chunk.last]).flatMap Chunk.text →
      (∀ piece ∈ rest, piece ≠ []) → recvResponse c reads ≠ .error .overrun →
      LinesWhole (chunks++[Chunk.last]) data rest →
      (KeepsBody c reads (chunks.flatMap Chunk.payload) ↔ chunks = [])) := by
  refine ⟨?_,?_,?_⟩
  · intro first n data body reads rest hn hlt hhead hbody
    refine ⟨recvResponse_delivered hn hlt hhead hbody,fun hkeeps => ?_⟩
    have hnil := keepsBody_nil hkeeps
    rcases hbody with ⟨hle,hbody,-⟩ | ⟨-,taken,-,-,-,hlen⟩
    · have hlen := congrArg List.length hbody
      rw [hnil, List.length_nil, List.length_take, Nat.min_eq_left hle] at hlen
      omega
    · rw [hnil, List.length_nil] at hlen
      omega
  · intro reads rest response content hrun
    rw [recvResponse_body hrun]
    exact eq_comm
  · intro reads rest parser data chunks hbuf hhead hchunked hchunks hstream hreads hrun hcuts
    obtain ⟨hdata,hr⟩ := data_le_of_recvHead (Nat.zero_le _) hhead
    constructor
    · intro hkeeps
      have hnil := List.flatMap_eq_nil_iff.mp (keepsBody_nil hkeeps)
      refine List.eq_nil_iff_forall_not_mem.mpr fun chunk hchunk => ?_
      exact (hchunks chunk hchunk).2 (hnil chunk hchunk)
    · rintro rfl
      rw [recvResponse_of_chunked hhead hchunked] at hrun
      obtain ⟨q,hloop⟩ := recvChunks_eq hbuf hchunks hr hreads hdata hstream hcuts
        (Nat.succ_pos _) (fun herror => hrun (by rw [herror]; rfl))
      have hresponse : recvResponse c reads = .ok (some (parser.data,[]),[]) := by
        rw [recvResponse_of_chunked hhead hchunked, hloop]
        rfl
      exact ⟨_,_,_,hresponse,recvResponse_body hresponse⟩

/-- A head that declares five bytes. -/
def lengthHead : Bytes := bytes "HTTP/1.1 200 OK\r\ncontent-length: 5\r\n\r\n"

/-- The parser behind that head. -/
def lengthParser : HttpResponseParser :=
  ⟨⟨.firstFinal,38,5,false,false,false,33,17,14⟩,0,
    { HttpResponse.new with
      reason := bytes "OK", headers := [(bytes "content-length",bytes "5")] }⟩

theorem declaresLength_lengthHead :
    DeclaresLength ⟨4096,lexicalCast⟩ (lengthHead++bytes "he") 5 (bytes "he") := by
  refine ⟨lengthParser,fun reads => ?_,by decide,by decide +kernel⟩
  have hexecute : HttpResponseParser.new.execute ([]++(lengthHead++bytes "he")) false =
      .ok (lengthParser,38,bytes "he") := by decide
  have hread : Http.read 4096 [lengthHead++bytes "he"] = .ok (lengthHead++bytes "he",[]) := by
    decide
  rw [recvHead]
  simp only [List.length_nil, Nat.sub_zero, hread, ok_bind, hexecute]
  rw [if_neg (by decide), if_neg (by decide), if_neg (by decide), if_pos (by decide)]
  rfl

theorem delivers_hello : Delivers (bytes "he") [bytes "llo"] 5 (bytes "hello") [] :=
  .inr ⟨by decide,[bytes "llo"],rfl,by decide,by decide,by decide⟩

theorem body_lost_hello : ¬KeepsBody ⟨4096,lexicalCast⟩ [lengthHead++bytes "he",bytes "llo"]
    (bytes "hello") :=
  ((body_lost _).1 _ 5 _ _ _ _ (by decide) (by decide) declaresLength_lengthHead
    delivers_hello).2

/-- The five bytes that were declared and sent are not in the response. -/
theorem not_keepsBody : ¬∀ (c : Config) (first : Bytes) (n : ℕ) (data body : Bytes)
    (reads rest : List Bytes), 0 < n → n < 2^31 → DeclaresLength c first n data →
    Delivers data reads n body rest → KeepsBody c (first :: reads) body := by
  intro h
  have hkeeps := h _ _ 5 _ _ _ _ (by decide) (by decide) declaresLength_lengthHead delivers_hello
  exact absurd (keepsBody_nil hkeeps) (by decide)

end CoroutineWebserve.Client
