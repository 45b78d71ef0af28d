import CoroutineWebserve.Client.Parser
import CoroutineWebserve.Http.Split

/-!
# `HttpConnection::recvResponse`

The loops share one buffer of `buffSize` bytes; `data` are the first `len` of them. What the
socket delivers is the list of its reads, as for requests.
-/
namespace CoroutineWebserve.Client
open Http

namespace HttpConnection

/-- The first loop, for the head: the parser and what is in the buffer behind the head, or
`nullptr`. -/
def recvHead (buffSize : ℕ) :
    HttpResponseParser → Bytes → List Bytes →
      Except Fault (Option (HttpResponseParser × Bytes) × List Bytes)
  | _, _, [] => .ok (none,[])
  | parser, data, piece :: reads => do
    let (got,_) ← read (buffSize-data.length) [piece]
    if got = [] then return (none,reads)
    let (parser,_,data) ← parser.execute (data++got) false
    if parser.HasError then return (none,reads)
    if (data.length : ℤ) = int buffSize then return (none,reads)
    if parser.IsFinished then return (some (parser,data),reads)
    recvHead buffSize parser data reads

/-- One round of the loop for the line before a chunk, behind its read. -/
def parseChunkLine (buffSize : ℕ) (parser : HttpResponseParser) (data : Bytes) :
    Except Fault (Option (HttpResponseParser × Bytes)) := do
  let (parser,_,data) ← parser.execute data true
  if parser.HasError then return none
  if (data.length : ℤ) = int buffSize then return none
  return some (parser,data)

/-- The rounds of the loop that begin with a read. -/
def readChunkLine (buffSize : ℕ) :
    HttpResponseParser → Bytes → List Bytes →
      Except Fault (Option (HttpResponseParser × Bytes) × List Bytes)
  | _, _, [] => .ok (none,[])
  | parser, data, piece :: reads => do
    let (got,_) ← read (buffSize-data.length) [piece]
    if got = [] then return (none,reads)
    match ← parseChunkLine buffSize parser (data++got) with
    | none => return (none,reads)
    | some (parser,data) =>
      if parser.IsFinished then return (some (parser,data),reads)
      readChunkLine buffSize parser data reads

/-- The loop for the line before a chunk; the first round reads only into an empty buffer. -/
def recvChunkLine (buffSize : ℕ) (parser : HttpResponseParser) (data : Bytes)
    (reads : List Bytes) : Except Fault (Option (HttpResponseParser × Bytes) × List Bytes) :=
  if data = [] then readChunkLine buffSize parser [] reads
  else do
    match ← parseChunkLine buffSize parser data with
    | none => return (none,reads)
    | some (parser,data) =>
      if parser.IsFinished then return (some (parser,data),reads)
      readChunkLine buffSize parser data reads

/-- The conversion to `size_t`. -/
def sizeT (n : ℤ) : ℕ := (n%2^64).toNat

/-- The loop `while(left > 0)`; what it appends to the body. No read fits that is longer than
the buffer. -/
def readPayload (buffSize : ℕ) : ℤ → List Bytes → Except Fault (Option Bytes × List Bytes)
  | left, [] => .ok (if left ≤ 0 then some [] else none,[])
  | left, piece :: reads =>
    if left ≤ 0 then .ok (some [],piece :: reads)
    else do
      let (got,_) ← read (min (sizeT (min left (int buffSize))) buffSize) [piece]
      if got = [] then return (none,reads)
      let (more,reads) ← readPayload buffSize (left-got.length) reads
      return (more.map (got++·),reads)

/-- The payload of a chunk of `contentLen` bytes and the line end behind it: the body, and
what is left in the buffer. `append` of a negative length or of bytes behind the buffer, and
`resize` to a negative size, are faults. -/
def recvPayload (buffSize : ℕ) (contentLen : ℤ) (body data : Bytes) (reads : List Bytes) :
    Except Fault (Option (Bytes × Bytes) × List Bytes) :=
  if intOf (contentLen+2) ≤ data.length then
    if 0 ≤ contentLen ∧ contentLen ≤ data.length then
      .ok (some (body++data.take contentLen.toNat,data.drop (contentLen+2).toNat),reads)
    else .error .lengthError
  else do
    let (more,reads) ← readPayload buffSize (intOf (contentLen-data.length+2)) reads
    match more with
    | none => return (none,reads)
    | some more =>
      let body := body++data++more
      if body.length < 2 then .error .lengthError
      else return (some (body.take (body.length-2),[]),reads)

/-- The loop over the chunks, with the local variable `body`. Every round takes at least one
byte of what is to come, which bounds the rounds. -/
def recvChunks (buffSize : ℕ) :
    ℕ → HttpResponseParser → Bytes → Bytes → List Bytes →
      Except Fault (Option (HttpResponseParser × Bytes) × List Bytes)
  | 0, _, _, _, reads => .ok (none,reads)
  | rounds+1, parser, body, data, reads => do
    let (line,reads) ← recvChunkLine buffSize parser data reads
    match line with
    | none => return (none,reads)
    | some (parser,data) =>
      let (payload,reads) ← recvPayload buffSize parser.parser.contentLen body data reads
      match payload with
      | none => return (none,reads)
      | some (body,data) =>
        if parser.parser.chunksDone then return (some (parser,body),reads)
        recvChunks buffSize rounds parser body data reads

/-- `recvResponse()`: the response, and the local variable `body`, which nothing takes over
into the response. -/
def recvResponse (c : Config) (reads : List Bytes) :
    Except Fault (Option (HttpResponse × Bytes) × List Bytes) := do
  let (head,reads) ← recvHead c.buffSize .new [] reads
  match head with
  | none => return (none,reads)
  | some (parser,data) =>
    if parser.parser.chunked then
      let rounds := data.length+reads.flatten.length+1
      let (result,reads) ← recvChunks c.buffSize rounds parser [] data reads
      return (result.map fun (parser,body) => (parser.data,body),reads)
    else
      let length := int64 (parser.getContentLength c.lexicalCast).toNat
      if 0 < length then
        let (body,reads) ← HttpSession.recvBody length data reads
        return (body.map fun body => (parser.data,body),reads)
      else return (some (parser.data,[]),reads)

/-- What a call of the parser leaves. -/
theorem exists_of_execute {r q : HttpResponseParser} {data left : Bytes} {chunck : Bool} {n : ℕ}
    (h : r.execute data chunck = .ok (q,n,left)) :
    ∃ us : List Update, q = { us.foldl .update r with
        parser := ((if chunck then .init else r.parser).execute data).1 } ∧
      left = data.drop n := by
  obtain ⟨us,-,h⟩ := exists_of_bind h
  split at h <;> cases h
  exact ⟨us,rfl,rfl⟩

/-- A read of the first loop, when the loop ends with a head. -/
theorem recvHead_cons_some {buffSize : ℕ} {r q : HttpResponseParser} {data left piece : Bytes}
    {reads rest : List Bytes}
    (h : recvHead buffSize r data (piece :: reads) = .ok (some (q,left),rest)) :
    piece ≠ [] ∧ piece.length ≤ buffSize-data.length ∧
      ∃ y n d, r.execute (data++piece) false = .ok (y,n,d) ∧ ¬y.HasError ∧
        if y.IsFinished then q = y ∧ left = d ∧ rest = reads
        else recvHead buffSize y d reads = .ok (some (q,left),rest) := by
  obtain ⟨⟨got,later⟩,hread,h⟩ := exists_of_bind h
  rw [Http.read] at hread
  split_ifs at hread with hfits
  cases hread
  dsimp only at h
  split_ifs at h with hne
  · cases h
  obtain ⟨⟨y,n,d⟩,hx,h⟩ := exists_of_bind h
  dsimp only at h
  split_ifs at h with herror hfull hfinished
  · cases h
  · cases h
  · cases h
    exact ⟨hne,hfits.1,_,_,_,hx,herror,by rw [if_pos hfinished]; exact ⟨rfl,rfl,rfl⟩⟩
  · exact ⟨hne,hfits.1,_,_,_,hx,herror,by rwa [if_neg hfinished]⟩

end HttpConnection
end CoroutineWebserve.Client
