import CoroutineWebserve.Http.Parser

/-!
# `HttpSession::recvRequest` and `HttpServer::handleClient`

What a socket delivers is the list of its reads, none of them empty; after the last one the
peer has closed the connection. A read of more bytes than were asked for is the fault
`overrun`: no socket does that.
-/
namespace CoroutineWebserve.Http

/-- The conversion to `int`. -/
def int (n : ℕ) : ℤ := Int.bmod n (2^32)

/-- The conversion to `int64_t`. -/
def int64 (n : ℕ) : ℤ := Int.bmod n (2^64)

/-- `read(buffer, length)`, no bytes when the connection is closed. -/
def read (length : ℕ) : List Bytes → Except Fault (Bytes × List Bytes)
  | [] => .ok ([],[])
  | piece :: reads =>
    if piece.length ≤ length ∧ piece.length < 2^31 then .ok (piece,reads) else .error .overrun

/-- The loop of `Stream::readFixSize` with `left` bytes to go; `none` when a read fails. -/
def readLeft : ℕ → List Bytes → Except Fault (Option Bytes × List Bytes)
  | 0, reads => .ok (some [],reads)
  | _+1, [] => .ok (none,[])
  | left+1, piece :: reads => do
    let (got,_) ← read (left+1) [piece]
    if got = [] then return (none,reads)
    let (more,reads) ← readLeft (left+1-got.length) reads
    return (more.map (got++·),reads)

/-- `readFixSize(buffer, length)`: what it returns is an `int`. -/
def readFixSize (length : ℕ) (reads : List Bytes) :
    Except Fault (Option (ℤ × Bytes) × List Bytes) := do
  let (got,reads) ← readLeft length reads
  return (got.map fun b => (int length,b),reads)

/-- What `recvRequest` takes from elsewhere: the configured buffer size, and
`boost::lexical_cast<uint64_t>`. -/
structure Config where
  buffSize : ℕ
  lexicalCast : Bytes → Option UInt64

namespace HttpSession

/-- The loop of `recvRequest`: `data` are the bytes that `execute` has left in the buffer.
It ends with the parser and what is in the buffer behind the head, or with `nullptr`. -/
def recvHead (buffSize : ℕ) :
    HttpRequestParser → Bytes → List Bytes →
      Except Fault (Option (HttpRequestParser × Bytes) × List Bytes)
  | _, _, [] => .ok (none,[])
  | parser, data, piece :: reads => do
    let (got,_) ← read (buffSize-data.length) [piece]
    if got = [] then return (none,reads)
    let (parser,_,data) ← parser.execute (data++got)
    if parser.HasError then return (none,reads)
    if (data.length : ℤ) = int buffSize then return (none,reads)
    if parser.IsFinished then return (some (parser,data),reads)
    recvHead buffSize parser data reads

/-- The body of a request of which `data` has been read together with the head. -/
def recvBody (length : ℤ) (data : Bytes) (reads : List Bytes) :
    Except Fault (Option Bytes × List Bytes) :=
  if length ≤ data.length then .ok (some (data.take length.toNat),reads)
  else do
    let (got,reads) ← readFixSize (length-data.length).toNat reads
    match got with
    | some (rt,more) => return (if rt ≤ 0 then none else some (data++more),reads)
    | none => return (none,reads)

/-- `recvRequest()`, with a parser allocated on what `u` says. -/
def recvRequest (c : Config) (u : Uninit) (reads : List Bytes) :
    Except Fault (Option HttpRequest × List Bytes) := do
  let (head,reads) ← recvHead c.buffSize (.new u) [] reads
  match head with
  | none => return (none,reads)
  | some (parser,data) =>
    let length := int64 (parser.getContentLength c.lexicalCast).toNat
    if 0 < length then
      let (body,reads) ← recvBody length data reads
      return (body.map fun body => { parser.data with body }.init,reads)
    else return (some parser.data.init,reads)

end HttpSession

/-- The loop of `handleClient`: the requests it hands to the dispatcher. -/
def serve (c : Config) (isKeepalive : Bool) :
    ℕ → (ℕ → Uninit) → List Bytes → Except Fault (List HttpRequest)
  | 0, _, _ => .ok []
  | rounds+1, u, reads => do
    let (req,reads) ← HttpSession.recvRequest c (u 0) reads
    match req with
    | none => return []
    | some req =>
      if !isKeepalive || req.close then return [req]
      let more ← serve c isKeepalive rounds (fun i => u (i+1)) reads
      return req :: more

/-- `HttpServer::handleClient`. Every round but the last takes a read. -/
def handleClient (c : Config) (isKeepalive : Bool) (u : ℕ → Uninit) (reads : List Bytes) :
    Except Fault (List HttpRequest) :=
  serve c isKeepalive (reads.length+1) u reads

end CoroutineWebserve.Http
