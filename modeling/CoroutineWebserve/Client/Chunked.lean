import CoroutineWebserve.Client.ChunkLine

/-!
# Chunked bodies

The loop over the chunks gives the payloads, however the reads are cut, as long as no read
ends inside the line before a chunk at a place where the digits already read matter.
-/
namespace CoroutineWebserve.Client
open Http

/-- A chunk: the digits of its size as they are sent, and its payload. -/
structure Chunk where
  digits : Bytes
  payload : Bytes
deriving Repr, DecidableEq

namespace Chunk

def text (c : Chunk) : Bytes := c.digits++13 :: 10 :: (c.payload++[13,10])

/-- The digits are a hexadecimal numeral of the size. -/
structure WellFormed (c : Chunk) : Prop where
  digits_ne : c.digits ≠ []
  xdigit : ∀ b ∈ c.digits, isXdigit b
  size : numeral 16 c.digits = c.payload.length
  small : c.payload.length < 2^31-2

/-- The chunk that ends the body. -/
def last : Chunk := ⟨bytes "0",[]⟩

theorem last_wellFormed : last.WellFormed where
  digits_ne := by decide
  xdigit := by decide +kernel
  size := by decide
  small := by decide

end Chunk

/-- Every read that ends inside the line before a chunk leaves the chunk's number as it is. -/
def LinesWhole (chunks : List Chunk) (data : Bytes) (reads : List Bytes) : Prop :=
  ∀ before c after, chunks = before++c :: after → ∀ n,
    Cut data reads ((before.flatMap Chunk.text).length+n) → HarmlessCut c.digits n


theorem LinesWhole.first {c : Chunk} {chunks : List Chunk} {data : Bytes} {reads : List Bytes}
    (h : LinesWhole (c :: chunks) data reads) {n : ℕ} (hn : Cut data reads n) :
    HarmlessCut c.digits n := by
  refine h [] c chunks rfl n ?_
  rwa [List.flatMap_nil, List.length_nil, Nat.zero_add]

theorem LinesWhole.tail {c : Chunk} {chunks : List Chunk} {data data' : Bytes}
    {reads reads' : List Bytes} (h : LinesWhole (c :: chunks) data reads)
    (htaken : Taken c.text.length data reads data' reads') :
    LinesWhole chunks data' reads' := by
  rintro before d after rfl n hn
  refine h (c :: before) d after rfl n ?_
  have hcut := htaken.cut hn
  rwa [List.flatMap_cons, List.length_append, Nat.add_assoc]

theorem length_lt_text (chunks : List Chunk) :
    chunks.length < ((chunks++[Chunk.last]).flatMap Chunk.text).length := by
  induction chunks with
  | nil => decide
  | cons c chunks ih =>
    have htext : 4 ≤ c.text.length := by simp [Chunk.text]; omega
    rw [List.cons_append, List.flatMap_cons, List.length_append, List.length_cons]
    omega

namespace HttpConnection
theorem sizeT_of_lt {n : ℤ} (h : 0 ≤ n) (hlt : n < 2^31) : sizeT n = n.toNat := by
  rw [sizeT, Int.emod_eq_of_lt h (by omega)]

variable {buffSize : ℕ} (hbuf : buffSize < 2^31)
include hbuf

theorem readPayload_eq {left : ℕ} (hleft : left < 2^31) {reads : List Bytes}
    (hreads : ∀ piece ∈ reads, piece ≠ []) (hlen : left ≤ reads.flatten.length)
    (hrun : readPayload buffSize left reads ≠ .error .overrun) :
    ∃ taken rest, reads = taken++rest ∧ taken.flatten.length = left ∧
      readPayload buffSize left reads = .ok (some taken.flatten,rest) := by
  have hint : int buffSize = buffSize := intOf_of_lt hbuf
  induction reads generalizing left with
  | nil =>
    obtain rfl : left = 0 := by simpa using hlen
    exact ⟨[],[],rfl,rfl,rfl⟩
  | cons piece reads ih =>
    cases left with
    | zero => exact ⟨[],piece :: reads,rfl,rfl,rfl⟩
    | succ left =>
      have hpos : ¬((left+1 : ℕ) : ℤ) ≤ 0 := by omega
      have hpiece := hreads piece List.mem_cons_self
      have hsize : sizeT (min ((left+1 : ℕ) : ℤ) (int buffSize)) = min (left+1) buffSize := by
        rw [hint, sizeT_of_lt (by omega) (by omega)]
        omega
      have hfits : piece.length ≤ min (min (left+1) buffSize) buffSize ∧
          piece.length < 2^31 := by
        by_contra hno
        refine hrun ?_
        simp only [readPayload, if_neg hpos, hsize, Http.read, if_neg hno]
        rfl
      have hsub : ((left+1 : ℕ) : ℤ)-piece.length = (left+1-piece.length : ℕ) := by omega
      have hround : readPayload buffSize (left+1 : ℕ) (piece :: reads) =
          readPayload buffSize (left+1-piece.length : ℕ) reads >>= fun x =>
            .ok (x.1.map (piece++·),x.2) := by
        simp only [readPayload, if_neg hpos, hsize, Http.read, if_pos hfits, ok_bind,
          if_neg hpiece, hsub]
        rfl
      rw [hround] at hrun ⊢
      rw [List.flatten_cons, List.length_append] at hlen
      obtain ⟨taken,rest,rfl,htaken,hread⟩ := ih
        (show left+1-piece.length < 2^31 by omega)
        (fun p hp => hreads p (List.mem_cons_of_mem _ hp)) (by omega)
        (fun h => hrun (by rw [h]; rfl))
      refine ⟨piece :: taken,rest,rfl,?_,by rw [hread]; rfl⟩
      rw [List.flatten_cons, List.length_append]
      omega

/-- The payload of a chunk is taken with its line end, wherever the reads are cut. -/
theorem recvPayload_eq {payload more body data : Bytes} (hsmall : payload.length < 2^31-2)
    {reads : List Bytes} (hreads : ∀ piece ∈ reads, piece ≠ []) (hdata : data.length ≤ buffSize)
    (hstream : data++reads.flatten = payload++13 :: 10 :: more)
    (hrun : recvPayload buffSize payload.length body data reads ≠ .error .overrun) :
    ∃ data' rest, recvPayload buffSize payload.length body data reads =
        .ok (some (body++payload,data'),rest) ∧
      data'++rest.flatten = more ∧ data'.length ≤ buffSize ∧
      Taken (payload.length+2) data reads data' rest := by
  have hsum : intOf (payload.length+2) = payload.length+2 := by
    exact_mod_cast intOf_of_lt (n := payload.length+2) (by omega)
  have hnonneg : ¬(payload.length : ℤ) < 0 := by omega
  rcases le_or_gt (payload.length+2) data.length with hwhole | hpart
  · -- the chunk is in the buffer
    obtain ⟨tail,rfl⟩ : payload++[13,10] <+: data := by
      have hchunk : data++reads.flatten = (payload++[13,10])++more := by rw [hstream]; simp
      exact prefix_of_stream hchunk (by simpa using hwhole)
    refine ⟨tail,reads,?_,by simpa using hstream,?_,[],rfl,?_⟩
    · rw [recvPayload, if_pos (by rw [hsum]; exact_mod_cast hwhole),
        if_pos ⟨by omega,by simp; omega⟩]
      simp only [Int.toNat_natCast, List.append_assoc, List.take_left]
      rw [show ((payload.length : ℤ)+2).toNat = payload.length+2 by omega, ← List.drop_drop,
        List.drop_left]
      rfl
    · simp at hdata
      omega
    · simp
      omega
  · -- the rest of it is read
    have hlen := congrArg List.length hstream
    simp only [List.length_append, List.length_cons] at hlen
    have hleft : intOf ((payload.length : ℤ)-data.length+2) =
        (payload.length+2-data.length : ℕ) := by
      rw [← intOf_of_lt (show payload.length+2-data.length < 2^31 by omega)]
      exact congrArg intOf (by omega)
    rw [recvPayload, if_neg (by rw [hsum]; omega), hleft] at hrun ⊢
    obtain ⟨taken,rest,rfl,htaken,hread⟩ := readPayload_eq hbuf
      (show payload.length+2-data.length < 2^31 by omega) hreads (by omega)
      (fun h => hrun (by rw [h]; rfl))
    have hchunk : data++taken.flatten = payload++[13,10] ∧ rest.flatten = more := by
      refine List.append_inj ?_ (by
        rw [List.length_append, List.length_append, htaken, List.length_cons,
          List.length_singleton]
        omega)
      simpa using hstream
    have hresize : (body++payload++[13,10] : Bytes).length-2 = (body++payload).length := by
      rw [List.length_append]
      rfl
    refine ⟨[],rest,?_,hchunk.2,Nat.zero_le _,taken,rfl,by rw [htaken]; exact Nat.add_sub_cancel' hpart.le⟩
    rw [hread, ok_bind]
    dsimp only
    rw [List.append_assoc body, hchunk.1, if_neg (by simp; omega), ← List.append_assoc body,
      hresize, List.take_left]
    rfl

/-- One round of the loop over the chunks. -/
theorem recvChunks_succ {r : HttpResponseParser} (hr : r.error = 0) {c : Chunk}
    (hc : c.WellFormed) {more body data : Bytes} {reads : List Bytes}
    (hreads : ∀ piece ∈ reads, piece ≠ []) (hdata : data.length ≤ buffSize)
    (hstream : data++reads.flatten = c.text++more)
    (hcuts : ∀ n, Cut data reads n → HarmlessCut c.digits n) {rounds : ℕ}
    (hrun : recvChunks buffSize (rounds+1) r body data reads ≠ .error .overrun) :
    ∃ q data' rest, recvChunks buffSize (rounds+1) r body data reads =
        (if c.payload = [] then .ok (some ({ r with parser := q },body++c.payload),rest)
        else recvChunks buffSize rounds { r with parser := q } (body++c.payload) data' rest) ∧
      data'++rest.flatten = more ∧ data'.length ≤ buffSize ∧
      Taken c.text.length data reads data' rest := by
  have hnum : numeral 16 c.digits < 2^31 := by have := hc.small; have := hc.size; omega
  rw [Chunk.text, List.append_assoc, List.cons_append, List.cons_append,
    List.append_assoc] at hstream
  rw [recvChunks] at hrun
  obtain ⟨digits,data₁,reads₁,hline,hstream₁,hdata₁,htaken₁⟩ :=
    recvChunkLine_eq hbuf hr hdata hreads hc.xdigit hc.digits_ne hnum hstream hcuts
      (fun h => hrun (by rw [h]; rfl))
  rw [hline, ok_bind] at hrun
  dsimp only [HttpclientParser.afterLine] at hrun
  rw [hc.size] at hline hrun
  have hrun₁ : recvPayload buffSize c.payload.length body data₁ reads₁ ≠ .error .overrun :=
    fun h => hrun (by rw [h]; rfl)
  obtain ⟨data₂,reads₂,hpayload,hstream₂,hdata₂,htaken₂⟩ :=
    recvPayload_eq hbuf hc.small (fun p hp => hreads p (htaken₁.mem hp)) hdata₁.le hstream₁ hrun₁
  refine ⟨.afterLine digits c.payload.length,data₂,reads₂,?_,hstream₂,hdata₂,?_⟩
  · rw [recvChunks, hline, ok_bind]
    dsimp only [HttpclientParser.afterLine]
    rw [hpayload, ok_bind]
    simp only [List.length_eq_zero_iff, decide_eq_true_eq]
    split <;> rfl
  · have h := htaken₁.trans htaken₂
    rwa [show c.digits.length+2+(c.payload.length+2) = c.text.length by
      simp [Chunk.text]; omega] at h

/-- All rounds: the body ends with the payloads. -/
theorem recvChunks_eq {chunks : List Chunk}
    (hchunks : ∀ c ∈ chunks, c.WellFormed ∧ c.payload ≠ []) {r : HttpResponseParser}
    (hr : r.error = 0) {body data : Bytes} {reads : List Bytes}
    (hreads : ∀ piece ∈ reads, piece ≠ []) (hdata : data.length ≤ buffSize)
    (hstream : data++reads.flatten = (chunks++[Chunk.last]).flatMap Chunk.text)
    (hcuts : LinesWhole (chunks++[Chunk.last]) data reads) {rounds : ℕ}
    (hrounds : chunks.length < rounds)
    (hrun : recvChunks buffSize rounds r body data reads ≠ .error .overrun) :
    ∃ q, recvChunks buffSize rounds r body data reads =
      .ok (some ({ r with parser := q },body++chunks.flatMap Chunk.payload),[]) := by
  induction chunks generalizing r body data reads rounds with
  | nil =>
    obtain ⟨rounds,rfl⟩ := Nat.exists_eq_succ_of_ne_zero hrounds.ne'
    have hlast : data++reads.flatten = Chunk.last.text++[] := by simpa using hstream
    obtain ⟨q,data',rest,hround,hmore,-,htaken⟩ := recvChunks_succ hbuf hr Chunk.last_wellFormed
      hreads hdata hlast (fun _ hn => LinesWhole.first hcuts hn) hrun
    have hrest : ∀ piece ∈ rest, piece = [] :=
      List.flatten_eq_nil_iff.mp (List.append_eq_nil_iff.mp hmore).2
    obtain rfl : rest = [] := List.eq_nil_iff_forall_not_mem.mpr fun piece hpiece =>
      hreads piece (htaken.mem hpiece) (hrest piece hpiece)
    exact ⟨q,hround⟩
  | cons c chunks ih =>
    obtain ⟨rounds,rfl⟩ := Nat.exists_eq_succ_of_ne_zero (Nat.ne_of_gt (Nat.zero_lt_of_lt hrounds))
    obtain ⟨hc,hpayload⟩ := hchunks c List.mem_cons_self
    obtain ⟨q,data',rest,hround,hmore,hdata',htaken⟩ := recvChunks_succ hbuf hr hc hreads hdata
      hstream (fun _ hn => LinesWhole.first hcuts hn) hrun
    rw [if_neg hpayload] at hround
    rw [hround] at hrun ⊢
    obtain ⟨q',hloop⟩ := ih (r := { r with parser := q }) (fun c hc => hchunks c (List.mem_cons_of_mem _ hc)) hr
      (fun p hp => hreads p (htaken.mem hp)) hdata' hmore (LinesWhole.tail hcuts htaken)
      (Nat.lt_of_succ_lt_succ hrounds) hrun
    refine ⟨q',?_⟩
    rw [hloop, List.flatMap_cons, List.append_assoc]

omit hbuf in
theorem le_of_execute {r q : HttpResponseParser} {data left : Bytes} {chunck : Bool} {n : ℕ}
    (h : r.execute data chunck = .ok (q,n,left)) : left.length ≤ data.length := by
  obtain ⟨-,-,rfl⟩ := exists_of_execute h
  rw [List.length_drop]
  omega

omit hbuf in
theorem data_le_of_recvHead {r q : HttpResponseParser} {data left : Bytes}
    {reads rest : List Bytes} (hdata : data.length ≤ buffSize)
    (h : recvHead buffSize r data reads = .ok (some (q,left),rest)) :
    left.length ≤ buffSize ∧ q.error = 0 := by
  induction reads generalizing r data with
  | nil => cases h
  | cons piece reads ih =>
    obtain ⟨-,hpiece,y,n,d,hexecute,herror,hnext⟩ := recvHead_cons_some h
    have hleft := le_of_execute hexecute
    rw [List.length_append] at hleft
    have hfits : d.length ≤ buffSize := by omega
    split_ifs at hnext
    · obtain ⟨rfl,rfl,-⟩ := hnext
      exact ⟨hfits,not_not.mp fun he => herror (.inl he)⟩
    · exact ih hfits hnext

omit hbuf in
/-- Behind a head that announces chunks the loop over the chunks is the whole of it. -/
theorem recvResponse_of_chunked {c : Config} {reads rest : List Bytes}
    {parser : HttpResponseParser} {data : Bytes}
    (hhead : recvHead c.buffSize .new [] reads = .ok (some (parser,data),rest))
    (hchunked : parser.parser.chunked) :
    recvResponse c reads =
      recvChunks c.buffSize (data.length+rest.flatten.length+1) parser [] data rest >>= fun x =>
        .ok (x.1.map fun x => (x.1.data,x.2),x.2) := by
  rw [recvResponse, hhead, ok_bind]
  dsimp only
  rw [if_pos hchunked]
  rfl

end HttpConnection

open HttpConnection

/-- A chunked response is decoded exactly, when every read that ends inside the line before a
chunk comes behind leading zeros of its size. -/
theorem recvResponse_chunked {c : Config} (hbuf : c.buffSize < 2^31)
    {reads rest : List Bytes} {parser : HttpResponseParser} {data : Bytes} {chunks : List Chunk}
    (hhead : recvHead c.buffSize .new [] reads = .ok (some (parser,data),rest))
    (hchunked : parser.parser.chunked) (hchunks : ∀ c ∈ chunks, c.WellFormed ∧ c.payload ≠ [])
    (hstream : data++rest.flatten = (chunks++[Chunk.last]).flatMap Chunk.text)
    (hreads : ∀ piece ∈ rest, piece ≠ []) (hrun : recvResponse c reads ≠ .error .overrun)
    (hcuts : LinesWhole (chunks++[Chunk.last]) data rest) :
    recvResponse c reads = .ok (some (parser.data,chunks.flatMap Chunk.payload),[]) := by
  obtain ⟨hdata,hr⟩ := data_le_of_recvHead (Nat.zero_le _) hhead
  have hloop := recvResponse_of_chunked hhead hchunked
  rw [hloop] at hrun ⊢
  have hrounds : chunks.length < data.length+rest.flatten.length+1 := by
    rw [← List.length_append, hstream]
    exact (length_lt_text chunks).trans (Nat.lt_succ_self _)
  have hrun₁ : recvChunks c.buffSize (data.length+rest.flatten.length+1) parser [] data rest ≠
      .error .overrun := fun h => hrun (by rw [h]; rfl)
  obtain ⟨q,hchunksrun⟩ := recvChunks_eq hbuf hchunks hr hreads hdata hstream hcuts hrounds hrun₁
  rw [hchunksrun]
  rfl

/-- A head that announces chunks. -/
def chunkedHead : Bytes := bytes "HTTP/1.1 200 OK\r\ntransfer-encoding: chunked\r\n\r\n"

/-- The parser behind that head. -/
def chunkedParser : HttpResponseParser :=
  ⟨⟨.firstFinal,47,-1,true,false,false,36,17,17⟩,0,
    { HttpResponse.new with
      reason := bytes "OK", headers := [(bytes "transfer-encoding",bytes "chunked")] }⟩

theorem recvHead_chunkedHead (reads : List Bytes) :
    recvHead 4096 .new [] (chunkedHead :: reads) = .ok (some (chunkedParser,[]),reads) := by
  have hexecute : HttpResponseParser.new.execute ([]++chunkedHead) false =
      .ok (chunkedParser,47,[]) := by decide
  have hread : Http.read 4096 [chunkedHead] = .ok (chunkedHead,[]) := by decide
  rw [recvHead]
  simp only [List.length_nil, Nat.sub_zero, hread, ok_bind, hexecute]
  rw [if_neg (by decide), if_neg (by decide), if_neg (by decide), if_pos (by decide)]
  rfl

/-- The size `05` is cut behind its zero. -/
theorem recvResponse_chunked_zero :
    recvResponse ⟨4096,lexicalCast⟩ [chunkedHead,bytes "0",bytes "5\r\nhello\r\n0\r\n\r\n"] =
      .ok (some (chunkedParser.data,bytes "hello"),[]) := by
  have hchunks : ∀ c ∈ [(⟨bytes "05",bytes "hello"⟩ : Chunk)], c.WellFormed ∧ c.payload ≠ [] :=
    List.forall_mem_singleton.mpr ⟨⟨by decide,by decide +kernel,by decide +kernel,by decide +kernel⟩,by decide⟩
  refine recvResponse_chunked (by decide) (recvHead_chunkedHead _) rfl hchunks
    (by decide) (by decide) (by decide) ?_
  rintro before c after hsplit n ⟨pre,post,hpre,hn⟩
  have hcut : pre.flatten.length ∈ [0,1,16] := by
    have hall : ∀ pre ∈ [bytes "0",bytes "5\r\nhello\r\n0\r\n\r\n"].inits,
      pre.flatten.length ∈ [0,1,16] := by decide
    exact hall pre ((List.mem_inits _ _).mpr ⟨post,hpre.symm⟩)
  have hn' : (before.flatMap Chunk.text).length+n ∈ [0,1,16] := by
    rw [hn]
    simpa using hcut
  simp only [List.mem_cons, List.not_mem_nil, or_false] at hn'
  rcases before with _ | ⟨d,_ | ⟨_,_⟩⟩
  · obtain ⟨rfl,-⟩ := List.cons.inj hsplit
    rw [List.flatMap_nil, List.length_nil] at hn'
    rcases hn' with h | h | h
    · exact .inl (by omega)
    · obtain rfl : n = 1 := by omega
      exact .inr (.inr ⟨by decide,by decide +kernel⟩)
    · exact .inr (.inl (by have : (bytes "05").length = 2 := rfl; dsimp only; omega))
  · obtain ⟨rfl,hlast⟩ := List.cons.inj hsplit
    obtain ⟨rfl,-⟩ := List.cons.inj hlast
    have hfirst : ([⟨bytes "05",bytes "hello"⟩].flatMap Chunk.text).length = 11 := by decide
    have hlen : Chunk.last.digits.length = 1 := rfl
    rw [hfirst] at hn'
    exact .inr (.inl (by omega))
  · simp at hsplit

/-- A size that is cut off from its line end: the parser starts anew and finds no size. -/
theorem recvResponse_of_cut_size : ¬∀ (c : Config) (reads rest : List Bytes)
    (parser : HttpResponseParser) (data : Bytes) (chunks : List Chunk),
    recvHead c.buffSize .new [] reads = .ok (some (parser,data),rest) → parser.parser.chunked →
    (∀ chunk ∈ chunks, chunk.WellFormed ∧ chunk.payload ≠ [] ∧
      chunk.digits.length+2 ≤ c.buffSize) →
    data++rest.flatten = (chunks++[Chunk.last]).flatMap Chunk.text →
    (∀ piece ∈ rest, piece ≠ []) → recvResponse c reads ≠ .error .overrun →
    ∃ d, recvResponse c reads = .ok (some (d,chunks.flatMap Chunk.payload),[]) := by
  intro h
  obtain ⟨d,hd⟩ := h ⟨4096,lexicalCast⟩
    [chunkedHead,bytes "5",bytes "\r\nhello\r\n0\r\n\r\n"] _ chunkedParser []
    [⟨bytes "5",bytes "hello"⟩] (recvHead_chunkedHead _) rfl
    (List.forall_mem_singleton.mpr
      ⟨⟨by decide,by decide +kernel,by decide +kernel,by decide +kernel⟩,by decide,by decide⟩)
    (by decide) (by decide) (by decide)
  have hnone : recvResponse ⟨4096,lexicalCast⟩
      [chunkedHead,bytes "5",bytes "\r\nhello\r\n0\r\n\r\n"] = .ok (none,[]) := by
    decide
  rw [hnone] at hd
  cases hd

end CoroutineWebserve.Client
