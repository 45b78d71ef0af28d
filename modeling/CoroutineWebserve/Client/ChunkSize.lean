import CoroutineWebserve.Client.Chunked
import CoroutineWebserve.Client.SizeLine
import CoroutineWebserve.Transition.Machine

/-!
# The sizes of chunks

The size before a chunk goes from a numeral of any length to a `long` and from there to the
`int` `content_len`, with which the loop computes, appends, moves and reads. Nothing checks it.
A round of the loop stays inside its buffer when the size leaves room for the line end in an
`int`, and the parser reads the size that was sent.
-/
namespace CoroutineWebserve.Client
open Http

/-! ### What a round does with its buffer -/

/-- `append` of `n` bytes of the `len` received, `memmove` of `n` of them from `offset` on to
the start of the buffer, or a `read` of at most `n` bytes to `offset`. -/
inductive Access
  | append (n len : ℤ)
  | memmove (offset n len : ℤ)
  | read (offset n : ℤ)
deriving Repr, DecidableEq

/-- The access stays in the bytes received, or the read in the buffer. -/
def Access.Inside (buffSize : ℕ) : Access → Prop
  | append n len => 0 ≤ n ∧ n ≤ len ∧ len ≤ buffSize
  | memmove offset n len => 0 ≤ offset ∧ 0 ≤ n ∧ offset+n ≤ len ∧ len ≤ buffSize
  | read offset n => 0 ≤ offset ∧ 0 ≤ n ∧ offset+n ≤ buffSize

namespace HttpConnection

/-- What `execute` moves. -/
def parseAccesses (r : HttpResponseParser) (data : Bytes) : List Access :=
  match r.execute data true with
  | .ok (_,n,_) => [.memmove n (data.length-n) data.length]
  | .error _ => []

/-- The accesses of one round of the loop for the line, behind its read, and of the rounds to
come. -/
def roundAccesses (buffSize : ℕ) (next : HttpResponseParser → Bytes → List Access)
    (r : HttpResponseParser) (data : Bytes) : List Access :=
  parseAccesses r data++
    match parseChunkLine buffSize r data with
    | .ok (some (r,data)) => if r.IsFinished then [] else next r data
    | _ => []

/-- The accesses of `readChunkLine`. -/
def readAccesses (buffSize : ℕ) : HttpResponseParser → Bytes → List Bytes → List Access
  | _, data, [] => [.read data.length (buffSize-data.length)]
  | r, data, piece :: reads =>
    .read data.length (buffSize-data.length) ::
      match Http.read (buffSize-data.length) [piece] with
      | .error _ => []
      | .ok (got,_) =>
        if got = [] then []
        else roundAccesses buffSize (fun r data => readAccesses buffSize r data reads) r (data++got)

/-- The accesses of `recvChunkLine`. -/
def lineAccesses (buffSize : ℕ) (r : HttpResponseParser) (data : Bytes) (reads : List Bytes) :
    List Access :=
  if data = [] then readAccesses buffSize r [] reads
  else roundAccesses buffSize (fun r data => readAccesses buffSize r data reads) r data

/-- The accesses of `readPayload`. -/
def leftAccesses (buffSize : ℕ) : ℤ → List Bytes → List Access
  | left, [] => if left ≤ 0 then [] else [.read 0 (min left (int buffSize))]
  | left, piece :: reads =>
    if left ≤ 0 then []
    else .read 0 (min left (int buffSize)) ::
      match Http.read (min (sizeT (min left (int buffSize))) buffSize) [piece] with
      | .error _ => []
      | .ok (got,_) =>
        if got = [] then []
        else .append got.length got.length :: leftAccesses buffSize (left-got.length) reads

/-- The accesses of `recvPayload`, with `len` bytes in the buffer. -/
def payloadAccesses (buffSize : ℕ) (contentLen : ℤ) (len : ℕ) (reads : List Bytes) :
    List Access :=
  if intOf (contentLen+2) ≤ len then
    [.append contentLen len,.memmove (contentLen+2) (len-contentLen-2) len]
  else .append len len :: leftAccesses buffSize (intOf (contentLen-len+2)) reads

/-- The values of the additions on `content_len`, before they are an `int`. -/
def payloadSums (contentLen : ℤ) (len : ℕ) : List ℤ :=
  (contentLen+2) ::
    if intOf (contentLen+2) ≤ len then
      [len-contentLen,len-contentLen-2,len-(contentLen+2)]
    else [contentLen-len,contentLen-len+2]

end HttpConnection

/-- The variables of the loop over the chunks at the start of a round, and the reads to come. -/
structure Round where
  parser : HttpResponseParser
  body : Bytes
  data : Bytes
  reads : List Bytes
deriving Repr, DecidableEq

open HttpConnection Transition

namespace Round
variable (buffSize : ℕ) (s : Round)

/-- What is to come. -/
def stream : Bytes := s.data++s.reads.flatten

/-- A round up to the test of `chunks_done`. -/
def run : Except Fault (Option Round × List Bytes) := do
  let (line,reads) ← recvChunkLine buffSize s.parser s.data s.reads
  match line with
  | none => return (none,reads)
  | some (parser,data) =>
    let (payload,reads) ← recvPayload buffSize parser.parser.contentLen s.body data reads
    return (payload.map fun (body,data) => ⟨parser,body,data,reads⟩,reads)

def accesses : List Access :=
  lineAccesses buffSize s.parser s.data s.reads++
    match recvChunkLine buffSize s.parser s.data s.reads with
    | .ok (some (parser,data),reads) =>
      payloadAccesses buffSize parser.parser.contentLen data.length reads
    | _ => []

def sums : List ℤ :=
  match recvChunkLine buffSize s.parser s.data s.reads with
  | .ok (some (parser,data),_) => payloadSums parser.parser.contentLen data.length
  | _ => []

/-- The round stays inside the buffer and the `int`s, throws nothing, and takes no line but one
whose size is `content_len`. -/
structure Safe : Prop where
  inside : ∀ a ∈ s.accesses buffSize, a.Inside buffSize
  sums : ∀ n ∈ s.sums buffSize, -2^31 ≤ n ∧ n < 2^31
  run : s.run buffSize ≠ .error .lengthError
  size : ∀ parser data reads,
    recvChunkLine buffSize s.parser s.data s.reads = .ok (some (parser,data),reads) →
    ∃ ds tail more, SizeLine s.stream ds tail more ∧
      parser.parser.contentLen = numeral 16 ds

/-- No status line is to come, and a line with a size leaves room for its end in an `int` and
is not cut where that matters. -/
structure Harmless : Prop where
  status : s.stream.head? ≠ some 72
  size : ∀ ds tail more, SizeLine s.stream ds tail more → LineTail .chunkSize tail →
    numeral 16 ds < 2^31-2
  kept : ∀ ds tail more, SizeLine s.stream ds tail more → LineKept s.data s.reads ds tail

end Round

/-- The loop over the chunks. -/
def chunkLoop (buffSize : ℕ) (start : Round) : Machine Round Unit where
  init s := s = start
  step s _ :=
    match s.run buffSize with
    | .ok (some t,_) => if t.parser.parser.chunksDone then none else some t
    | _ => none

/-! ### Rounds that are safe -/

namespace HttpConnection
variable {buffSize : ℕ} {r x : HttpResponseParser} {data left : Bytes} {reads rest : List Bytes}

theorem parseAccesses_inside (r : HttpResponseParser) (hne : data ≠ [])
    (hdata : data.length ≤ buffSize) : ∀ a ∈ parseAccesses r data, a.Inside buffSize := by
  obtain ⟨q,hq,-,hstop⟩ := execute_ok r hne
  simp only [parseAccesses, hq, List.mem_singleton, forall_eq, Access.Inside]
  omega

theorem roundAccesses_inside {next : HttpResponseParser → Bytes → List Access}
    (r : HttpResponseParser) (hne : data ≠ []) (hdata : data.length ≤ buffSize)
    (hnext : ∀ y d, d.length ≤ buffSize → ∀ a ∈ next y d, a.Inside buffSize) :
    ∀ a ∈ roundAccesses buffSize next r data, a.Inside buffSize := by
  intro a ha
  rw [roundAccesses, List.mem_append] at ha
  rcases ha with ha | ha
  · exact parseAccesses_inside r hne hdata a ha
  · rcases parseChunkLine_cases buffSize r hne with hnone | ⟨q,hq,-⟩
    · rw [hnone] at ha
      cases ha
    · rw [hq] at ha
      dsimp only at ha
      split_ifs at ha
      · cases ha
      · exact hnext _ _ ((le_of_parseChunkLine hne hq).trans hdata) a ha

theorem readAccesses_inside (r : HttpResponseParser) (hdata : data.length ≤ buffSize)
    (reads : List Bytes) : ∀ a ∈ readAccesses buffSize r data reads, a.Inside buffSize := by
  induction reads generalizing r data with
  | nil =>
    simp only [readAccesses, List.mem_singleton, forall_eq, Access.Inside]
    omega
  | cons piece reads ih =>
    intro a ha
    rw [readAccesses, List.mem_cons, Http.read] at ha
    rcases ha with rfl | ha
    · simp only [Access.Inside]
      omega
    split_ifs at ha with hfits
    · dsimp only at ha
      split_ifs at ha with hne
      · cases ha
      · have hlen : (data++piece).length ≤ buffSize := by
          rw [List.length_append]
          omega
        exact roundAccesses_inside r (List.append_ne_nil_of_right_ne_nil data hne) hlen
          (fun y d hd => ih y hd) a ha
    · cases ha

theorem lineAccesses_inside (r : HttpResponseParser) (hdata : data.length ≤ buffSize)
    (reads : List Bytes) : ∀ a ∈ lineAccesses buffSize r data reads, a.Inside buffSize := by
  rw [lineAccesses]
  split
  · exact readAccesses_inside r (Nat.zero_le _) reads
  · next hne => exact roundAccesses_inside r hne hdata fun y d hd => readAccesses_inside y hd reads

/-- In a harmless round a line is read with the size that was sent. -/
theorem recvChunkLine_harmless {s : Round} (hs : s.Harmless) (hbuf : buffSize < 2^31)
    (hdata : s.data.length ≤ buffSize)
    (h : recvChunkLine buffSize s.parser s.data s.reads = .ok (some (x,left),rest)) :
    left.length ≤ buffSize ∧ ∃ ds tail more, SizeLine s.stream ds tail more ∧
      x.parser.contentLen = numeral 16 ds ∧ numeral 16 ds < 2^31-2 := by
  rw [recvChunkLine_pieces hbuf hdata] at h
  have hstream : (pieces s.data s.reads).flatten = s.stream := flatten_pieces ..
  refine ⟨readChunkLine_fits h (Nat.zero_le _),?_⟩
  have hlf := hstream ▸ lf_of_readChunkLine h
  obtain ⟨b,t,hb⟩ := List.exists_cons_of_ne_nil (List.ne_nil_of_mem hlf)
  have hdigit : isXdigit b := by
    by_contra hno
    have hstatus : b ≠ 72 := by
      rintro rfl
      exact hs.status (by rw [hb]; rfl)
    exact readChunkLine_dead (Bool.not_eq_true _ ▸ hno) hstatus (hstream.trans hb) h
  obtain ⟨ds,tail,more,hline⟩ := exists_sizeLine hb hdigit hlf
  have hsmall := hs.size ds tail more hline
  have hkept : LineKept [] (pieces s.data s.reads) ds tail := by
    intro n hn
    rcases cut_pieces.mp hn with rfl | hn
    · exact .inl (.inl rfl)
    · refine (hs.kept ds tail more hline n hn).imp id ?_
      rintro ⟨m,hm,hcut,hrejects⟩
      exact ⟨m,hm,cut_pieces.mpr (.inr hcut),hrejects⟩
  obtain ⟨hlen,htail⟩ := readChunkLine_sizeLine (hstream ▸ hline) hkept
    (fun htail => (hsmall htail).trans (by decide)) h
  exact ⟨ds,tail,more,hline,hlen,hsmall htail⟩

theorem leftAccesses_inside (hbuf : buffSize < 2^31) (left : ℤ) (reads : List Bytes) :
    ∀ a ∈ leftAccesses buffSize left reads, a.Inside buffSize := by
  have hint : int buffSize = buffSize := intOf_of_lt hbuf
  have hread : ∀ left : ℤ, ¬left ≤ 0 →
      (Access.read 0 (min left (int buffSize))).Inside buffSize := by
    intro left hleft
    rw [hint]
    simp only [Access.Inside]
    omega
  induction reads generalizing left with
  | nil =>
    rw [leftAccesses]
    split
    · simp
    · next hleft => exact List.forall_mem_singleton.mpr (hread left hleft)
  | cons piece reads ih =>
    rw [leftAccesses]
    split
    · simp
    next hleft =>
      refine List.forall_mem_cons.mpr ⟨hread left hleft,?_⟩
      rw [Http.read]
      by_cases hfits : piece.length ≤ min (sizeT (min left (int buffSize))) buffSize ∧
          piece.length < 2^31
      · rw [if_pos hfits]
        dsimp only
        split
        · simp
        · refine List.forall_mem_cons.mpr ⟨?_,ih _⟩
          have hlen := hfits.1.trans (min_le_right ..)
          simp only [Access.Inside]
          omega
      · rw [if_neg hfits]
        simp

/-- What is read is all that was left, and reading throws nothing. -/
theorem readPayload_cases (buffSize : ℕ) (left : ℤ) (reads : List Bytes) :
    readPayload buffSize left reads = .error .overrun ∨
      ∃ more rest, readPayload buffSize left reads = .ok (more,rest) ∧
        ∀ b ∈ more, left ≤ b.length := by
  induction reads generalizing left with
  | nil =>
    refine .inr ⟨_,_,rfl,fun b hb => ?_⟩
    split_ifs at hb with hleft
    · cases hb
      exact hleft
    · cases hb
  | cons piece reads ih =>
    rw [readPayload]
    by_cases hleft : left ≤ 0
    · rw [if_pos hleft]
      refine .inr ⟨_,_,rfl,fun b hb => ?_⟩
      cases hb
      exact hleft
    rw [if_neg hleft, Http.read]
    split
    · rw [ok_bind]
      dsimp only
      split
      · exact .inr ⟨none,reads,rfl,fun b hb => by cases hb⟩
      rcases ih (left-piece.length) with h | ⟨more,rest,h,hmore⟩
      · rw [h]
        exact .inl rfl
      · rw [h]
        refine .inr ⟨_,rest,rfl,fun b hb => ?_⟩
        obtain ⟨c,hc,rfl⟩ := Option.map_eq_some_iff.mp hb
        have hlen := hmore c hc
        rw [List.length_append]
        omega
    · exact .inl rfl

section payload
variable {n : ℕ}

theorem intOf_add_two (hn : n < 2^31-2) : intOf ((n : ℤ)+2) = n+2 := by
  exact_mod_cast intOf_of_lt (n := n+2) (by omega)

theorem payloadAccesses_inside (hbuf : buffSize < 2^31) (hn : n < 2^31-2)
    (hdata : data.length ≤ buffSize) (reads : List Bytes) :
    ∀ a ∈ payloadAccesses buffSize n data.length reads, a.Inside buffSize := by
  rw [payloadAccesses, intOf_add_two hn]
  split
  · next hle =>
    simp only [List.forall_mem_cons, Access.Inside, List.not_mem_nil, false_implies, implies_true,
      and_true]
    omega
  · refine List.forall_mem_cons.mpr ⟨?_,leftAccesses_inside hbuf _ reads⟩
    simp only [Access.Inside]
    omega

theorem payloadSums_fit (hbuf : buffSize < 2^31) (hn : n < 2^31-2)
    (hdata : data.length ≤ buffSize) :
    ∀ k ∈ payloadSums n data.length, -2^31 ≤ k ∧ k < 2^31 := by
  rw [payloadSums, intOf_add_two hn]
  split
  all_goals
    simp only [List.forall_mem_cons, List.not_mem_nil, false_implies, implies_true, and_true]
    omega

/-- A size that leaves room for the line end in an `int` throws nothing. -/
theorem recvPayload_cases (hbuf : buffSize < 2^31) (hn : n < 2^31-2)
    (hdata : data.length ≤ buffSize) (body : Bytes) (reads : List Bytes) :
    recvPayload buffSize n body data reads = .error .overrun ∨
      ∃ more rest, recvPayload buffSize n body data reads = .ok (more,rest) ∧
        ∀ x ∈ more, x.2.length ≤ buffSize := by
  rw [recvPayload, intOf_add_two hn]
  split
  · next hle =>
    rw [if_pos (by omega)]
    refine .inr ⟨_,reads,rfl,fun x hx => ?_⟩
    cases hx
    rw [List.length_drop]
    omega
  · next hlt =>
    have hleft : intOf ((n : ℤ)-data.length+2) = (n+2-data.length : ℕ) := by
      rw [← intOf_of_lt (show n+2-data.length < 2^31 by omega)]
      exact congrArg intOf (by omega)
    rw [hleft]
    rcases readPayload_cases buffSize (n+2-data.length : ℕ) reads with h | ⟨more,rest,h,hmore⟩
    · rw [h]
      exact .inl rfl
    · rw [h, ok_bind]
      cases more with
      | none => exact .inr ⟨none,rest,rfl,fun x hx => by cases hx⟩
      | some more =>
        have hlen := hmore more rfl
        dsimp only
        rw [if_neg (by simp only [List.length_append]; omega)]
        refine .inr ⟨_,rest,rfl,fun x hx => ?_⟩
        cases hx
        exact Nat.zero_le _

end payload

end HttpConnection

namespace Round
variable {buffSize : ℕ} {s : Round}

/-- A round that gets no line is the last one, and all it does is to read. -/
theorem safe_of_no_line (hdata : s.data.length ≤ buffSize)
    (hline : ∀ q d reads,
      recvChunkLine buffSize s.parser s.data s.reads ≠ .ok (some (q,d),reads))
    (herror : recvChunkLine buffSize s.parser s.data s.reads ≠ .error .lengthError) :
    s.Safe buffSize ∧ ∀ t rest, s.run buffSize ≠ .ok (some t,rest) := by
  have hrun : s.run buffSize ≠ .error .lengthError ∧
      ∀ t rest, s.run buffSize ≠ .ok (some t,rest) := by
    rw [run]
    rcases hx : recvChunkLine buffSize s.parser s.data s.reads with e | ⟨_ | ⟨q,d⟩,reads⟩
    · rw [hx] at herror
      exact ⟨fun h => herror (congrArg _ (Except.error.inj h)),fun t rest h => by cases h⟩
    · exact ⟨fun h => (by cases h),fun t rest h => by cases h⟩
    · exact absurd hx (hline q d reads)
  refine ⟨⟨?_,?_,hrun.1,fun q d reads h => absurd h (hline q d reads)⟩,hrun.2⟩
  · rw [accesses]
    split
    · next h => exact absurd h (hline _ _ _)
    · rw [List.append_nil]
      exact lineAccesses_inside s.parser hdata s.reads
  · rw [sums]
    split
    · next h => exact absurd h (hline _ _ _)
    · exact fun n hn => absurd hn List.not_mem_nil

/-- Behind a line with the size that was sent, which leaves room for its end in an `int`, the
payload is taken, and the next round finds the buffer no longer than it is. -/
theorem safe_of_line (hbuf : buffSize < 2^31) (hdata : s.data.length ≤ buffSize)
    {q : HttpResponseParser} {d : Bytes} {reads : List Bytes}
    (hline : recvChunkLine buffSize s.parser s.data s.reads = .ok (some (q,d),reads))
    (hd : d.length ≤ buffSize) {ds tail more : Bytes} (hsize : SizeLine s.stream ds tail more)
    (hlen : q.parser.contentLen = numeral 16 ds) (hsmall : numeral 16 ds < 2^31-2) :
    s.Safe buffSize ∧
      ∀ t rest, s.run buffSize = .ok (some t,rest) → t.data.length ≤ buffSize := by
  have hlines := lineAccesses_inside s.parser hdata s.reads
  have hpayload := recvPayload_cases hbuf hsmall hd s.body reads
  refine ⟨⟨?_,?_,?_,?_⟩,?_⟩
  · simp only [accesses, hline, hlen]
    exact List.forall_mem_append.mpr ⟨hlines,payloadAccesses_inside hbuf hsmall hd reads⟩
  · simp only [sums, hline, hlen]
    exact payloadSums_fit hbuf hsmall hd
  · intro h
    rw [run, hline, ok_bind] at h
    dsimp only at h
    rw [hlen] at h
    rcases hpayload with hoverrun | ⟨payload,rest,hpayload,-⟩
    · rw [hoverrun] at h
      cases h
    · rw [hpayload] at h
      cases h
  · intro _ _ _ h
    rw [hline] at h
    cases h
    exact ⟨ds,tail,more,hsize,hlen⟩
  · intro t rest h
    rw [run, hline, ok_bind] at h
    dsimp only at h
    rw [hlen] at h
    rcases hpayload with hoverrun | ⟨_ | ⟨body,left⟩,_,hpayload,hleft⟩
    · rw [hoverrun] at h
      cases h
    · rw [hpayload] at h
      cases h
    · rw [hpayload] at h
      cases h
      exact hleft _ rfl

/-- A harmless round is safe, and the next one finds the buffer no longer than it is. -/
theorem Harmless.safe (hs : s.Harmless) (hbuf : buffSize < 2^31)
    (hdata : s.data.length ≤ buffSize) :
    s.Safe buffSize ∧
      ∀ t rest, s.run buffSize = .ok (some t,rest) → t.data.length ≤ buffSize := by
  by_cases hline : ∃ q d reads,
      recvChunkLine buffSize s.parser s.data s.reads = .ok (some (q,d),reads)
  · obtain ⟨q,d,reads,hline⟩ := hline
    obtain ⟨hd,ds,tail,more,hsize,hlen,hsmall⟩ := recvChunkLine_harmless hs hbuf hdata hline
    exact safe_of_line hbuf hdata hline hd hsize hlen hsmall
  · have herror : recvChunkLine buffSize s.parser s.data s.reads ≠ .error .lengthError := by
      rw [recvChunkLine_pieces hbuf hdata]
      exact readChunkLine_ne_lengthError _ _ _
    obtain ⟨hsafe,hlast⟩ := safe_of_no_line hdata
      (fun q d reads h => hline ⟨q,d,reads,h⟩) herror
    exact ⟨hsafe,fun t rest hrun => absurd hrun (hlast t rest)⟩

end Round

/-- A round of `recvChunks` is one of the loop. -/
theorem recvChunks_run (buffSize rounds : ℕ) (s : Round) :
    (∃ e, s.run buffSize = .error e ∧
        recvChunks buffSize (rounds+1) s.parser s.body s.data s.reads = .error e) ∨
      (∃ rest, s.run buffSize = .ok (none,rest) ∧
        recvChunks buffSize (rounds+1) s.parser s.body s.data s.reads = .ok (none,rest)) ∨
      ∃ t rest, s.run buffSize = .ok (some t,rest) ∧
        recvChunks buffSize (rounds+1) s.parser s.body s.data s.reads =
          if t.parser.parser.chunksDone then .ok (some (t.parser,t.body),t.reads)
          else recvChunks buffSize rounds t.parser t.body t.data t.reads := by
  rw [recvChunks, Round.run]
  rcases recvChunkLine buffSize s.parser s.data s.reads with e | ⟨_ | ⟨q,d⟩,reads⟩
  · exact .inl ⟨e,rfl,rfl⟩
  · exact .inr (.inl ⟨reads,rfl,rfl⟩)
  · simp only [ok_bind]
    rcases recvPayload buffSize q.parser.contentLen s.body d reads with e | ⟨_ | ⟨body,data⟩,rest⟩
    · exact .inl ⟨e,rfl,rfl⟩
    · exact .inr (.inl ⟨rest,rfl,rfl⟩)
    · refine .inr (.inr ⟨⟨q,body,data,rest⟩,rest,rfl,?_⟩)
      simp only [ok_bind]
      split <;> rfl

theorem exists_of_step {buffSize : ℕ} {start s t : Round} {i : Unit}
    (h : (chunkLoop buffSize start).step s i = some t) :
    ∃ u rest, s.run buffSize = .ok (some u,rest) ∧ u = t := by
  simp only [chunkLoop] at h
  split at h
  · next u rest hrun =>
    split_ifs at h
    exact ⟨u,rest,hrun,Option.some.inj h⟩
  · cases h

/-- What the loop does from a state of a run all of whose rounds are safe throws nothing. -/
theorem recvChunks_ne_lengthError {buffSize : ℕ} {start : Round}
    (hsafe : ∀ s, (chunkLoop buffSize start).Reachable s → s.Safe buffSize) (rounds : ℕ) {s : Round}
    (hs : (chunkLoop buffSize start).Reachable s) :
    recvChunks buffSize rounds s.parser s.body s.data s.reads ≠ .error .lengthError := by
  induction rounds generalizing s with
  | zero => exact fun h => by cases h
  | succ rounds ih =>
    rcases recvChunks_run buffSize rounds s with
      ⟨e,hrun,hloop⟩ | ⟨rest,hrun,hloop⟩ | ⟨t,rest,hrun,hloop⟩
    · rw [hloop]
      exact fun h => (hsafe s hs).run (Except.error.inj h ▸ hrun)
    · rw [hloop]
      exact fun h => by cases h
    · rw [hloop]
      split
      · exact fun h => by cases h
      · next hdone =>
        refine ih (hs.step (i := ()) trivial ?_)
        simp only [chunkLoop, hrun, if_neg hdone]

/-- In a run of harmless rounds every round is safe, and such a response throws nothing. -/
theorem chunkLoop_safe {c : Config} (hbuf : c.buffSize < 2^31) {reads rest : List Bytes}
    {parser : HttpResponseParser} {data : Bytes}
    (hhead : recvHead c.buffSize .new [] reads = .ok (some (parser,data),rest))
    (hchunked : parser.parser.chunked) :
    (∀ s, (chunkLoop c.buffSize ⟨parser,[],data,rest⟩).Reaches (fun s _ => s.Harmless) s →
        s.Harmless → s.Safe c.buffSize) ∧
      ((∀ s, (chunkLoop c.buffSize ⟨parser,[],data,rest⟩).Reachable s → s.Harmless) →
        recvResponse c reads ≠ .error .lengthError) := by
  have hstart := (data_le_of_recvHead (Nat.zero_le _) hhead).1
  have hdata : ∀ s, (chunkLoop c.buffSize ⟨parser,[],data,rest⟩).Reaches (fun s _ => s.Harmless) s →
      s.data.length ≤ c.buffSize := by
    intro s hs
    refine hs.invariant (I := fun s => s.data.length ≤ c.buffSize) ?_ ?_
    · rintro s rfl
      exact hstart
    · intro s _ t hle hharmless hstep
      obtain ⟨u,reads,hrun,hnext⟩ := exists_of_step hstep
      exact hnext ▸ (hharmless.safe hbuf hle).2 u reads hrun
  have hsafe : ∀ s, (chunkLoop c.buffSize ⟨parser,[],data,rest⟩).Reaches (fun s _ => s.Harmless) s →
      s.Harmless → s.Safe c.buffSize := fun s hs hharmless =>
    (hharmless.safe hbuf (hdata s hs)).1
  refine ⟨hsafe,fun hall => ?_⟩
  have hreaches : ∀ s, (chunkLoop c.buffSize ⟨parser,[],data,rest⟩).Reachable s →
      (chunkLoop c.buffSize ⟨parser,[],data,rest⟩).Reaches (fun s _ => s.Harmless) s := by
    intro s hs
    induction hs with
    | init h => exact .init h
    | step hs _ hstep ih => exact ih.step (hall _ hs) hstep
  have hloop := recvChunks_ne_lengthError (fun s hs => hsafe s (hreaches s hs) (hall s hs))
    (data.length+rest.flatten.length+1) (.init rfl)
  rw [recvResponse_of_chunked hhead hchunked]
  intro h
  dsimp only at hloop
  rcases hres : recvChunks c.buffSize (data.length+rest.flatten.length+1) parser [] data rest
    with e | x
  · rw [hres] at h hloop
    exact hloop (Except.error.inj h ▸ rfl)
  · rw [hres] at h
    cases h

/-- The first round of a response with a chunk of five bytes. -/
def helloRound : Round := ⟨chunkedParser,[],[],[bytes "5\r\nhello\r\n0\r\n\r\n"]⟩

theorem helloRound_harmless : helloRound.Harmless := by
  have hline : SizeLine helloRound.stream (bytes "5") [13] (bytes "hello\r\n0\r\n\r\n") :=
    ⟨by decide,by decide,by decide +kernel,by decide +kernel,by decide⟩
  refine ⟨by decide,?_,?_⟩
  · intro ds tail more h _
    rw [(h.unique hline).1]
    decide
  · intro ds tail more h n hn
    rw [(h.unique hline).1, (h.unique hline).2]
    rcases hn.cases with rfl | ⟨k,rfl,-⟩
    · exact .inl (.inl rfl)
    · have hlen : (bytes "5\r\nhello\r\n0\r\n\r\n").length = 15 := by decide
      refine .inl (.inr (.inl ?_))
      rw [hlen, show (bytes "5").length = 1 from rfl, List.length_singleton]
      omega

theorem chunkLoop_safe_hello : helloRound.Safe 4096 :=
  (chunkLoop_safe (c := ⟨4096,lexicalCast⟩) (by decide) (recvHead_chunkedHead _) rfl).1 helloRound
    (.init rfl) helloRound_harmless

/-- The size `80000000` is negative as an `int`, and `append` throws. -/
theorem not_chunkLoop_safe : ¬∀ (c : Config) (reads rest : List Bytes)
    (parser : HttpResponseParser) (data : Bytes),
    recvHead c.buffSize .new [] reads = .ok (some (parser,data),rest) → parser.parser.chunked →
    ∀ s, (chunkLoop c.buffSize ⟨parser,[],data,rest⟩).Reachable s → s.Safe c.buffSize := by
  intro h
  have hsafe := h ⟨4096,lexicalCast⟩ _ _ chunkedParser [] (recvHead_chunkedHead
    [bytes "80000000\r\n"]) rfl _ (.init rfl)
  exact hsafe.run (by decide)

end CoroutineWebserve.Client
