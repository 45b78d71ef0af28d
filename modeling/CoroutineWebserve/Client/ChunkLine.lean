import CoroutineWebserve.Client.Connection
import CoroutineWebserve.Http.Receive

/-!
# The line before a chunk

The loop for this line starts the machine anew with every read. It reads the size that was
sent as long as no read ends behind a digit other than `0`.
-/
namespace CoroutineWebserve.Client
open Http Ragel

/-- The machine after the line before a chunk of `n` bytes, with `digits` digits. -/
def HttpclientParser.afterLine (digits : ℕ) (n : ℕ) : HttpclientParser where
  cs := .firstFinal
  bodyStart := digits+2
  contentLen := n
  chunked := true
  chunksDone := n = 0
  close := false
  mark := 0
  fieldStart := 0
  fieldLen := 0

theorem intOf_of_lt {n : ℕ} (h : n < 2^31) : intOf n = n := by
  have hn : (n : ℤ) < 2^31 := by exact_mod_cast h
  exact Int.bmod_eq_of_le (by omega) (by omega)

theorem step_chunkSize (b : UInt8) :
    isXdigit b = true → step .chunkSize b = (.chunkSize,[]) := by
  revert b
  exact forall_byte (by decide +kernel)

namespace HttpclientParser

theorem exec_digits (buffer : Bytes) {ds : Bytes} (hne : ds ≠ []) (hds : ∀ b ∈ ds, isXdigit b)
    (rest : Bytes) :
    init.exec buffer 0 (ds++rest) = { init with cs := .chunkSize }.exec buffer ds.length rest := by
  obtain ⟨d,ds,rfl⟩ := List.exists_cons_of_ne_nil hne
  have hstart : step init.cs d = (.chunkSize,[.mark]) := by
    simp only [init, step, hds d List.mem_cons_self, if_true]
  have hloop : ∀ b ∈ ds, step .chunkSize b = (.chunkSize,[]) := fun b hb =>
    step_chunkSize b (hds b (List.mem_cons_of_mem _ hb))
  rw [List.cons_append, exec_cons hstart (by simp) (by simp)]
  simp only [enter, runActions, runAction, List.nil_append]
  rw [exec_loop { init with cs := .chunkSize, mark := 0 } hloop (by simp)]
  simp [init, Nat.add_comm]

/-- Digits alone are read and forgotten. -/
theorem execute_digits {ds : Bytes} (hne : ds ≠ []) (hds : ∀ b ∈ ds, isXdigit b) :
    init.execute ds = ({ init with cs := .chunkSize },some ds.length,[]) := by
  have hexec := exec_digits ds hne hds []
  rw [List.append_nil] at hexec
  have hpos := List.length_pos_iff.mpr hne
  exact execute_eq hexec ⟨hpos,Nat.zero_le _,hpos⟩

/-- A whole line is read with its number. -/
theorem execute_line {ds : Bytes} (hne : ds ≠ []) (hds : ∀ b ∈ ds, isXdigit b)
    (hsmall : numeral 16 ds < 2^31) (rest : Bytes) :
    init.execute (ds++13 :: 10 :: rest) = (afterLine ds.length (numeral 16 ds),
      some (ds.length+2),
      [.element (if numeral 16 ds = 0 then .lastChunk else .chunkSize) 0 ds.length,.headerDone]) := by
  have hlen : intOf (strtol 16 (ds++13 :: 10 :: rest)) = numeral 16 ds := by
    rw [strtol_numeral (le_refl 16) hne (fun b hb => (digit_facts b).1.mp (hds b hb))
      (by simp; decide) (by omega), intOf_of_lt hsmall]
  have hcr : step .chunkSize 13 = (.header .headEnd false [],[.chunkSize]) := by decide
  have hlf : step (.header .headEnd false []) 10 = (.firstFinal,[.done]) := by decide
  have hpos : 0 < (ds++13 :: 10 :: rest).length := by
    rw [List.length_append, List.length_cons]
    omega
  refine execute_eq ?_ ⟨hpos,Nat.zero_le _,hpos⟩
  rw [show init.reset = init from rfl, exec_digits _ hne hds, exec_cons hcr (by simp) (by simp)]
  simp only [enter, runActions, runAction, init, List.drop_zero, hlen]
  rw [exec_done hlf (by simp [State.firstFinal]) (by simp)]
  simp [enter, runActions, runAction, afterLine]

end HttpclientParser

theorem prefix_of_stream {xs ys zs more : Bytes} (h : xs++zs = ys++more)
    (hlen : ys.length ≤ xs.length) : ys <+: xs :=
  List.prefix_of_prefix_length_le ⟨more,h.symm⟩ (List.prefix_append xs zs) hlen

/-- A read ends `n` bytes behind the start of what is to come. -/
def Cut (data : Bytes) (reads : List Bytes) (n : ℕ) : Prop :=
  ∃ pre post, reads = pre++post ∧ n = data.length+pre.flatten.length

/-- A read that ends `n` bytes into the line with the digits `ds` leaves the number as it is:
all digits before are `0`, and another one follows. -/
def HarmlessCut (ds : Bytes) (n : ℕ) : Prop :=
  n = 0 ∨ ds.length+2 ≤ n ∨ n < ds.length ∧ ∀ b ∈ ds.take n, b = 48

theorem HarmlessCut.drop {ds zs : Bytes} {n : ℕ} (h : HarmlessCut (zs++ds) (zs.length+n)) :
    HarmlessCut ds n := by
  rw [HarmlessCut, List.length_append, List.take_length_add_append] at h
  rcases h with h | h | ⟨h,hzeros⟩
  · exact .inl (by omega)
  · exact .inr (.inl (by omega))
  · exact .inr (.inr ⟨by omega,fun b hb => hzeros b (List.mem_append_right _ hb)⟩)

theorem HarmlessCut.append {ds zs : Bytes} {n : ℕ} (h : HarmlessCut ds n)
    (hzs : ∀ b ∈ zs, b = 48) (hne : ds ≠ []) : HarmlessCut (zs++ds) (zs.length+n) := by
  have hpos := List.length_pos_iff.mpr hne
  rw [HarmlessCut, List.length_append, List.take_length_add_append]
  rcases h with rfl | h | ⟨h,hzeros⟩
  · exact .inr (.inr ⟨by omega,by simpa using hzs⟩)
  · exact .inr (.inl (by omega))
  · refine .inr (.inr ⟨by omega,fun b hb => ?_⟩)
    exact (List.mem_append.mp hb).elim (hzs b) (hzeros b)

/-- `k` bytes of `data` and `reads` have been taken. -/
def Taken (k : ℕ) (data : Bytes) (reads : List Bytes) (data' : Bytes) (reads' : List Bytes) :
    Prop :=
  ∃ pre, reads = pre++reads' ∧ data.length+pre.flatten.length = k+data'.length

theorem Taken.trans {k l : ℕ} {data data' data'' : Bytes} {reads reads' reads'' : List Bytes}
    (h : Taken k data reads data' reads') (h' : Taken l data' reads' data'' reads'') :
    Taken (k+l) data reads data'' reads'' := by
  obtain ⟨pre,rfl,hlen⟩ := h
  obtain ⟨pre',rfl,hlen'⟩ := h'
  refine ⟨pre++pre',by simp,?_⟩
  rw [List.flatten_append, List.length_append]
  omega

theorem Taken.cut {k n : ℕ} {data data' : Bytes} {reads reads' : List Bytes}
    (h : Taken k data reads data' reads') (hcut : Cut data' reads' n) : Cut data reads (k+n) := by
  obtain ⟨pre,rfl,hlen⟩ := h
  obtain ⟨pre',post,rfl,rfl⟩ := hcut
  refine ⟨pre++pre',post,by simp,?_⟩
  rw [List.flatten_append, List.length_append]
  omega

theorem Taken.mem {k : ℕ} {data data' : Bytes} {reads reads' : List Bytes}
    (h : Taken k data reads data' reads') {piece : Bytes} (hpiece : piece ∈ reads') :
    piece ∈ reads := by
  obtain ⟨pre,rfl,-⟩ := h
  exact List.mem_append_right _ hpiece

theorem numeral_eq_zero_iff {base : ℕ} (hbase : base ≠ 0) (ds : Bytes) :
    numeral base ds = 0 ↔ ∀ b ∈ ds, b = 48 := by
  induction ds with
  | nil => simp [numeral]
  | cons b ds ih =>
    have hb : digit b = 0 ↔ b = 48 := by
      revert b
      exact forall_byte (by decide +kernel)
    have hone : numeral base [b] = digit b := by simp [numeral]
    rw [← List.singleton_append, numeral_append, hone, Nat.add_eq_zero_iff, ih,
      Nat.mul_eq_zero, or_iff_left (pow_ne_zero _ hbase), hb]
    simp

theorem numeral_zeros {zs : Bytes} (hzs : ∀ b ∈ zs, b = 48) (ds : Bytes) :
    numeral 16 (zs++ds) = numeral 16 ds := by
  rw [numeral_append, (numeral_eq_zero_iff (by decide) zs).mpr hzs, Nat.zero_mul, Nat.zero_add]

namespace HttpConnection
variable {buffSize : ℕ} (hbuf : buffSize < 2^31) {r : HttpResponseParser} (hr : r.error = 0)
include hbuf hr

/-- A round whose callbacks change nothing. -/
theorem parseChunkLine_eq {data : Bytes} {q : HttpclientParser} {n : ℕ} {calls : List Callback}
    (hexec : HttpclientParser.init.execute data = (q,some n,calls))
    (hcalls : ∀ c ∈ calls, callback data c = .ok .none) (hcs : q.cs ≠ .error)
    (hlen : (data.drop n).length < buffSize) :
    parseChunkLine buffSize r data = .ok (some ({ r with parser := q },data.drop n)) := by
  have hint : int buffSize = buffSize := intOf_of_lt hbuf
  have hupdates : ∃ us, calls.mapM (callback data) = .ok us ∧
      us.foldl HttpResponseParser.update r = r := by
    clear hexec
    induction calls with
    | nil => exact ⟨[],rfl,rfl⟩
    | cons c calls ih =>
      obtain ⟨us,hus,hfold⟩ := ih fun c hc => hcalls c (List.mem_cons_of_mem _ hc)
      refine ⟨.none :: us,?_,hfold⟩
      rw [List.mapM_cons, hcalls c List.mem_cons_self, hus]
      rfl
  obtain ⟨us,hus,hfold⟩ := hupdates
  have hexecute : r.execute data true = .ok ({ r with parser := q },n,data.drop n) := by
    simp only [HttpResponseParser.execute, if_true, hexec, hus, ok_bind, hfold]
    rfl
  have hno : ¬HttpResponseParser.HasError { r with parser := q } := by
    rintro (h | h)
    · exact h hr
    · exact hcs h
  simp only [parseChunkLine, hexecute, ok_bind, if_neg hno, hint]
  rw [if_neg (by exact_mod_cast hlen.ne)]
  rfl

theorem parseChunkLine_digits (hpos : 0 < buffSize) {ds : Bytes} (hne : ds ≠ [])
    (hds : ∀ b ∈ ds, isXdigit b) :
    parseChunkLine buffSize r ds =
      .ok (some ({ r with parser := { HttpclientParser.init with cs := .chunkSize } },[])) := by
  have h := parseChunkLine_eq hbuf hr (HttpclientParser.execute_digits hne hds)
    (by simp) (by simp) (by simpa using hpos)
  rwa [List.drop_length] at h

theorem parseChunkLine_line {ds more : Bytes} (hne : ds ≠ []) (hds : ∀ b ∈ ds, isXdigit b)
    (hsmall : numeral 16 ds < 2^31) (hmore : more.length < buffSize) :
    parseChunkLine buffSize r (ds++13 :: 10 :: more) =
      .ok (some ({ r with parser := .afterLine ds.length (numeral 16 ds) },more)) := by
  have hdrop : (ds++13 :: 10 :: more).drop (ds.length+2) = more := by
    rw [← List.drop_drop, List.drop_left]
    rfl
  have h := parseChunkLine_eq hbuf hr (HttpclientParser.execute_line hne hds hsmall more)
    (by by_cases hz : numeral 16 ds = 0 <;> simp [callback, hz])
    (by simp [HttpclientParser.afterLine, State.firstFinal])
    (by rwa [hdrop])
  rwa [hdrop] at h

omit hbuf hr in
theorem fits_of_readChunkLine {piece : Bytes} {reads : List Bytes}
    (hrun : readChunkLine buffSize r [] (piece :: reads) ≠ .error .overrun) :
    piece.length ≤ buffSize ∧ piece.length < 2^31 := by
  by_contra hno
  refine hrun ?_
  simp only [readChunkLine, Http.read, List.length_nil, Nat.sub_zero, if_neg hno]
  rfl

omit hbuf hr in
/-- A round ends the loop, or the next read follows. -/
theorem readChunkLine_cons {piece : Bytes} (hne : piece ≠ [])
    (hfits : piece.length ≤ buffSize ∧ piece.length < 2^31) {x : HttpResponseParser × Bytes}
    (hparse : parseChunkLine buffSize r piece = .ok (some x)) (reads : List Bytes) :
    readChunkLine buffSize r [] (piece :: reads) =
      if x.1.IsFinished then .ok (some x,reads) else readChunkLine buffSize x.1 x.2 reads := by
  simp only [readChunkLine, Http.read, List.length_nil, Nat.sub_zero, if_pos hfits, ok_bind,
    if_neg hne, List.nil_append, hparse]
  split <;> rfl

/-- The line is read as it is sent when every cut in it is harmless. -/
theorem readChunkLine_eq {reads : List Bytes} (hreads : ∀ piece ∈ reads, piece ≠ [])
    {ds more : Bytes} (hds : ∀ b ∈ ds, isXdigit b) (hne : ds ≠ [])
    (hsmall : numeral 16 ds < 2^31) (hstream : reads.flatten = ds++13 :: 10 :: more)
    (hcuts : ∀ n, Cut [] reads n → HarmlessCut ds n)
    (hrun : readChunkLine buffSize r [] reads ≠ .error .overrun) :
    ∃ digits data rest, readChunkLine buffSize r [] reads =
        .ok (some ({ r with parser := .afterLine digits (numeral 16 ds) },data),rest) ∧
      data++rest.flatten = more ∧ data.length < buffSize ∧
      Taken (ds.length+2) [] reads data rest := by
  induction reads generalizing ds r with
  | nil => simp at hstream
  | cons piece reads ih =>
    have hpiece := hreads piece List.mem_cons_self
    have hpos := List.length_pos_iff.mpr hpiece
    have hfits := fits_of_readChunkLine hrun
    rw [List.flatten_cons] at hstream
    rcases hcuts piece.length ⟨[piece],reads,rfl,by simp⟩ with hzero | hwhole | ⟨hinside,hzeros⟩
    · omega
    · -- the read holds the whole line
      obtain ⟨tail,rfl⟩ : ds++[13,10] <+: piece := by
        have hline : piece++reads.flatten = (ds++[13,10])++more := by rw [hstream]; simp
        exact prefix_of_stream hline (by simpa using hwhole)
      simp only [List.append_assoc, List.cons_append, List.nil_append, List.length_append,
        List.length_cons] at hstream hpiece hfits ⊢
      have htail : tail.length < buffSize := by omega
      have hparse := parseChunkLine_line hbuf hr hne hds hsmall htail
      refine ⟨ds.length,tail,reads,?_,?_,by omega,[ds++13 :: 10 :: tail],rfl,?_⟩
      · rw [readChunkLine_cons hpiece (by simpa using hfits) hparse]
        exact if_pos rfl
      · simpa using hstream
      · simp
        omega
    · -- the read holds leading zeros only
      obtain ⟨ds,rfl⟩ : piece <+: ds := by
        exact prefix_of_stream hstream.symm hinside.le
      rw [List.take_left] at hzeros
      rw [List.length_append] at hinside
      have hnum := numeral_zeros hzeros ds
      have hparse := parseChunkLine_digits hbuf hr (by omega) hpiece fun b hb =>
        hds b (List.mem_append_left _ hb)
      have hloop := readChunkLine_cons hpiece hfits hparse reads
      rw [if_neg (by simp [HttpResponseParser.IsFinished, State.firstFinal])] at hloop
      rw [hloop] at hrun ⊢
      have htaken : Taken piece.length [] (piece :: reads) [] reads := ⟨[piece],rfl,by simp⟩
      obtain ⟨digits,data,rest,hline,hmore,hlen,htail⟩ := ih (r := { r with
          parser := { HttpclientParser.init with cs := .chunkSize } }) hr
        (fun p hp => hreads p (List.mem_cons_of_mem _ hp))
        (fun b hb => hds b (List.mem_append_right _ hb)) (by rintro rfl; simp at hinside)
        (hnum ▸ hsmall) (by simpa using hstream)
        (fun n hn => (hcuts _ (htaken.cut hn)).drop) hrun
      refine ⟨digits,data,rest,?_,hmore,hlen,?_⟩
      · rw [hline, hnum]
      · have h := htaken.trans htail
        rwa [← Nat.add_assoc, ← List.length_append] at h

omit hbuf hr in
/-- The first round parses what is in the buffer as if it had just been read. -/
theorem recvChunkLine_of_ne {data : Bytes} (hne : data ≠ [])
    (hfits : data.length ≤ buffSize ∧ data.length < 2^31) (reads : List Bytes) :
    recvChunkLine buffSize r data reads = readChunkLine buffSize r [] (data :: reads) := by
  simp only [recvChunkLine, if_neg hne, readChunkLine, Http.read, List.length_nil, Nat.sub_zero,
    if_pos hfits, ok_bind, List.nil_append]

/-- The line is read as it is sent, from the buffer and the reads behind it. -/
theorem recvChunkLine_eq {data : Bytes} {reads : List Bytes} (hdata : data.length ≤ buffSize)
    (hreads : ∀ piece ∈ reads, piece ≠ []) {ds more : Bytes} (hds : ∀ b ∈ ds, isXdigit b)
    (hne : ds ≠ []) (hsmall : numeral 16 ds < 2^31)
    (hstream : data++reads.flatten = ds++13 :: 10 :: more)
    (hcuts : ∀ n, Cut data reads n → HarmlessCut ds n)
    (hrun : recvChunkLine buffSize r data reads ≠ .error .overrun) :
    ∃ digits data' rest, recvChunkLine buffSize r data reads =
        .ok (some ({ r with parser := .afterLine digits (numeral 16 ds) },data'),rest) ∧
      data'++rest.flatten = more ∧ data'.length < buffSize ∧
      Taken (ds.length+2) data reads data' rest := by
  by_cases hempty : data = []
  · subst hempty
    rw [recvChunkLine, if_pos rfl] at hrun ⊢
    exact readChunkLine_eq hbuf hr hreads hds hne hsmall hstream hcuts hrun
  · have hread := recvChunkLine_of_ne (r := r) hempty ⟨hdata,by omega⟩ reads
    have hall : ∀ piece ∈ data :: reads, piece ≠ [] := by simpa [hempty] using hreads
    rw [hread] at hrun ⊢
    obtain ⟨digits,data',rest,hline,hmore,hlen,pre,hpre,htaken⟩ :=
      readChunkLine_eq hbuf hr hall hds hne hsmall hstream
        (by
          rintro n ⟨pre,post,hpre,rfl⟩
          cases pre with
          | nil => exact .inl rfl
          | cons p pre =>
            obtain ⟨rfl,rfl⟩ := List.cons.inj hpre
            exact hcuts _ ⟨pre,post,rfl,by simp⟩) hrun
    refine ⟨digits,data',rest,hline,hmore,hlen,?_⟩
    cases pre with
    | nil => simp only [List.length_nil, List.flatten_nil] at htaken; omega
    | cons p pre =>
      obtain ⟨rfl,rfl⟩ := List.cons.inj hpre
      exact ⟨pre,rfl,by simpa using htaken⟩

end HttpConnection
end CoroutineWebserve.Client
