import CoroutineWebserve.Client.Fields

/-!
# Responses survive `dump`

The parser is given the text of a response. It reads the status line, then every header, and
stops at the first byte of the body.
-/
namespace CoroutineWebserve.Client
open Http Ragel

namespace HttpclientParser
variable {buffer : Bytes} {p : ℕ} {parser : HttpclientParser}

theorem reads_version {version : Bytes} (h : version = bytes "HTTP/1.0" ∨
    version = bytes "HTTP/1.1") (buffer : Bytes) :
    Reads (byteStep buffer) 0 init (version++[32]) [.element .httpVersion 0 8]
      { init with cs := .statusStart } := by
  have hmark : Reads (byteStep buffer) 0 init [72] [] { init with cs := .protocol 1 } :=
    reads_byte init (show Client.step .start 72 = (.protocol 1,[.mark]) by decide) (by decide)
      (by decide)
  have hrest : Reads (byteStep buffer) 1 { init with cs := .protocol 1 } version.tail []
      { init with cs := .minor } := by
    refine reads_silent { init with cs := .protocol 1 } ?_
    rcases h with rfl | rfl <;> decide
  have hlen : version.length = 8 := by rcases h with rfl | rfl <;> rfl
  have hcons : version = 72 :: version.tail := by rcases h with rfl | rfl <;> rfl
  have hend : Reads (byteStep buffer) 8 { init with cs := .minor } [32] [.element .httpVersion 0 8]
      { init with cs := .statusStart } :=
    reads_byte { init with cs := .minor }
      (show Client.step .minor 32 = (.statusStart,[.httpVersion]) by decide) (by decide) (by decide)
  have hversion : Reads (byteStep buffer) 0 init version [] { init with cs := .minor } := by
    rw [hcons]
    exact hmark.cons hrest
  exact hversion.trans (by rwa [hlen])

theorem step_status (b : UInt8) : isDigit b = true →
    Client.step .statusStart b = (.status,[.mark]) ∧ Client.step .status b = (.status,[]) := by
  revert b
  exact forall_byte (by decide +kernel)

theorem reads_status (parser : HttpclientParser) {ds : Bytes} (hne : ds ≠ [])
    (hds : ∀ b ∈ ds, isDigit b) (hcs : parser.cs = .statusStart) (buffer : Bytes) (p : ℕ) :
    Reads (byteStep buffer) p parser (ds++[32]) [.element .statusCode p (p+ds.length)]
      { parser with cs := .reasonStart, mark := p } := by
  obtain ⟨d,ds,rfl⟩ := List.exists_cons_of_ne_nil hne
  have hmark : Reads (byteStep buffer) p parser [d] [] { parser with cs := .status, mark := p } :=
    reads_byte parser (hcs ▸ (step_status d (hds d List.mem_cons_self)).1) (by decide) (by decide)
  have hrest : Reads (byteStep buffer) (p+1) { parser with cs := .status, mark := p } ds []
      { parser with cs := .status, mark := p } := by
    refine reads_silent { parser with cs := .status, mark := p }
      (silent_loop (show State.status ≠ .error by decide) fun b hb => ?_)
    exact (step_status b (hds b (List.mem_cons_of_mem _ hb))).2
  have hend : Reads (byteStep buffer) (p+(d :: ds).length) { parser with cs := .status, mark := p } [32]
      [.element .statusCode p (p+(d :: ds).length)]
      { parser with cs := .reasonStart, mark := p } :=
    reads_byte { parser with cs := .status, mark := p }
      (show Client.step .status 32 = (.reasonStart,[.statusCode]) by decide) (by decide)
      (by decide)
  exact (hmark.cons hrest).trans hend

theorem step_reason {b : UInt8} (hcr : b ≠ 13) (hlf : b ≠ 10) :
    Client.step .reasonStart b = (.reason,[.mark]) ∧ Client.step .reason b = (.reason,[]) := by
  simp [Client.step, hcr, hlf]

theorem reads_reason (parser : HttpclientParser) {reason : Bytes} (hne : reason ≠ [])
    (hreason : ∀ b ∈ reason, b ≠ 13 ∧ b ≠ 10) (hcs : parser.cs = .reasonStart) (buffer : Bytes)
    (p : ℕ) :
    Reads (byteStep buffer) p parser (reason++[13,10])
      [.element .reasonPhrase p (p+reason.length)]
      { parser with cs := .header .start false [], mark := p } := by
  obtain ⟨c,cs,rfl⟩ := List.exists_cons_of_ne_nil hne
  obtain ⟨hcr,hlf⟩ := hreason c List.mem_cons_self
  have hmark : Reads (byteStep buffer) p parser [c] [] { parser with cs := .reason, mark := p } :=
    reads_byte parser (hcs ▸ (step_reason hcr hlf).1) (by decide) (by decide)
  have hrest : Reads (byteStep buffer) (p+1) { parser with cs := .reason, mark := p } cs []
      { parser with cs := .reason, mark := p } := by
    refine reads_silent { parser with cs := .reason, mark := p }
      (silent_loop (show State.reason ≠ .error by decide) fun b hb => ?_)
    obtain ⟨hcr,hlf⟩ := hreason b (List.mem_cons_of_mem _ hb)
    exact (step_reason hcr hlf).2
  have hend : Reads (byteStep buffer) (p+(c :: cs).length) { parser with cs := .reason, mark := p } [13]
      [.element .reasonPhrase p (p+(c :: cs).length)]
      { parser with cs := .header .lineEnd false [], mark := p } :=
    reads_byte { parser with cs := .reason, mark := p }
      (show Client.step .reason 13 = (.header .lineEnd false [],[.reasonPhrase]) by decide)
      (by decide) (by decide)
  have hlf : Reads (byteStep buffer) (p+(c :: cs).length+1)
      { parser with cs := .header .lineEnd false [], mark := p } [10] []
      { parser with cs := .header .start false [], mark := p } :=
    reads_silent { parser with cs := .header .lineEnd false [], mark := p }
      (show silent .error Client.step (.header .lineEnd false []) [10] = _ by decide)
  exact (hmark.cons hrest).trans (hend.cons hlf)

theorem At.of_start (h : parser.cs = .header .start false []) : parser.At .start (· = .space) :=
  ⟨false,[],h,by simp,by simp⟩

/-- The CR of the empty line. -/
theorem At.read_cr (h : parser.At .start fun _ => False) (buffer : Bytes) (p : ℕ) :
    ∃ q, q.cs = .header .headEnd false [] ∧ Reads (byteStep buffer) p parser [13] [] q ∧
      q.fieldStart = parser.fieldStart ∧ q.fieldLen = parser.fieldLen ∧
      q.mark = parser.mark := by
  have hmove : Moves 13 (fun place => False ∨ Line.start = .start ∧ place = .name 0)
      (fun _ => False) .headEnd quiet := by
    rintro k _ move actions (⟨⟨⟩⟩ | ⟨-,rfl⟩) hstep
    cases k <;> cases hstep
  obtain ⟨q,actions,hat,hreads,-,hsub,hstart,hmark,hlen⟩ := h.step_offsets hmove
    (show Line.start.step 13 = (.headEnd,[]) by decide) (by decide) (List.nil_subset _)
    (by decide) (by decide) buffer p
  have hno {a : Action} (ha : a ∉ quiet) : a ∉ actions := fun hmem => ha (hsub hmem)
  obtain ⟨closing,specials,hcs,hplaces,hclosing⟩ := hat
  obtain rfl : specials = [] := List.eq_nil_iff_forall_not_mem.mpr hplaces
  obtain rfl : closing = false := by
    cases closing with
    | false => rfl
    | true => cases hclosing rfl
  refine ⟨q,hcs,hreads,?_,?_,?_⟩
  · exact hstart.trans (if_neg (hno (by decide)))
  · exact (hlen (hno (by decide))).trans (if_neg (hno (by decide)))
  · exact hmark.trans (if_neg (not_or.mpr ⟨hno (by decide),hno (by decide)⟩))

/-- Its LF. -/
theorem byteStep_headEnd (h : parser.cs = .header .headEnd false []) (buffer : Bytes) (p : ℕ) :
    byteStep buffer parser p 10 =
      .done { parser with cs := .firstFinal, bodyStart := p+1 } [.headerDone] := by
  have hlf : Client.step parser.cs 10 = (.firstFinal,[.done]) := by
    rw [h]
    decide
  simp only [byteStep, hlf, State.firstFinal, reduceCtorEq, if_false, List.mem_singleton, if_true]
  rfl

/-- The empty line ends the head. -/
theorem At.exec_end (h : parser.At .start fun _ => False) (buffer : Bytes) (p : ℕ)
    (rest : Bytes) :
    ∃ q, run (byteStep buffer) parser p (13 :: 10 :: rest) = (q,p+2,[.headerDone]) ∧
      q.cs = .firstFinal ∧ q.fieldStart = parser.fieldStart ∧ q.fieldLen = parser.fieldLen ∧
      q.mark = parser.mark := by
  obtain ⟨q,hcs,hreads,hoffsets⟩ := h.read_cr buffer p
  exact ⟨_,hreads.run_done (byteStep_headEnd hcs buffer (p+1)) rest,rfl,hoffsets⟩

end HttpclientParser

theorem numeral_eq {ds : Bytes} (hds : ∀ b ∈ ds, 48 ≤ b ∧ b ≤ 57) :
    numeral 10 ds = decimalValue ds := by
  rw [numeral, decimalValue]
  refine List.foldl_ext _ _ _ fun n b hb => ?_
  rw [digit, if_pos (hds b hb)]

/-- A printed number is read by `strtol`. -/
theorem strtol_decimal {n : ℕ} (hn : n < 2^63) (rest : Bytes) :
    strtol 10 (decimal n++32 :: rest) = n := by
  obtain ⟨hne,hdigits,hvalue⟩ := decimal_decimal n
  have hnumeral : numeral 10 (decimal n) = n := (numeral_eq hdigits).trans hvalue
  rw [strtol_numeral (by omega) hne (fun b hb => ?_) (by simp; decide) (by rwa [hnumeral]),
    hnumeral]
  rw [digit, if_pos (hdigits b hb)]
  have hb := UInt8.le_iff_toNat_le.mp (hdigits b hb).2
  exact Nat.lt_of_le_of_lt (Nat.sub_le_sub_right hb 48) (by decide)

theorem ofInt_toNat (s : UInt32) : UInt32.ofInt s.toNat = s := by
  have hs := s.toNat_lt
  rw [UInt32.ofInt, Int.emod_eq_of_lt (by omega) (by omega), Int.toNat_natCast,
    UInt32.ofNat_toNat]

namespace HttpResponse

/-- A response that can be sent in full: `HttpResponse` with the values that its text can
carry. -/
structure Sendable (r : HttpResponse) : Prop where
  websocket : r.websocket = false
  cookies : r.cookies = []
  version : r.version = 0x10 ∨ r.version = 0x11
  status : r.status < 2^31
  reason : ∀ b ∈ r.reason, b ≠ 13 ∧ b ≠ 10
  sorted : r.headers.Sorted
  names : ∀ e ∈ r.headers, IsFieldName e.1
  values : ∀ e ∈ r.headers, IsFieldValue e.2

/-- The first line. -/
def statusLine (r : HttpResponse) : Bytes :=
  (versionText r.version++[32])++(decimal r.status.toNat++[32])++(r.printedReason++[13,10])

/-- The headers in the order in which they are printed. -/
def fields (r : HttpResponse) : List (Bytes × Bytes) :=
  r.headers++connectionField r.close :: lengthFields r.body

theorem dump_eq {r : HttpResponse} (h : r.Sendable) (tail : Bytes) :
    r.dump++tail = r.statusLine++(r.fields.flatMap fieldLine++13 :: 10 :: (r.body++tail)) := by
  rw [dump, h.websocket, h.cookies, fieldLines_eq h.names, bodyText_eq, fields, statusLine]
  simp [connectionLine, connectionField, show bytes " " = [32] from rfl,
    show bytes "\r\n" = [13,10] from rfl]

/-- The text before the body. -/
def head (r : HttpResponse) : Bytes := r.statusLine++(r.fields.flatMap fieldLine++[13,10])

theorem head_length (r : HttpResponse) :
    r.head.length = r.statusLine.length+(r.fields.flatMap fieldLine).length+2 := by
  simp only [head, List.length_append, List.length_cons, List.length_nil]
  omega

theorem head_append (r : HttpResponse) (rest : Bytes) :
    r.head++rest = r.statusLine++(r.fields.flatMap fieldLine++13 :: 10 :: rest) := by
  simp [head]

theorem dump_eq_head {r : HttpResponse} (h : r.Sendable) (tail : Bytes) :
    r.dump++tail = r.head++(r.body++tail) := by
  rw [dump_eq h, head_append]

theorem tchar_token (b : UInt8) : isTchar b = true → isToken b = true := by
  revert b
  exact forall_byte (by decide +kernel)

theorem fields_facts {r : HttpResponse} (h : r.Sendable) :
    ∀ e ∈ r.fields, e.1 ≠ [] ∧ (∀ b ∈ e.1, isToken b) ∧ IsFieldValue e.2 := by
  intro e he
  rcases List.mem_append.mp he with he | he
  · have hname := h.names e he
    exact ⟨hname.ne,fun b hb => tchar_token b (hname.tchar b hb),h.values e he⟩
  · obtain ⟨hne,htokens,-,hvalue⟩ := printed_facts r.close r.body e he
    refine ⟨hne,fun b hb => tchar_token b (htokens b hb),fun b hb => ?_,fun b hb => ?_⟩
    · obtain ⟨hlf,hcr,-⟩ := HttpclientParser.token_facts b (tchar_token b (hvalue b hb))
      exact ⟨hlf,hcr⟩
    · have hb := hvalue b (List.mem_of_mem_head? hb)
      exact (HttpclientParser.token_facts b (tchar_token b hb)).2.2.2

/-- The last header has a value. -/
theorem fields_concat (r : HttpResponse) : ∃ es e, r.fields = es++[e] ∧ e.2 ≠ [] := by
  have hfacts := printed_facts r.close r.body
  rw [fields]
  rcases Decidable.em (r.body = []) with hbody | hbody
  · rw [lengthFields, if_pos hbody]
    exact ⟨_,_,rfl,(hfacts _ List.mem_cons_self).2.2.1⟩
  · rw [lengthFields, if_neg hbody] at hfacts ⊢
    refine ⟨r.headers++[connectionField r.close],_,by rw [List.append_assoc]; rfl,?_⟩
    exact (hfacts _ (List.mem_cons_of_mem _ List.mem_cons_self)).2.2.1

theorem status_facts : ∀ e ∈ httpStatusMap, e.2 ≠ [] ∧ e.2.all fun b => b ≠ 13 ∧ b ≠ 10 := by
  decide +kernel

theorem reason_facts (s : UInt32) : httpStatusToString s ≠ [] ∧
    ∀ b ∈ httpStatusToString s, b ≠ 13 ∧ b ≠ 10 := by
  suffices h : httpStatusToString s ≠ [] ∧
      (httpStatusToString s).all fun b => b ≠ 13 ∧ b ≠ 10 by
    simpa only [List.all_eq_true, decide_eq_true_eq] using h
  rw [httpStatusToString]
  cases hfind : httpStatusMap.find? (·.1 = s) with
  | none => decide
  | some e => exact status_facts e (List.mem_of_find?_eq_some hfind)

theorem printedReason_facts {r : HttpResponse} (h : r.Sendable) :
    r.printedReason ≠ [] ∧ ∀ b ∈ r.printedReason, b ≠ 13 ∧ b ≠ 10 := by
  rw [printedReason]
  split
  · exact reason_facts r.status
  · next hne => exact ⟨hne,h.reason⟩

/-- The callbacks for the first line. -/
def statusCalls (r : HttpResponse) : List Callback :=
  let status := 9+(decimal r.status.toNat).length
  [.element .httpVersion 0 8,.element .statusCode 9 status,
    .element .reasonPhrase (status+1) (status+1+r.printedReason.length)]

open HttpclientParser in
theorem reads_statusLine {r : HttpResponse} (h : r.Sendable) (buffer : Bytes) :
    ∃ q, q.cs = .header .start false [] ∧ q.chunked = false ∧
      Reads (byteStep buffer) 0 .init r.statusLine r.statusCalls q := by
  have hversion : (versionText r.version++[32]).length = 9 := by
    rcases versionText_eq h.version with ⟨hv,-⟩ | ⟨hv,-⟩ <;> rw [hv] <;> rfl
  have hdigits : ∀ b ∈ decimal r.status.toNat, isDigit b := fun b hb => by
    obtain ⟨hlow,hhigh⟩ := (decimal_decimal r.status.toNat).2.1 b hb
    simp [isDigit, Ragel.inRanges, hlow, hhigh]
  have hreads₁ := reads_version ((versionText_eq h.version).imp And.left And.left) buffer
  have hreads₂ := reads_status { init with cs := .statusStart }
    (decimal_decimal r.status.toNat).1 hdigits rfl buffer
    (0+(versionText r.version++[32]).length)
  obtain ⟨hne,hreason⟩ := printedReason_facts h
  have hreads₃ := reads_reason
    { init with cs := .reasonStart, mark := 0+(versionText r.version++[32]).length } hne hreason
    rfl buffer (0+((versionText r.version++[32])++(decimal r.status.toNat++[32])).length)
  have hboth : ((versionText r.version++[32])++(decimal r.status.toNat++[32])).length =
      9+(decimal r.status.toNat).length+1 := by
    rw [List.length_append, hversion, List.length_append, ← Nat.add_assoc]
    rfl
  have hreads := (hreads₁.trans hreads₂).trans hreads₃
  rw [hboth, hversion, Nat.zero_add, Nat.zero_add] at hreads
  exact ⟨_,rfl,rfl,hreads⟩

theorem callbacks_status {r : HttpResponse} (h : r.Sendable) (rest : Bytes) :
    List.Forall₂ (fun c u => callback (r.statusLine++rest) c = .ok u) r.statusCalls
      [.setVersion r.version,.setStatus r.status,.setReason r.printedReason] := by
  obtain ⟨hne,-⟩ := printedReason_facts h
  have hbuffer : r.statusLine++rest = versionText r.version++(32 :: (decimal r.status.toNat
      ++32 :: (r.printedReason++([13,10]++rest)))) := by
    simp [statusLine]
  have hlen : (versionText r.version).length = 8 := by
    rcases versionText_eq h.version with ⟨hv,-⟩ | ⟨hv,-⟩ <;> rw [hv] <;> rfl
  have hstatus : (r.statusLine++rest).drop 9 =
      decimal r.status.toNat++32 :: (r.printedReason++([13,10]++rest)) := by
    rw [hbuffer, show 9 = (versionText r.version).length+1 by rw [hlen], List.drop_length_add_append]
    rfl
  have hreason : (r.statusLine++rest).drop (9+(decimal r.status.toNat).length+1) =
      r.printedReason++([13,10]++rest) := by
    rw [Nat.add_assoc, ← List.drop_drop, hstatus, List.drop_length_add_append]
    rfl
  refine .cons ?_ (.cons ?_ (.cons ?_ .nil))
  · have htake : (r.statusLine++rest).take (8-0) = versionText r.version := by
      rw [hbuffer, ← hlen]
      exact List.take_left
    rw [callback, List.drop_zero, onResponseVersion, ← strncmpEq_take, htake,
      ← strncmpEq_take _ (bytes "HTTP/1.0"), htake]
    rcases versionText_eq h.version with ⟨htext,hv⟩ | ⟨htext,hv⟩ <;> rw [htext, hv] <;> rfl
  · have hs := r.status.toNat_lt
    rw [callback, hstatus, onResponseStatus, strtol_decimal (by omega), ofInt_toNat]
  · rw [callback, stdString, if_pos (Nat.le_add_right ..), slice, hreason, Nat.add_sub_cancel_left,
      List.take_left]
    rfl

/-- The callbacks for the whole head. -/
def headCalls (r : HttpResponse) : List Callback :=
  r.statusCalls++HttpclientParser.fieldCalls r.statusLine.length r.fields++[.headerDone]

/-- What they set. -/
def headUpdates (r : HttpResponse) : List Update :=
  [.setVersion r.version,.setStatus r.status,.setReason r.printedReason]
    ++r.fields.map (fun e => .setHeader e.1 e.2)++[.none]

theorem callbacks_head {r : HttpResponse} (h : r.Sendable) (rest : Bytes) :
    List.Forall₂ (fun c u => callback (r.head++rest) c = .ok u) r.headCalls r.headUpdates := by
  have hfields : (r.head++rest).drop r.statusLine.length =
      r.fields.flatMap fieldLine++13 :: 10 :: rest := by
    rw [head_append, List.drop_left]
  have hstatus := callbacks_status h (r.fields.flatMap fieldLine++13 :: 10 :: rest)
  rw [← head_append] at hstatus
  exact List.rel_append (List.rel_append hstatus (HttpclientParser.callbacks_fieldCalls
    (fun e he => (fields_facts h e he).1) hfields)) (.cons rfl .nil)

theorem callbacks_dump {r : HttpResponse} (h : r.Sendable) (tail : Bytes) :
    List.Forall₂ (fun c u => callback (r.dump++tail) c = .ok u) r.headCalls r.headUpdates := by
  rw [dump_eq_head h]
  exact callbacks_head h (r.body++tail)

open HttpclientParser in
/-- The parser reads the head to its end, whatever stands behind it. -/
theorem parser_execute_head {r : HttpResponse} (h : r.Sendable) (rest : Bytes) :
    ∃ q, HttpclientParser.init.execute (r.head++rest) = (q,some r.head.length,r.headCalls) ∧
      q.cs = .firstFinal := by
  have hfacts := fields_facts h
  have hbuffer := r.head_append rest
  generalize r.head++rest = buffer at hbuffer ⊢
  rw [head_length]
  obtain ⟨q₁,hcs₁,-,hreads₁⟩ := reads_statusLine h buffer
  have hat₁ := At.of_start hcs₁
  obtain ⟨q₂,hat₂,hchecked,hreads₂⟩ : ∃ q, q.At .start (fun _ => False) ∧
      q.Checked (r.statusLine.length+(r.fields.flatMap fieldLine).length) ∧
      Reads (byteStep buffer) r.statusLine.length q₁ (r.fields.flatMap fieldLine)
        (fieldCalls r.statusLine.length r.fields) q := by
    obtain ⟨es,e,hfields,hlast⟩ := r.fields_concat
    rw [hfields] at hfacts ⊢
    exact hat₁.read_lines_concat (fun d hd => (hfacts d hd).1) (fun d hd => (hfacts d hd).2.1)
      (fun d hd => (hfacts d hd).2.2) hlast buffer _
  obtain ⟨q₃,hend,hcs,hstart,hfieldLen,hmark⟩ := hat₂.exec_end buffer
    (r.statusLine.length+(r.fields.flatMap fieldLine).length) rest
  refine ⟨q₃,HttpclientParser.execute_eq ?_ ?_,hcs⟩
  · have hexec := hreads₁ (r.fields.flatMap fieldLine++13 :: 10 :: rest)
    rw [← hbuffer, Nat.zero_add, hreads₂, hend] at hexec
    rw [exec_eq_run, headCalls, List.append_assoc]
    exact hexec
  · rw [Checked] at hchecked ⊢
    rw [hstart, hfieldLen, hmark, hbuffer, List.length_append, List.length_append]
    omega

theorem parser_execute_dump {r : HttpResponse} (h : r.Sendable) (tail : Bytes) :
    ∃ q, HttpclientParser.init.execute (r.dump++tail) =
        (q,some (r.statusLine.length+(r.fields.flatMap fieldLine).length+2),r.headCalls) ∧
      q.cs = .firstFinal := by
  rw [dump_eq_head h, ← head_length]
  exact parser_execute_head h (r.body++tail)

end HttpResponse

namespace HttpResponseParser

theorem foldl_setHeader (es : List (Bytes × Bytes)) (r : HttpResponseParser) :
    (es.map fun e => Update.setHeader e.1 e.2).foldl update r = { r with data := { r.data with
      headers := es.foldl (fun m e => m.set e.1 e.2) r.data.headers } } := by
  induction es generalizing r with
  | nil => rfl
  | cons e es ih =>
    rw [List.map_cons, List.foldl_cons, ih, List.foldl_cons]
    rfl

theorem execute_eq {r : HttpResponseParser} {data : Bytes} {q : HttpclientParser} {n : ℕ}
    {calls : List Callback} {us : List Update}
    (hrun : r.parser.execute data = (q,some n,calls))
    (hus : List.Forall₂ (fun c u => callback data c = .ok u) calls us) :
    r.execute data false = .ok ({ us.foldl update r with parser := q },n,data.drop n) := by
  have hmap : calls.mapM (callback data) = .ok us := mapM_eq_ok.mpr hus
  simp only [execute, Bool.false_eq_true, if_false, hrun, hmap]
  rfl

/-- What the parser makes of the text of a response, and of what stands behind it. -/
theorem execute_dump {r : HttpResponse} (h : r.Sendable) (tail : Bytes) :
    ∃ q n, new.execute (r.dump++tail) false = .ok (q,n,r.body++tail) ∧ ¬q.HasError ∧
      q.IsFinished ∧ n+r.body.length = r.dump.length ∧ q.data.version = r.version ∧
      q.data.status = r.status ∧ q.data.reason = r.printedReason ∧
      q.data.headers = sentHeaders r.close r.body r.headers := by
  obtain ⟨q,hrun,hcs⟩ := HttpResponse.parser_execute_dump h tail
  have hexecute := execute_eq (r := new) hrun (HttpResponse.callbacks_dump h tail)
  have hdrop : (r.dump++tail).drop (r.statusLine.length+(r.fields.flatMap fieldLine).length+2) =
      r.body++tail := by
    rw [HttpResponse.dump_eq h, Nat.add_assoc, List.drop_length_add_append,
      List.drop_length_add_append]
    rfl
  have hlen : r.statusLine.length+(r.fields.flatMap fieldLine).length+2+r.body.length =
      r.dump.length := by
    have hdump := congrArg List.length (HttpResponse.dump_eq h [])
    simp only [List.append_nil, List.length_append, List.length_cons] at hdump
    omega
  rw [hdrop, HttpResponse.headUpdates, List.foldl_append, List.foldl_append, foldl_setHeader]
    at hexecute
  refine ⟨_,_,hexecute,?_,hcs,hlen,rfl,rfl,rfl,?_⟩
  · rintro (herror | herror)
    · exact herror rfl
    · rw [hcs] at herror
      cases herror
  · exact MapType.foldl_response h.sorted r.close r.body

/-- A header with a special value under a name that only begins like a special one, and one
without a value. -/
def nearMiss : HttpResponse where
  status := 404
  version := 0x11
  close := false
  websocket := false
  body := bytes "<p>"
  reason := []
  headers := [(bytes "Connection-Id",bytes "close"),(bytes "transfer-encoding",[])]
  cookies := []

theorem nearMiss_sendable : nearMiss.Sendable where
  websocket := rfl
  cookies := rfl
  version := .inr rfl
  status := by decide +kernel
  reason := nofun
  sorted := by decide
  names := by decide
  values := by decide

/-- The text and the NUL behind it. -/
theorem execute_dump_nearMiss :
    ∃ q n, new.execute (nearMiss.dump++[0]) false = .ok (q,n,nearMiss.body++[0]) ∧
      ¬q.HasError ∧ q.IsFinished ∧ n+nearMiss.body.length = nearMiss.dump.length ∧
      q.data.version = nearMiss.version ∧ q.data.status = nearMiss.status ∧
      q.data.reason = nearMiss.printedReason ∧
      q.data.headers = sentHeaders nearMiss.close nearMiss.body nearMiss.headers :=
  execute_dump nearMiss_sendable [0]

end HttpResponseParser
end CoroutineWebserve.Client
