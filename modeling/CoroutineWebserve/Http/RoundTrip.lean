import CoroutineWebserve.Http.Fields
import CoroutineWebserve.Ragel.Language

/-!
# Requests survive `dump`

The parser is given the text of a request. It reads the request line, whose target it follows
by the patterns that are left of the grammar, then every header, and stops at the first byte
of the body. Only the method `M-SEARCH` has a byte that the machine does not take.
-/
namespace CoroutineWebserve.Http
open Ragel

/-! ### The request line -/

/-- Behind the first byte of a word the states keep the pattern that is left, to its end. -/
theorem silent_rest {relaxed : Bool} (state : Pattern → State) {ends : List UInt8}
    (hstate : ∀ p, state p ≠ .error)
    (hstep : ∀ rest b, b ∉ ends → step relaxed (state rest) b = within (rest.after b) state [])
    {pattern : Pattern} {b : UInt8} {w : Bytes} (hw : b :: w ∈ pattern.lang)
    (hends : ∀ c ∈ w, c ∉ ends) :
    ∃ last, silent .error (step relaxed) (state (pattern.after b)) w = some (state last) ∧
      last.nullable = true := by
  have hleft := Pattern.mem_after.mpr hw
  refine Pattern.silent_word state hstate (fun rest c hc hrest => ?_) hleft hends
  rw [hstep rest c hc, within, if_neg hrest]

namespace HttpParser

theorem methodByte_facts (b : UInt8) : isMethodByte b = true → b ≠ 32 := by
  revert b
  exact forall_byte (by decide +kernel)

theorem silent_method {relaxed : Bool} {n : ℕ} {bs : Bytes} (hbs : ∀ b ∈ bs, isMethodByte b)
    (hlen : n+bs.length ≤ 20) :
    silent .error (step relaxed) (.method n) bs = some (.method (n+bs.length)) := by
  induction bs generalizing n with
  | nil => rfl
  | cons b bs ih =>
    have hb := hbs b List.mem_cons_self
    rw [List.length_cons] at hlen ⊢
    have hstep : step relaxed (.method n) b = (.method (n+1),[]) := by
      have hn : n < 20 := by omega
      simp [step, methodByte_facts b hb, hb, hn]
    rw [silent_cons hstep (by simp), ih (fun c hc => hbs c (List.mem_cons_of_mem _ hc)) (by omega)]
    rw [Nat.add_assoc, Nat.add_comm 1]

theorem reads_method (u : Uninit) {name : Bytes} (hne : name ≠ [])
    (hname : ∀ b ∈ name, isMethodByte b) (hlen : name.length ≤ 20) :
    Reads byteStep 0 (init u) (name++[32]) [.element .requestMethod 0 name.length]
      { init u with cs := .targetStart (Grammar.relativePart u.uriRelaxed) true } := by
  obtain ⟨b,bs,rfl⟩ := List.exists_cons_of_ne_nil hne
  have hfirst : Reads byteStep 0 (init u) [b] [] { init u with cs := .method 1 } := by
    refine reads_byte (init u) [.mark] ?_ (by decide) (by decide)
    simp [init, step, hname b List.mem_cons_self]
  have hrest : Reads byteStep 1 { init u with cs := .method 1 } bs []
      { init u with cs := .method (1+bs.length) } :=
    reads_silent _ (silent_method (fun c hc => hname c (List.mem_cons_of_mem _ hc))
      (by rw [List.length_cons] at hlen; omega))
  have hend : Reads byteStep (b :: bs).length { init u with cs := .method (1+bs.length) } [32]
      [.element .requestMethod 0 (b :: bs).length]
      { init u with cs := .targetStart (Grammar.relativePart u.uriRelaxed) true } :=
    reads_byte _ [.requestMethod] rfl (by simp) (by decide)
  rw [← Nat.zero_add (b :: bs).length] at hend
  have hmethod := (hfirst.cons hrest).trans hend
  rwa [Nat.zero_add] at hmethod

theorem path_cons {path : Bytes} (h : path ∈ (Grammar.pathAbsolute false).lang) :
    ∃ w, path = 47 :: w := by
  obtain ⟨u,hu,v,-,rfl⟩ := Pattern.mem_lang_cat.mp h
  rw [Pattern.mem_lang_char.mp hu]
  exact ⟨v,rfl⟩

theorem reads_path (parser : HttpParser) {path : Bytes}
    (hpath : path ∈ (Grammar.pathAbsolute false).lang) (hrelaxed : parser.uriRelaxed = false)
    (hcs : parser.cs = .targetStart (Grammar.relativePart false) true) (p : ℕ) :
    ∃ last, Reads byteStep p parser path []
        { parser with cs := .target last false, mark := p } ∧ last.nullable = true := by
  obtain ⟨w,rfl⟩ := path_cons hpath
  have hrelative : 47 :: w ∈ (Grammar.relativePart false).lang :=
    Pattern.mem_lang_alt.mpr (.inl (Pattern.mem_lang_alt.mpr (.inl
      (Pattern.mem_lang_alt.mpr (.inr hpath)))))
  have hends : ∀ b ∈ w, b ∉ [32,35,63] := by
    intro b hb hmem
    have havoid : ∀ c ∈ [32,35,63], (Grammar.pathAbsolute false).avoids c = true := by
      decide +kernel
    exact Pattern.notMem_of_avoids (havoid b hmem) hpath (List.mem_cons_of_mem _ hb)
  have hfirst : Reads byteStep p parser [47] [] { parser with
      cs := .target ((Grammar.relativePart false).after 47) false, mark := p } := by
    refine reads_byte parser [.mark] ?_ (by simp) (by decide)
    rw [hcs, hrelaxed]
    have hnone := Pattern.after_ne_none hrelative
    simp [step, within, hnone, isAlpha, inRanges]
  have hstep : ∀ rest b, b ∉ [32,35,63] →
      step false (.target rest false) b = within (rest.after b) (.target · false) [] := by
    intro rest b hb
    simp only [List.mem_cons, List.not_mem_nil, or_false, not_or] at hb
    simp [step, hb]
  obtain ⟨last,hlast,hnull⟩ := silent_rest (.target · false) (by simp) hstep hrelative hends
  refine ⟨last,hfirst.cons (reads_silent _ ?_),hnull⟩
  rw [hrelaxed]
  exact hlast

theorem reads_query (parser : HttpParser) {query : Bytes} (hne : query ≠ [])
    (hquery : query ∈ (Grammar.query false).lang) (hrelaxed : parser.uriRelaxed = false)
    (hcs : parser.cs = .queryStart) (p : ℕ) :
    ∃ last, Reads byteStep p parser query [] { parser with
      cs := .query last, queryStart := p } ∧ last.nullable = true := by
  obtain ⟨b,w,rfl⟩ := List.exists_cons_of_ne_nil hne
  have hends : ∀ c ∈ b :: w, c ∉ [32,35] := by
    intro c hc hmem
    have havoid : ∀ c ∈ [32,35], (Grammar.query false).avoids c = true := by decide +kernel
    exact Pattern.notMem_of_avoids (havoid c hmem) hquery hc
  have hfirst : Reads byteStep p parser [b] [] { parser with
      cs := .query ((Grammar.query false).after b), queryStart := p } := by
    refine reads_byte parser [.startQuery] ?_ (by simp) (by decide)
    rw [hcs, hrelaxed]
    have hb := hends b List.mem_cons_self
    simp only [List.mem_cons, List.not_mem_nil, or_false, not_or] at hb
    have hnone := Pattern.after_ne_none hquery
    simp [step, within, hnone, hb]
  have hstep : ∀ rest b, b ∉ [32,35] →
      step false (.query rest) b = within (rest.after b) .query [] := by
    intro rest b hb
    simp only [List.mem_cons, List.not_mem_nil, or_false, not_or] at hb
    simp [step, hb]
  obtain ⟨last,hlast,hnull⟩ := silent_rest .query (by simp) hstep hquery fun c hc =>
    hends c (List.mem_cons_of_mem _ hc)
  refine ⟨last,hfirst.cons (reads_silent _ ?_),hnull⟩
  rw [hrelaxed]
  exact hlast

theorem reads_fragment (parser : HttpParser) {fragment : Bytes} (hne : fragment ≠ [])
    (hfragment : fragment ∈ (Grammar.fragment false).lang) (hrelaxed : parser.uriRelaxed = false)
    (hcs : parser.cs = .fragmentStart) (p : ℕ) :
    Reads byteStep p parser (fragment++[32]) [.element .fragment p (p+fragment.length)]
      { parser with cs := .versionStart, mark := p } := by
  obtain ⟨b,w,rfl⟩ := List.exists_cons_of_ne_nil hne
  have hends : ∀ c ∈ b :: w, c ∉ [32] := by
    intro c hc hmem
    have havoid : ∀ c ∈ [32], (Grammar.fragment false).avoids c = true := by decide +kernel
    exact Pattern.notMem_of_avoids (havoid c hmem) hfragment hc
  have hfirst : Reads byteStep p parser [b] [] { parser with
      cs := .fragment ((Grammar.fragment false).after b), mark := p } := by
    refine reads_byte parser [.mark] ?_ (by simp) (by decide)
    rw [hcs, hrelaxed]
    have hb := hends b List.mem_cons_self
    rw [List.mem_singleton] at hb
    have hnone := Pattern.after_ne_none hfragment
    simp [step, within, hnone, hb]
  have hstep : ∀ rest b, b ∉ [32] →
      step false (.fragment rest) b = within (rest.after b) .fragment [] := by
    intro rest b hb
    rw [List.mem_singleton] at hb
    simp [step, hb]
  obtain ⟨last,hlast,hnull⟩ := silent_rest .fragment (by simp) hstep hfragment fun c hc =>
    hends c (List.mem_cons_of_mem _ hc)
  have hrest : Reads byteStep (p+1) { parser with
      cs := .fragment ((Grammar.fragment false).after b), mark := p } w []
      { parser with cs := .fragment last, mark := p } :=
    reads_silent _ (by rw [hrelaxed]; exact hlast)
  have hend : Reads byteStep (p+(b :: w).length) { parser with cs := .fragment last, mark := p }
      [32] [.element .fragment p (p+(b :: w).length)]
      { parser with cs := .versionStart, mark := p } := by
    refine reads_byte _ [.fragment] ?_ (by decide) (by decide)
    simp [step, hnull]
  exact (hfirst.cons hrest).trans hend

/-- The query as it is printed. -/
def queryText (query : Bytes) : Bytes := if query = [] then [] else 63 :: query

/-- The fragment as it is printed. -/
def fragmentText (fragment : Bytes) : Bytes := if fragment = [] then [] else 35 :: fragment

/-- The callback for a query that ends at offset `p`. -/
def queryCalls (query : Bytes) (p : ℕ) : List Callback :=
  if query = [] then [] else [.element .queryString (p-query.length) p]

/-- The callback for a fragment that ends at offset `p`. -/
def fragmentCalls (fragment : Bytes) (p : ℕ) : List Callback :=
  if fragment = [] then [] else [.element .fragment (p-fragment.length) p]

/-- The state behind a target, or behind its `#`. -/
def afterTarget (b : UInt8) : State := if b = 32 then .versionStart else .fragmentStart

/-- The end of a path, with the query that may follow it, and the byte behind them. -/
theorem reads_pathEnd (parser : HttpParser) {last : Pattern} (hnull : last.nullable = true)
    {query : Bytes} (hquery : query ∈ (Grammar.query false).lang)
    (hrelaxed : parser.uriRelaxed = false) (hcs : parser.cs = .target last false) {b : UInt8}
    (hb : b = 32 ∨ b = 35) (p : ℕ) :
    ∃ q, Reads byteStep p parser (queryText query++[b])
        (.element .requestPath parser.mark p :: queryCalls query (p+(queryText query).length)
          ++[.element .requestUri parser.mark (p+(queryText query).length)]) q ∧
      q.cs = afterTarget b ∧ Same parser q := by
  by_cases hne : query = []
  · rw [queryText, queryCalls, if_pos hne, if_pos hne]
    refine ⟨{ parser with cs := afterTarget b },?_,rfl,⟨rfl,rfl,rfl⟩⟩
    refine reads_byte parser [.requestPath,.requestUri] ?_ ?_ (by decide)
    · rw [hcs]
      rcases hb with rfl | rfl <;> simp [step, hnull, afterTarget]
    · rcases hb with rfl | rfl <;> decide
  · have hmark : Reads byteStep p parser [63] [.element .requestPath parser.mark p]
        { parser with cs := .queryStart } := by
      refine reads_byte parser [.requestPath] ?_ (by decide) (by decide)
      rw [hcs]
      simp [step, hnull]
    obtain ⟨last,hreads,hnull⟩ := reads_query { parser with cs := .queryStart } hne hquery hrelaxed
      rfl (p+1)
    have hend : Reads byteStep (p+(63 :: query).length) { parser with
          cs := .query last, queryStart := p+1 } [b]
        [.element .queryString (p+1) (p+(63 :: query).length),
          .element .requestUri parser.mark (p+(63 :: query).length)]
        { parser with cs := afterTarget b, queryStart := p+1 } := by
      refine reads_byte _ [.queryString,.requestUri] ?_ ?_ (by decide)
      · rcases hb with rfl | rfl <;> simp [step, hnull, afterTarget]
      · rcases hb with rfl | rfl <;> decide
    have hstart : p+(63 :: query).length-query.length = p+1 := by
      rw [List.length_cons]
      omega
    rw [queryText, queryCalls, if_neg hne, if_neg hne, hstart]
    exact ⟨_,(hmark.cons hreads).trans hend,rfl,⟨rfl,rfl,rfl⟩⟩

/-- The target from its first byte to the blank behind it, with its callbacks. -/
theorem reads_target (parser : HttpParser) {path query fragment : Bytes}
    (hpath : path ∈ (Grammar.pathAbsolute false).lang)
    (hquery : query ∈ (Grammar.query false).lang)
    (hfragment : fragment ∈ (Grammar.fragment false).lang) (hrelaxed : parser.uriRelaxed = false)
    (hcs : parser.cs = .targetStart (Grammar.relativePart false) true) (p : ℕ) :
    let pathEnd := p+path.length
    let queryEnd := pathEnd+(queryText query).length
    let fragmentEnd := queryEnd+(fragmentText fragment).length
    ∃ q, Reads byteStep p parser (path++(queryText query++(fragmentText fragment++[32])))
        (.element .requestPath p pathEnd :: queryCalls query queryEnd
          ++[.element .requestUri p queryEnd]++fragmentCalls fragment fragmentEnd) q ∧
      q.cs = .versionStart ∧ Same parser q := by
  intro pathEnd queryEnd fragmentEnd
  obtain ⟨last,hreads,hnull⟩ := reads_path parser hpath hrelaxed hcs p
  have hpathEnd {b : UInt8} (hb : b = 32 ∨ b = 35) := reads_pathEnd { parser with
    cs := .target last false, mark := p } hnull hquery hrelaxed rfl hb pathEnd
  by_cases hne : fragment = []
  · obtain ⟨q,hreads',hq,hsame⟩ := hpathEnd (.inl rfl)
    rw [fragmentText, fragmentCalls, if_pos hne, if_pos hne, List.append_nil]
    exact ⟨q,hreads.trans hreads',hq,hsame.uriRelaxed,hsame.xmlSent,hsame.jsonSent⟩
  · obtain ⟨q,hreads',hq,hsame⟩ := hpathEnd (.inr rfl)
    have hfragment' := reads_fragment q hne hfragment (hsame.uriRelaxed.trans hrelaxed) hq
      (p+(path++(queryText query++[35])).length)
    have hwhole := (hreads.trans hreads').trans hfragment'
    have hstart : p+(path++(queryText query++[35])).length = queryEnd+1 := by
      simp only [queryEnd, pathEnd, List.length_append, List.length_singleton]
      omega
    have hend : fragmentEnd = queryEnd+1+fragment.length := by
      simp only [fragmentEnd, fragmentText, if_neg hne, List.length_cons]
      omega
    rw [hstart] at hwhole
    rw [fragmentText, fragmentCalls, if_neg hne, if_neg hne, hend, Nat.add_sub_cancel]
    refine ⟨{ q with cs := .versionStart, mark := queryEnd+1 },?_,rfl,hsame.uriRelaxed,
      hsame.xmlSent,hsame.jsonSent⟩
    simpa using hwhole

theorem reads_version (parser : HttpParser) {version : Bytes}
    (h : version = bytes "HTTP/1.0" ∨ version = bytes "HTTP/1.1") (hcs : parser.cs = .versionStart)
    (p : ℕ) :
    Reads byteStep p parser (version++[13,10]) [.element .httpVersion p (p+8)]
      { parser with cs := .headerStart, mark := p } := by
  have hlen : version.length = 8 := by rcases h with rfl | rfl <;> rfl
  have hcons : version = 72 :: version.tail := by rcases h with rfl | rfl <;> rfl
  have hfirst : Reads byteStep p parser [72] [] { parser with cs := .version 1, mark := p } := by
    refine reads_byte parser [.mark] ?_ (by simp) (by decide)
    rw [hcs]
    rfl
  have hrest : Reads byteStep (p+1) { parser with cs := .version 1, mark := p } version.tail []
      { parser with cs := .version 8, mark := p } := by
    have hsilent : ∀ relaxed,
        silent .error (step relaxed) (.version 1) version.tail = some (.version 8) := by
      rcases h with rfl | rfl <;> decide
    exact reads_silent _ (hsilent _)
  have hversion : Reads byteStep p parser version [] { parser with
      cs := .version 8, mark := p } := by
    rw [hcons]
    exact hfirst.cons hrest
  have hcr : Reads byteStep (p+8) { parser with cs := .version 8, mark := p } [13]
      [.element .httpVersion p (p+8)] { parser with cs := .lineEnd, mark := p } :=
    reads_byte _ [.httpVersion] rfl (by simp) (by decide)
  refine hversion.trans ?_
  rw [hlen]
  exact hcr.cons (reads_lineEnd _ rfl _)

end HttpParser

/-! ### The text of a request -/

namespace HttpRequest

/-- A request that can be sent in full: `HttpRequest` with the values that its text can
carry. -/
structure Sendable (r : HttpRequest) : Prop where
  method : r.method ≠ .INVALID_METHOD
  version : r.version = 0x10 ∨ r.version = 0x11
  path : r.path ∈ (Grammar.pathAbsolute false).lang
  query : r.query ∈ (Grammar.query false).lang
  fragment : r.fragment ∈ (Grammar.fragment false).lang
  sorted : r.headers.Sorted
  names : ∀ e ∈ r.headers, IsFieldName e.1
  values : ∀ e ∈ r.headers, IsFieldValue e.2

open HttpParser

/-- The target and the blank behind it. -/
def targetText (r : HttpRequest) : Bytes :=
  r.path++(queryText r.query++(fragmentText r.fragment++[32]))

/-- The first line. -/
def requestLine (r : HttpRequest) : Bytes :=
  (httpMethodToString r.method++[32])++(r.targetText++(versionText r.version++[13,10]))

/-- The headers in the order in which they are printed. -/
def fields (r : HttpRequest) : List (Bytes × Bytes) :=
  connectionField r.close :: r.headers++lengthFields r.body

theorem dump_eq {r : HttpRequest} (h : r.Sendable) :
    r.dump false = r.requestLine++(r.fields.flatMap fieldLine++13 :: 10 :: r.body) := by
  rw [dump, fieldLines_eq h.names, bodyText_eq, fields, requestLine, targetText, queryText,
    fragmentText]
  simp only [connectionLine, connectionField, Bool.false_eq_true, if_false,
    show bytes " " = [32] from rfl, show bytes "\r\n" = [13,10] from rfl,
    show bytes "?" = [63] from rfl, show bytes "#" = [35] from rfl]
  split_ifs <;> simp_all

/-- Every method but `M-SEARCH` has a name that the machine takes. -/
theorem method_facts {m : HttpMethod} (h : m ≠ .INVALID_METHOD) (h' : m ≠ .MSEARCH) :
    httpMethodToString m ≠ [] ∧ (∀ b ∈ httpMethodToString m, isMethodByte b) ∧
      (httpMethodToString m).length ≤ 20 := by
  suffices hall : httpMethodToString m ≠ [] ∧ (httpMethodToString m).all isMethodByte ∧
      (httpMethodToString m).length ≤ 20 by
    rwa [List.all_eq_true] at hall
  cases m with
  | INVALID_METHOD => exact absurd rfl h
  | MSEARCH => exact absurd rfl h'
  | _ => decide +kernel

theorem charsToHttpMethod_toString (m : HttpMethod) (h : m ≠ .INVALID_METHOD) :
    charsToHttpMethod (httpMethodToString m) = m := by
  cases m with
  | INVALID_METHOD => exact absurd rfl h
  | _ => decide

/-- The offsets of the parts of the first line. -/
def targetStart (r : HttpRequest) : ℕ := (httpMethodToString r.method).length+1
def pathEnd (r : HttpRequest) : ℕ := r.targetStart+r.path.length
def queryEnd (r : HttpRequest) : ℕ := r.pathEnd+(queryText r.query).length
def fragmentEnd (r : HttpRequest) : ℕ := r.queryEnd+(fragmentText r.fragment).length

/-- The callbacks for the first line. -/
def lineCalls (r : HttpRequest) : List Callback :=
  [.element .requestMethod 0 (httpMethodToString r.method).length]
    ++((.element .requestPath r.targetStart r.pathEnd :: queryCalls r.query r.queryEnd
      ++[.element .requestUri r.targetStart r.queryEnd]++fragmentCalls r.fragment r.fragmentEnd)
    ++[.element .httpVersion (r.fragmentEnd+1) (r.fragmentEnd+1+8)])

/-- The first line is read to its end. -/
theorem reads_requestLine {u : Uninit} (hu : u.uriRelaxed = false) {r : HttpRequest}
    (h : r.Sendable) (hmethod : r.method ≠ .MSEARCH) :
    ∃ q, Reads byteStep 0 (.init u) r.requestLine r.lineCalls q ∧ q.cs = .headerStart ∧
      Same (.init u) q := by
  obtain ⟨hne,hbytes,hlen⟩ := method_facts h.method hmethod
  have hname := reads_method u hne hbytes hlen
  rw [hu] at hname
  have hstart : 0+(httpMethodToString r.method++[32]).length = r.targetStart := by
    rw [Nat.zero_add, List.length_append]
    rfl
  obtain ⟨q,htarget,hq,hsame⟩ := reads_target { HttpParser.init u with
    cs := .targetStart (Grammar.relativePart false) true } h.path h.query h.fragment hu rfl
    r.targetStart
  have hend : r.targetStart+r.targetText.length = r.fragmentEnd+1 := by
    simp only [targetText, fragmentEnd, queryEnd, pathEnd, List.length_append,
      List.length_singleton]
    omega
  have hversion := reads_version q ((versionText_eq h.version).imp And.left And.left) hq
    (r.fragmentEnd+1)
  have htext : Reads byteStep r.targetStart _ r.targetText _ q := htarget
  refine ⟨{ q with cs := .headerStart, mark := r.fragmentEnd+1 },?_,rfl,hsame.uriRelaxed,
    hsame.xmlSent,hsame.jsonSent⟩
  refine hname.trans ?_
  rw [hstart]
  refine htext.trans ?_
  rw [hend]
  exact hversion

/-- The callbacks for the whole head. -/
def headCalls (r : HttpRequest) : List Callback :=
  r.lineCalls++fieldCalls r.requestLine.length r.fields++[.headerDone]

theorem fields_facts {r : HttpRequest} (h : r.Sendable) :
    ∀ e ∈ r.fields, e.1 ≠ [] ∧ (∀ b ∈ e.1, isTchar b) ∧ IsFieldValue e.2 := by
  have hprinted : ∀ e ∈ connectionField r.close :: lengthFields r.body,
      e.1 ≠ [] ∧ (∀ b ∈ e.1, isTchar b) ∧ IsFieldValue e.2 := by
    intro e he
    obtain ⟨hne,htchars,-,hvalue⟩ := printed_facts r.close r.body e he
    refine ⟨hne,htchars,fun b hb => ?_,fun b hb => ?_⟩
    · obtain ⟨-,hcontent,-,hlf,hcr,-⟩ := tchar_facts b (hvalue b hb)
      exact ⟨hcontent,hlf,hcr⟩
    · obtain ⟨-,-,htab,-,-,hblank,-⟩ := tchar_facts b (hvalue b (List.mem_of_mem_head? hb))
      exact ⟨htab,hblank⟩
  intro e he
  rcases List.mem_append.mp he with he | he
  · rcases List.mem_cons.mp he with rfl | he
    · exact hprinted _ List.mem_cons_self
    · have hname := h.names e he
      exact ⟨hname.ne,hname.tchar,h.values e he⟩
  · exact hprinted e (List.mem_cons_of_mem _ he)

/-- The empty line ends the head. -/
theorem run_headEnd (parser : HttpParser) (hcs : parser.cs = .headerStart)
    (hxml : parser.xmlSent = false) (hjson : parser.jsonSent = false) (p : ℕ) (rest : Bytes) :
    ∃ q, run byteStep parser p (13 :: 10 :: rest) = (q,p+2,[.headerDone]) ∧
      q.cs = .requestDone := by
  have hcr : Reads byteStep p parser [13] [] { parser with cs := .headerCr, fieldStart := p } := by
    refine reads_byte parser [.startField] ?_ (by decide) (by decide)
    rw [hcs]
    rfl
  have hlf : byteStep { parser with cs := .headerCr, fieldStart := p } (p+1) 10 =
      .done { parser with cs := .requestDone, fieldStart := p, bodyStart := p+2 }
        [.headerDone] := by
    simp [byteStep, step, HttpParser.enter, HttpParser.runActions, HttpParser.runAction, hxml,
      hjson]
  exact ⟨_,hcr.run_done hlf rest,rfl⟩

/-- The text before the body. -/
def head (r : HttpRequest) : Bytes := r.requestLine++(r.fields.flatMap fieldLine++[13,10])

theorem head_length (r : HttpRequest) :
    r.head.length = r.requestLine.length+(r.fields.flatMap fieldLine).length+2 := by
  simp only [head, List.length_append, List.length_cons, List.length_nil]
  omega

theorem dump_eq_head {r : HttpRequest} (h : r.Sendable) : r.dump false = r.head++r.body := by
  rw [dump_eq h, head]
  simp

/-- The parser reads the head to its end, whatever stands behind it. -/
theorem exec_head {u : Uninit} (hu : u.uriRelaxed = false) {r : HttpRequest} (h : r.Sendable)
    (hmethod : r.method ≠ .MSEARCH) (rest : Bytes) :
    ∃ q, (HttpParser.init u).execute (r.head++rest) = (q,r.head.length,r.headCalls) ∧
      q.cs = .requestDone := by
  have hfacts := fields_facts h
  obtain ⟨q₁,hline,hq₁,hsame₁⟩ := reads_requestLine hu h hmethod
  obtain ⟨q₂,hfields,hq₂,hsame₂⟩ := reads_lines (fun e he => (hfacts e he).1)
    (fun e he => (hfacts e he).2.1) (fun e he => (hfacts e he).2.2) q₁ hq₁ r.requestLine.length
  obtain ⟨q₃,hend,hq₃⟩ := run_headEnd q₂ hq₂ (hsame₂.xmlSent.trans hsame₁.xmlSent)
    (hsame₂.jsonSent.trans hsame₁.jsonSent)
    (r.requestLine.length+(r.fields.flatMap fieldLine).length) rest
  have hexec := hline (r.fields.flatMap fieldLine++13 :: 10 :: rest)
  have htext : r.requestLine++(r.fields.flatMap fieldLine++13 :: 10 :: rest) = r.head++rest := by
    simp [head]
  rw [Nat.zero_add, hfields, hend, htext, ← head_length] at hexec
  have hne : r.head++rest ≠ [] := by
    rw [← htext]
    simp
  refine ⟨q₃,?_,hq₃⟩
  rw [HttpParser.execute, if_neg hne, exec_eq_run, headCalls, List.append_assoc]
  exact hexec

theorem exec_dump {u : Uninit} (hu : u.uriRelaxed = false) {r : HttpRequest} (h : r.Sendable)
    (hmethod : r.method ≠ .MSEARCH) :
    ∃ q, (HttpParser.init u).execute (r.dump false) =
        (q,r.requestLine.length+(r.fields.flatMap fieldLine).length+2,r.headCalls) ∧
      q.cs = .requestDone := by
  rw [dump_eq_head h, ← head_length]
  exact exec_head hu h hmethod r.body

/-! ### What the callbacks set -/

theorem stdString_of_drop {buffer s rest : Bytes} {start : ℕ} (h : buffer.drop start = s++rest) :
    stdString buffer start (start+s.length) = .ok s := by
  rw [stdString, if_pos (Nat.le_add_right ..), slice, h, Nat.add_sub_cancel_left, List.take_left]

def queryUpdates (query : Bytes) : List Update := if query = [] then [] else [.setQuery query]

def fragmentUpdates (fragment : Bytes) : List Update :=
  if fragment = [] then [] else [.setFragment fragment]

theorem callbacks_query {buffer query rest : Bytes} {p : ℕ}
    (h : buffer.drop p = queryText query++rest) :
    List.Forall₂ (fun c u => callback buffer c = .ok u)
      (queryCalls query (p+(queryText query).length)) (queryUpdates query) := by
  rw [queryText] at h ⊢
  rw [queryCalls, queryUpdates]
  split_ifs at h ⊢
  · exact .nil
  · have hend : p+(63 :: query).length = p+1+query.length := by
      rw [List.length_cons]
      omega
    have hdrop : buffer.drop (p+1) = query++rest := by
      rw [← List.drop_drop, h]
      rfl
    rw [hend, Nat.add_sub_cancel]
    exact .cons (by rw [callback, stdString_of_drop hdrop]; rfl) .nil

theorem callbacks_fragment {buffer fragment rest : Bytes} {p : ℕ}
    (h : buffer.drop p = fragmentText fragment++rest) :
    List.Forall₂ (fun c u => callback buffer c = .ok u)
      (fragmentCalls fragment (p+(fragmentText fragment).length)) (fragmentUpdates fragment) := by
  rw [fragmentText] at h ⊢
  rw [fragmentCalls, fragmentUpdates]
  split_ifs at h ⊢
  · exact .nil
  · have hend : p+(35 :: fragment).length = p+1+fragment.length := by
      rw [List.length_cons]
      omega
    have hdrop : buffer.drop (p+1) = fragment++rest := by
      rw [← List.drop_drop, h]
      rfl
    rw [hend, Nat.add_sub_cancel]
    exact .cons (by rw [callback, stdString_of_drop hdrop]; rfl) .nil

/-- What the callbacks for the first line set. -/
def lineUpdates (r : HttpRequest) : List Update :=
  [.setMethod r.method]++((.setPath r.path :: queryUpdates r.query++[.none]
    ++fragmentUpdates r.fragment)++[.setVersion r.version])

theorem callbacks_line {r : HttpRequest} (h : r.Sendable) (rest : Bytes) :
    List.Forall₂ (fun c u => callback (r.requestLine++rest) c = .ok u) r.lineCalls
      r.lineUpdates := by
  have hbuffer : r.requestLine++rest = httpMethodToString r.method++32 :: (r.path++(queryText r.query
      ++(fragmentText r.fragment++32 :: (versionText r.version++([13,10]++rest))))) := by
    simp [requestLine, targetText]
  generalize r.requestLine++rest = buffer at hbuffer ⊢
  have hpath : buffer.drop r.targetStart = r.path++(queryText r.query
      ++(fragmentText r.fragment++32 :: (versionText r.version++([13,10]++rest)))) := by
    rw [hbuffer, targetStart, List.drop_length_add_append]
    rfl
  have hquery : buffer.drop r.pathEnd = queryText r.query
      ++(fragmentText r.fragment++32 :: (versionText r.version++([13,10]++rest))) := by
    rw [pathEnd, ← List.drop_drop, hpath, List.drop_left]
  have hfragment : buffer.drop r.queryEnd =
      fragmentText r.fragment++32 :: (versionText r.version++([13,10]++rest)) := by
    rw [queryEnd, ← List.drop_drop, hquery, List.drop_left]
  have hversion : buffer.drop (r.fragmentEnd+1) = versionText r.version++([13,10]++rest) := by
    rw [fragmentEnd, Nat.add_assoc, ← List.drop_drop, hfragment, List.drop_length_add_append]
    rfl
  have hlen : (versionText r.version).length = 8 := by
    rcases versionText_eq h.version with ⟨hv,-⟩ | ⟨hv,-⟩ <;> rw [hv] <;> rfl
  have hmethod : callback buffer (.element .requestMethod 0 (httpMethodToString r.method).length) =
      .ok (.setMethod r.method) := by
    rw [callback, List.drop_zero, hbuffer, onRequestMethod, charsToHttpMethod_append,
      charsToHttpMethod_toString _ h.method]
    cases hm : r.method with
    | INVALID_METHOD => exact absurd hm h.method
    | _ => rfl
  refine .cons hmethod (List.rel_append (List.rel_append (List.rel_append (.cons ?_
    (callbacks_query hquery)) (.cons rfl .nil)) (callbacks_fragment hfragment)) (.cons ?_ .nil))
  · rw [callback, pathEnd, stdString_of_drop hpath]
    rfl
  · have htake : (buffer.drop (r.fragmentEnd+1)).take 8 = versionText r.version := by
      rw [hversion, ← hlen, List.take_left]
    rw [callback, Nat.add_sub_cancel_left, onRequestVersion, ← strncmpEq_take, htake,
      ← strncmpEq_take _ (bytes "HTTP/1.0"), htake]
    rcases versionText_eq h.version with ⟨htext,hv⟩ | ⟨htext,hv⟩ <;> rw [htext, hv] <;> rfl

theorem callbacks_head {r : HttpRequest} (h : r.Sendable) (rest : Bytes) :
    List.Forall₂ (fun c u => callback (r.head++rest) c = .ok u) r.headCalls
      (r.lineUpdates++r.fields.map (fun e => .setHeader e.1 e.2)++[.none]) := by
  have htext : r.head++rest = r.requestLine++(r.fields.flatMap fieldLine++13 :: 10 :: rest) := by
    simp [head]
  have hfields : (r.head++rest).drop r.requestLine.length =
      r.fields.flatMap fieldLine++13 :: 10 :: rest := by
    rw [htext, List.drop_left]
  have hline := callbacks_line h (r.fields.flatMap fieldLine++13 :: 10 :: rest)
  rw [← htext] at hline
  exact List.rel_append (List.rel_append hline (callbacks_fieldCalls
    (fun e he => (fields_facts h e he).1) hfields)) (.cons rfl .nil)

theorem callbacks_dump {r : HttpRequest} (h : r.Sendable) :
    List.Forall₂ (fun c u => callback (r.dump false) c = .ok u) r.headCalls
      (r.lineUpdates++r.fields.map (fun e => .setHeader e.1 e.2)++[.none]) := by
  rw [dump_eq_head h]
  exact callbacks_head h r.body

end HttpRequest

namespace HttpRequestParser

theorem foldl_setHeader (es : List (Bytes × Bytes)) (r : HttpRequestParser) :
    (es.map fun e => Update.setHeader e.1 e.2).foldl update r = { r with data := { r.data with
      headers := es.foldl (fun m e => m.set e.1 e.2) r.data.headers } } := by
  induction es generalizing r with
  | nil => rfl
  | cons e es ih =>
    rw [List.map_cons, List.foldl_cons, ih, List.foldl_cons]
    rfl

theorem foldl_lineUpdates (u : Uninit) (r : HttpRequest) :
    r.lineUpdates.foldl update (new u) = { new u with data := { HttpRequest.new with
      method := r.method, path := r.path, query := r.query, fragment := r.fragment,
      version := r.version } } := by
  rw [HttpRequest.lineUpdates, HttpRequest.queryUpdates, HttpRequest.fragmentUpdates]
  split_ifs with hquery hfragment hfragment
  all_goals simp_all [update, new, HttpRequest.new]

/-- The parser gives back the request whose text it was given: it stops at the first byte of
the body, and its request has the same parts and the headers that were sent. -/
def Restores (u : Uninit) (r : HttpRequest) : Prop :=
  ∃ q n, (new u).execute (r.dump false) = .ok (q,n,r.body) ∧ ¬q.HasError ∧ q.IsFinished ∧
    n+r.body.length = (r.dump false).length ∧ q.data.method = r.method ∧
    q.data.version = r.version ∧ q.data.path = r.path ∧ q.data.query = r.query ∧
    q.data.fragment = r.fragment ∧ q.data.headers = sentHeaders r.close r.body r.headers

theorem restores {u : Uninit} (hu : u.uriRelaxed = false) {r : HttpRequest} (h : r.Sendable)
    (hmethod : r.method ≠ .MSEARCH) : Restores u r := by
  obtain ⟨q,hrun,hcs⟩ := HttpRequest.exec_dump hu h hmethod
  have hrun' : (new u).parser.execute (r.dump false) = _ := hrun
  have hexecute := execute_eq_ok.mpr ⟨_,by rw [hrun']; exact HttpRequest.callbacks_dump h,rfl⟩
  have hdrop : (r.dump false).drop (r.requestLine.length+(r.fields.flatMap fieldLine).length+2) =
      r.body := by
    rw [HttpRequest.dump_eq h, Nat.add_assoc, List.drop_length_add_append,
      List.drop_length_add_append]
    rfl
  have hlen : r.requestLine.length+(r.fields.flatMap fieldLine).length+2+r.body.length =
      (r.dump false).length := by
    rw [HttpRequest.dump_eq h]
    simp only [List.length_append, List.length_cons]
    omega
  rw [hrun', hdrop, List.foldl_append, List.foldl_append, foldl_lineUpdates, foldl_setHeader]
    at hexecute
  refine ⟨_,_,hexecute,?_,?_,hlen,rfl,rfl,rfl,rfl,rfl,?_⟩
  · rintro (herror | herror)
    · exact herror rfl
    · rw [hcs] at herror
      cases herror
  · rw [IsFinished, hcs]
    trivial
  · exact MapType.foldl_request h.sorted h.names r.close r.body

/-- The machine stops at the `-` of `M-SEARCH`. -/
theorem not_restores (u : Uninit) {r : HttpRequest} (hmethod : r.method = .MSEARCH) :
    ¬Restores u r := by
  rintro ⟨q,n,hexecute,hno,-⟩
  obtain ⟨us,-,hq⟩ := execute_eq_ok.mp hexecute
  have hdump : ∃ rest, r.dump false = 77 :: 45 :: rest := by
    rw [HttpRequest.dump, hmethod]
    exact ⟨_,rfl⟩
  obtain ⟨rest,hdump⟩ := hdump
  have hcs : ((HttpParser.init u).execute (r.dump false)).1.cs = .error := by
    rw [hdump]
    rfl
  generalize r.dump false = text at hq hcs
  have hq' := congrArg (fun x : HttpRequestParser × ℕ × Bytes => x.1.parser.cs) hq
  exact hno (.inr (hq'.trans hcs))

/-- A request that can be sent in full comes back, unless its method is `M-SEARCH`. -/
theorem restores_iff {u : Uninit} (hu : u.uriRelaxed = false) {r : HttpRequest}
    (h : r.Sendable) : Restores u r ↔ r.method ≠ .MSEARCH :=
  ⟨fun h hmethod => not_restores u hmethod h,restores hu h⟩

/-- A request with every part. -/
def fullRequest : HttpRequest where
  method := .PROPFIND
  version := 0x10
  close := false
  path := bytes "/a/b%20c"
  query := bytes "k=v?"
  fragment := bytes "top"
  body := bytes "hello"
  headers := [(bytes "Accept",bytes "*/*"),(bytes "host",[])]

theorem fullRequest_sendable : fullRequest.Sendable where
  method := by decide
  version := .inl rfl
  path := by decide
  query := by decide
  fragment := by decide +kernel
  sorted := by decide +kernel
  names := by decide +kernel
  values := by decide +kernel

theorem restores_iff_full : Restores ⟨0,false⟩ fullRequest ↔ fullRequest.method ≠ .MSEARCH :=
  restores_iff rfl fullRequest_sendable

/-- A search by multicast. -/
def searchRequest : HttpRequest := { HttpRequest.new with method := .MSEARCH }

theorem searchRequest_sendable : searchRequest.Sendable where
  method := by decide
  version := .inr rfl
  path := by decide +kernel
  query := by decide +kernel
  fragment := by decide
  sorted := .nil
  names := nofun
  values := nofun

/-- It does not come back. -/
theorem not_restores_search : ¬∀ (u : Uninit) (r : HttpRequest), u.uriRelaxed = false →
    r.Sendable → Restores u r := fun h =>
  not_restores ⟨0,false⟩ rfl (h ⟨0,false⟩ searchRequest rfl searchRequest_sendable)

end HttpRequestParser
end CoroutineWebserve.Http
