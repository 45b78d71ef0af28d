import CoroutineWebserve.Client.Body
import CoroutineWebserve.Client.Plain
import CoroutineWebserve.Http.KeepAlive
import CoroutineWebserve.Http.RoundTrip
import CoroutineWebserve.Http.Servlet

/-!
# Requests and their responses

A client sends a request and waits for the response before it sends the next one. `handleClient`
receives the request, lets a servlet answer, and goes on until the connection is not kept. What
the network does with a message is how it arrives: in which reads.
-/
namespace CoroutineWebserve.Http
open Client (HttpResponse)

/-! ### The server -/

/-- What the servlets do that a caller brings. They may change the request, the response and
something that they share; they do not use the session. -/
structure Handlers (S F σ : Type*) where
  pointer : S → HttpRequest × HttpResponse → σ → (HttpRequest × HttpResponse) × σ
  callback : F → HttpRequest × HttpResponse → σ → (HttpRequest × HttpResponse) × σ

/-- `m_content` of a `NotFoundServlet`. -/
def notFoundContent (name : Bytes) : Bytes :=
  bytes "<html><head><title>404 Not Found"
    ++bytes "</title></head><body><center><h1>404 Not Found</h1></center>"
    ++bytes "<hr><center>"++name++bytes "</center></body></html>"

/-- `NotFoundServlet::handle`. -/
def notFound (name : Bytes) (response : HttpResponse) : HttpResponse :=
  { (({ response with status := 404 }.setHeader (bytes "Server") (bytes "sylar/1.0.0")).setHeader
      (bytes "Content-Type") (bytes "text/html")) with body := notFoundContent name }

variable {S F C σ : Type*}

/-- `Servlet::handle`. -/
def Servlet.handle (h : Handlers S F σ) (m : HttpRequest × HttpResponse) (s : σ) :
    Servlet S F → (HttpRequest × HttpResponse) × σ
  | .FunctionServlet cb => h.callback cb m s
  | .NotFoundServlet name => ((m.1,notFound name m.2),s)
  | .pointer slt => h.pointer slt m s

/-- `HttpServer`, with what its dispatcher needs. -/
structure HttpServer (S F C σ : Type*) where
  name : Bytes
  isKeepalive : Bool
  dispatch : ServletDispatch S F C
  make : C → Servlet S F
  fnmatch : Bytes → Bytes → Int32
  handlers : Handlers S F σ

namespace HttpServer
variable (server : HttpServer S F C σ)

/-- `m_dispatch->handle(req, rsp, session)`, behind the lines of `handleClient` that make `rsp`. -/
def answer (req : HttpRequest) (s : σ) : (HttpRequest × HttpResponse) × σ :=
  let rsp := { HttpResponse.new with
    version := req.version, close := req.close || !server.isKeepalive }
  let slt := server.dispatch.getMatchedServlet server.make server.fnmatch req.path
  slt.handle server.handlers (req,rsp.setHeader (bytes "Server") server.name) s

end HttpServer

/-- A request as a server has it: with the headers that are printed. -/
def HttpRequest.delivered (r : HttpRequest) : HttpRequest :=
  { r with headers := sentHeaders r.close r.body r.headers }

end CoroutineWebserve.Http

namespace CoroutineWebserve.Client
open Http

/-! ### The conversation -/

/-- A request, the reads in which its text and that of the response arrive, and the memory in which
the server allocates its parser. -/
structure Exchange where
  request : HttpRequest
  toServer : Bytes → List Bytes
  toClient : Bytes → List Bytes
  u : Uninit

variable {S F C σ : Type*}

/-- The client sends these requests, each with `sendRequest` and then `recvResponse`, to a server in
`handleClient`: the requests that servlets have got, and what the client has received for them.
`inbox` and `outbox` are reads that have arrived at the server and at the client. -/
def converse (client config : Config) (server : HttpServer S F C σ) :
    List Exchange → σ → (inbox outbox : List Bytes) →
      Except Fault (List (HttpRequest × HttpResponse × Bytes))
  | [], _, _, _ => .ok []
  | e :: more, s, inbox, outbox => do
    let (req,inbox) ←
      HttpSession.recvRequest config e.u (inbox++e.toServer (e.request.dump false))
    match req with
    | none => return []
    | some req =>
      let ((req',rsp),s) := server.answer req s
      let (got,outbox) ← HttpConnection.recvResponse client (outbox++e.toClient rsp.dump)
      match got with
      | none => return []
      | some got =>
        if !server.isKeepalive || req'.close then return [(req,got)]
        let rest ← converse client config server more s inbox outbox
        return (req,got) :: rest

/-! ### What should be received -/

/-- A response as a client has it. The body is beside it, and `m_close` stays as it was made. -/
def HttpResponse.delivered (r : HttpResponse) : HttpResponse :=
  { r with
    reason := r.printedReason
    headers := sentHeaders r.close r.body r.headers
    body := []
    close := true }

/-- The servlets get the requests in order, up to the first one behind which the connection is not
kept, and the client receives what they answered. -/
def answers (server : HttpServer S F C σ) :
    List HttpRequest → σ → List (HttpRequest × HttpResponse × Bytes)
  | [], _ => []
  | r :: more, s =>
    let ((req,rsp),s) := server.answer r.delivered s
    (r.delivered,rsp.delivered,rsp.body) ::
      if !server.isKeepalive || req.close then [] else answers server more s

/-- A message arrives in these reads: its head with the first one, as far as the buffer goes. -/
inductive Arrives (buffSize : ℕ) (head body : Bytes) : List Bytes → Prop
  | first {data : Bytes} {taken : List Bytes} (hfits : Deliverable buffSize (head++data))
    (htaken : ∀ piece ∈ taken, piece ≠ [] ∧ piece.length < 2^31)
    (hbody : data++taken.flatten = body) : Arrives buffSize head body ((head++data) :: taken)

/-! ### A request arrives -/

theorem accepted_head {u : Uninit} (hu : u.uriRelaxed = false) {r : HttpRequest} (h : r.Sendable)
    (hmethod : r.method ≠ .MSEARCH) :
    Accepted u r.head { r.delivered with body := [], close := true } := by
  obtain ⟨q,hrun,hcs⟩ := HttpRequest.exec_head hu h hmethod []
  have hcalls := HttpRequest.callbacks_head h []
  rw [List.append_nil] at hrun hcalls
  have hrun' : (HttpRequestParser.new u).parser.execute r.head = _ := hrun
  have hexecute := HttpRequestParser.execute_eq_ok.mpr ⟨_,by rw [hrun']; exact hcalls,rfl⟩
  rw [hrun', List.drop_length, List.foldl_append, List.foldl_append,
    HttpRequestParser.foldl_lineUpdates, HttpRequestParser.foldl_setHeader] at hexecute
  refine ⟨_,hexecute,?_,?_,?_⟩
  · rintro (herror | herror)
    · exact herror rfl
    · rw [hcs] at herror
      cases herror
  · rw [HttpRequestParser.IsFinished, hcs]
    trivial
  · have hheaders := MapType.foldl_request h.sorted h.names r.close r.body
    simp only [List.foldl_cons, List.foldl_nil, HttpRequestParser.update, HttpRequest.delivered,
      ← hheaders]
    rfl

/-- The header `connection` gives `m_close` back. -/
theorem init_delivered (r : HttpRequest) :
    ({ r.delivered with body := r.body, close := true } : HttpRequest).init = r.delivered := by
  have hget : ({ r.delivered with body := r.body, close := true } : HttpRequest).getHeader
      (bytes "connection") = if r.close then bytes "close" else bytes "keep-alive" := by
    rw [HttpRequest.getHeader]
    exact congrArg (Option.getD · []) (MapType.find_connection r.close r.body)
  have hsent : ∀ close : Bool, (if close then bytes "close" else bytes "keep-alive") ≠ [] ∧
      decide (folded (if close then bytes "close" else bytes "keep-alive") ≠
        folded (bytes "keep-alive")) = close := by
    decide
  simp only [HttpRequest.init, hget, if_neg (hsent r.close).1, (hsent r.close).2]
  rfl

/-- The length that the head announces. -/
theorem contentLength_delivered {lexicalCast : Bytes → Option UInt64}
    (hcast : CastsDecimals lexicalCast) {headers : MapType}
    (hnames : ∀ e ∈ headers, IsFieldName e.1) (close : Bool) {body : Bytes}
    (hbody : body.length < 2^31) :
    ((((sentHeaders close body headers).find (bytes "content-length")).bind lexicalCast).getD
      0).toNat = body.length := by
  rw [MapType.find_contentLength close body hnames]
  by_cases hnil : body = []
  · rw [if_pos hnil, hnil]
    rfl
  · rw [if_neg hnil, Option.bind_some, hcast _ _ (decimal_decimal body.length), if_pos (by omega),
      Option.getD_some]
    exact UInt64.toNat_ofNat_of_lt (show body.length < 2^64 by omega)

theorem int_of_lt {n : ℕ} (h : n < 2^31) : int n = n := intOf_of_lt (by omega)

/-- A request that arrives is received, and nothing else is read. -/
theorem recvRequest_arrived {c : Config} (hcast : CastsDecimals c.lexicalCast)
    (hbuf : c.buffSize < 2^31) {u : Uninit} (hu : u.uriRelaxed = false) {r : HttpRequest}
    (h : r.Sendable) (hmethod : r.method ≠ .MSEARCH) (hbody : r.body.length < 2^31)
    {reads : List Bytes} (harrives : Arrives c.buffSize r.head r.body reads) (rest : List Bytes) :
    HttpSession.recvRequest c u (reads++rest) = .ok (some r.delivered,rest) := by
  obtain ⟨hfits,htaken,hwhole⟩ := harrives
  rename_i data taken
  let m : Message := ⟨r.head,r.body,{ r.delivered with body := [], close := true }⟩
  have hhead : r.head ≠ [] := (accepted_head hu h hmethod).ne_nil
  have hpos := List.length_pos_iff.mpr hhead
  have hlen := hfits.2.1
  rw [List.length_append] at hlen
  have hreceived : Received c m ((r.head++data) :: taken) := by
    refine ⟨?_,?_,show r.body.length < 2^63 by omega,fun hlt => ?_⟩
    · rw [List.flatten_cons, List.append_assoc, hwhole]
    · rw [List.headD_cons, List.length_append, int_of_lt hbuf]
      show ((r.head.length+data.length : ℕ) : ℤ)-r.head.length ≠ _
      omega
    · rw [List.headD_cons, List.length_append] at hlt ⊢
      rw [List.length_append, int_of_lt (by show r.head.length+r.body.length-_ < _; omega)]
      rw [List.length_append] at hlt
      omega
  have hrequest := HttpSession.recvRequest_of_accepted (m := m) (accepted_head hu h hmethod)
    (fun q hq => by
      rw [HttpRequestParser.getContentLength, HttpRequest.getHeaderAs, hq]
      exact contentLength_delivered hcast h.names r.close hbody) htaken hfits hreceived rest
  rw [List.cons_append, hrequest]
  have hinit : m.received = r.delivered := init_delivered r
  rw [hinit]

/-! ### A response arrives -/

/-- A response that is received in full: `rsp` with the values that its text can carry, no other
coding of its body, and a head that fits into the buffer. -/
structure HttpResponse.Proper (buffSize : ℕ) (r : HttpResponse) : Prop where
  sendable : r.Sendable
  noEncoding : r.NoEncoding
  head : r.head.length ≤ buffSize
  body : r.body.length < 2^31

theorem execute_head {r : HttpResponse} (h : r.Sendable) (hplain : r.NoEncoding) (data : Bytes) :
    ∃ q n, HttpResponseParser.new.execute (r.head++data) false = .ok (q,n,data) ∧ ¬q.HasError ∧
      q.IsFinished ∧ q.data = r.delivered ∧ q.parser.chunked = false := by
  obtain ⟨q,hrun,hcs⟩ := HttpResponse.parser_execute_head h data
  have hchunked := HttpResponse.parser_execute_plain h hplain data
  rw [hrun] at hchunked
  have hexecute := HttpResponseParser.execute_eq (r := .new) hrun
    (HttpResponse.callbacks_head h data)
  rw [List.drop_left, HttpResponse.headUpdates, List.foldl_append, List.foldl_append,
    HttpResponseParser.foldl_setHeader] at hexecute
  refine ⟨_,_,hexecute,?_,hcs,?_,hchunked⟩
  · rintro (herror | herror)
    · exact herror rfl
    · rw [hcs] at herror
      cases herror
  · have hheaders := MapType.foldl_response h.sorted r.close r.body
    simp only [List.foldl_cons, List.foldl_nil, HttpResponseParser.update, HttpResponse.delivered,
      ← hheaders, h.websocket, h.cookies]
    rfl

theorem recvHead_arrived {c : Config} (hbuf : c.buffSize < 2^31) {r : HttpResponse}
    (h : r.Proper c.buffSize) {data : Bytes} (hfits : Deliverable c.buffSize (r.head++data))
    (reads : List Bytes) :
    ∃ q, HttpConnection.recvHead c.buffSize .new [] ((r.head++data) :: reads) =
        .ok (some (q,data),reads) ∧ q.data = r.delivered ∧ q.parser.chunked = false := by
  obtain ⟨q,n,hexecute,hno,hfinished,hdata,hchunked⟩ := execute_head h.sendable h.noEncoding data
  have hlen := hfits.2.1
  rw [List.length_append, HttpResponse.head_length] at hlen
  have hread : Http.read c.buffSize [r.head++data] = .ok (r.head++data,[]) := if_pos hfits.2
  have hfull : (data.length : ℤ) ≠ int c.buffSize := by
    rw [int_of_lt hbuf]
    omega
  refine ⟨q,?_,hdata,hchunked⟩
  simp only [HttpConnection.recvHead, List.length_nil, Nat.sub_zero, hread, List.nil_append,
    hexecute, bind, Except.bind, if_neg hfits.1, if_neg hno, if_neg hfull, if_pos hfinished, pure,
    Except.pure]

/-- A response that arrives is received, and nothing else is read. -/
theorem recvResponse_arrived {c : Config} (hcast : CastsDecimals c.lexicalCast)
    (hbuf : c.buffSize < 2^31) {r : HttpResponse} (h : r.Proper c.buffSize) {reads : List Bytes}
    (harrives : Arrives c.buffSize r.head r.body reads) (rest : List Bytes) :
    HttpConnection.recvResponse c (reads++rest) = .ok (some (r.delivered,r.body),rest) := by
  obtain ⟨hfits,htaken,hwhole⟩ := harrives
  rename_i data taken
  obtain ⟨q,hhead,hdata,hchunked⟩ := recvHead_arrived hbuf h hfits (taken++rest)
  have hlength : (q.getContentLength c.lexicalCast).toNat = r.body.length := by
    rw [HttpResponseParser.getContentLength, HttpResponse.getHeaderAs, hdata]
    exact contentLength_delivered hcast h.sendable.names r.close h.body
  have hbody := h.body
  rw [List.cons_append]
  by_cases hnil : r.body = []
  · have htn : data = [] ∧ taken = [] := by
      rw [hnil, List.append_eq_nil_iff] at hwhole
      refine ⟨hwhole.1,?_⟩
      cases taken with
      | nil => rfl
      | cons piece taken =>
        exact absurd hwhole.2 (List.append_ne_nil_of_left_ne_nil (htaken piece (by simp)).1 _)
    obtain ⟨rfl,rfl⟩ := htn
    have hzero : ¬0 < int64 (q.getContentLength c.lexicalCast).toNat := by
      rw [hlength, hnil, List.length_nil, int64_of_lt (by omega)]
      exact lt_irrefl 0
    rw [HttpConnection.recvResponse, hhead, ok_bind]
    dsimp only
    rw [hchunked, if_neg Bool.false_ne_true, if_neg hzero, hdata, hnil]
    rfl
  · rw [HttpConnection.recvResponse_of_length hhead (by simp [hchunked])
      (List.length_pos_iff.mpr hnil) (by omega) hlength,
      HttpSession.recvBody_append htaken (by rw [← hwhole, List.length_append]) (fun hlt => by
        rw [int_of_lt (by omega)]
        omega) rest, hwhole, ok_bind, hdata]
    rfl

/-! ### The conversation goes through -/

/-- An exchange whose messages can be sent and arrive, whatever state the servlets are in. -/
structure Exchange.Fit (client config : Config) (server : HttpServer S F C σ) (e : Exchange) :
    Prop where
  sendable : e.request.Sendable
  method : e.request.method ≠ .MSEARCH
  body : e.request.body.length < 2^31
  memory : e.u.uriRelaxed = false
  request : Arrives config.buffSize e.request.head e.request.body
    (e.toServer (e.request.dump false))
  proper : ∀ s, (server.answer e.request.delivered s).1.2.Proper client.buffSize
  response : ∀ s, let rsp := (server.answer e.request.delivered s).1.2
    Arrives client.buffSize rsp.head rsp.body (e.toClient rsp.dump)

theorem arrives_whole {buffSize : ℕ} {head body text : Bytes} (htext : text = head++body)
    (hfits : Deliverable buffSize text) : Arrives buffSize head body [text] := by
  subst htext
  exact .first hfits nofun (List.append_nil body)

/-- A server without servlets of its own. -/
def emptyServer : HttpServer Empty Empty Empty Unit where
  name := bytes "server"
  isKeepalive := true
  dispatch := .init
  make := nofun
  fnmatch _ _ := 1
  handlers := ⟨nofun,nofun⟩

/-- A request, and both messages in one read. -/
def getExchange (close : Bool) : Exchange :=
  ⟨{ HttpRequest.new with close },fun text => [text],fun text => [text],⟨0,false⟩⟩

theorem getExchange_sendable (close : Bool) : (getExchange close).request.Sendable := by
  refine ⟨?_,.inr rfl,?_,?_,?_,.nil,nofun,nofun⟩
  all_goals revert close
  · decide
  · decide +kernel
  · decide +kernel
  · decide

theorem getExchange_proper (close : Bool) :
    (emptyServer.answer (getExchange close).request.delivered ()).1.2.Proper 4096 := by
  refine ⟨⟨rfl,rfl,.inr rfl,?_,nofun,?_,?_,?_⟩,?_,?_,?_⟩
  all_goals revert close
  · decide +kernel
  · decide +kernel
  · decide +kernel
  · decide +kernel
  · unfold HttpResponse.NoEncoding
    decide +kernel
  · decide +kernel
  · decide +kernel

theorem getExchange_response (close : Bool) :
    Deliverable 4096 (emptyServer.answer (getExchange close).request.delivered ()).1.2.dump := by
  revert close
  decide +kernel

theorem getExchange_fit (close : Bool) :
    (getExchange close).Fit ⟨4096,lexicalCast⟩ ⟨4096,lexicalCast⟩ emptyServer where
  sendable := getExchange_sendable close
  method := by
    revert close
    decide
  body := by
    revert close
    decide
  memory := rfl
  request := by
    refine arrives_whole (HttpRequest.dump_eq_head (getExchange_sendable close)) ?_
    revert close
    decide +kernel
  proper _ := getExchange_proper close
  response _ := by
    have hdump := HttpResponse.dump_eq_head (getExchange_proper close).sendable []
    rw [List.append_nil, List.append_nil] at hdump
    exact arrives_whole hdump (getExchange_response close)

end CoroutineWebserve.Client
