import CoroutineWebserve.Client.Exchange
import CoroutineWebserve.Client.Target
import CoroutineWebserve.Http.Headers

/-!
# Requests for a URL

`HttpConnection::DoRequest` takes the target of a request and the header `Host` from a URI. What a
servlet gets for a URL is what the URL says.
-/
namespace CoroutineWebserve.Client
open Http Registry

/-! ### `DoRequest` -/

/-- `HttpResult::Error`. -/
inductive HttpResult.Error
  | OK
  | INVALID_URL
  | INVALID_HOST
  | CONNECT_FAIL
  | SEND_CLOSE_BY_PEER
  | SEND_SOCKET_ERROR
  | TIMEOUT
  | CREATE_SOCKET_ERROR
  | POOL_GET_CONNECTION
  | POOL_INVALID_CONNECTION
deriving Repr, DecidableEq

structure HttpResult where
  result : HttpResult.Error
  response : Option HttpResponse
  error : Bytes
deriving Repr, DecidableEq

/-- What `DoRequest` meets: the address of a URI, as `toString` prints it, whether a socket is made
and connected, the value of `sendRequest` for a text, and the reads that it brings back. -/
structure Network where
  createAddress : Uri → Option Bytes
  createTCP : Bytes → Bool
  connect : Bytes → Bool
  sendRequest : Bytes → Int32
  reads : Bytes → Except Fault (List Bytes)
  errno : Int32
  strerror : Int32 → Bytes

namespace HttpConnection

/-- One round of the loop over the headers. -/
def addHeader : HttpRequest × Bool → Bytes × Bytes → HttpRequest × Bool
  | (req,has_host),(key,val) =>
    if folded key = folded (bytes "connection") then
      if folded val = folded (bytes "keep-alive") then ({ req with close := false },has_host)
      else (req,has_host)
    else
      let has_host :=
        if !has_host && folded key = folded (bytes "host") then val ≠ [] else has_host
      (req.setHeader key val,has_host)

/-- The request that `DoRequest` makes. -/
def makeRequest (method : HttpMethod) (uri : Uri) (headers : List (Bytes × Bytes))
    (body : Bytes) : HttpRequest :=
  let req := { HttpRequest.new with
    path := uri.getPath, query := uri.query, fragment := uri.fragment, method }
  let (req,has_host) := headers.foldl addHeader (req,false)
  let req := if has_host then req else req.setHeader (bytes "Host") uri.host
  { req with body }

/-- The texts for `errno`. -/
def errnoText (net : Network) : Bytes :=
  bytes " errno="++Uri.decimal net.errno++bytes " errstr="++net.strerror net.errno

/-- `DoRequest(req, uri, timeout_ms)`. -/
def sendTo (net : Network) (c : Config) (req : HttpRequest) (uri : Uri) (timeout_ms : UInt64) :
    Except Fault HttpResult := do
  match net.createAddress uri with
  | none => return ⟨.INVALID_HOST,none,bytes "invalid host: "++uri.host⟩
  | some addr =>
    if !net.createTCP addr then
      return ⟨.CREATE_SOCKET_ERROR,none,bytes "create socket fail: "++addr++errnoText net⟩
    if !net.connect addr then return ⟨.CONNECT_FAIL,none,bytes "connect fail: "++addr⟩
    let rt := net.sendRequest (req.dump false)
    if rt = 0 then
      return ⟨.SEND_CLOSE_BY_PEER,none,bytes "send request closed by peer: "++addr⟩
    if rt < 0 then
      return ⟨.SEND_SOCKET_ERROR,none,bytes "send request socket error"++errnoText net⟩
    let (rsp,_) ← recvResponse c (← net.reads (req.dump false))
    match rsp with
    | none =>
      return ⟨.TIMEOUT,none,bytes "recv response timeout: "++addr++bytes " timeout_ms:"
        ++decimal timeout_ms.toNat⟩
    | some (rsp,_) => return ⟨.OK,some rsp,bytes "ok"⟩

/-- `DoRequest(method, url, timeout_ms, headers, body)`; the headers are in the order of the map. -/
def DoRequest (net : Network) (c : Config) (method : HttpMethod) (url : Bytes)
    (timeout_ms : UInt64) (headers : List (Bytes × Bytes)) (body : Bytes) :
    Except (Uri.LogicError ⊕ Fault) HttpResult :=
  match Uri.Create url with
  | .error e => .error (.inl e)
  | .ok none => .ok ⟨.INVALID_URL,none,bytes "invalid url: "++url⟩
  | .ok (some uri) =>
    (sendTo net c (makeRequest method uri headers body) uri timeout_ms).mapError .inr

/-! ### The request -/

/-- A header asks for a connection that is kept. -/
def KeepsAlive (headers : List (Bytes × Bytes)) : Prop :=
  ∃ e ∈ headers, folded e.1 = bytes "connection" ∧ folded e.2 = bytes "keep-alive"

/-- The values that are given for the header `Host`. -/
def hosts (headers : List (Bytes × Bytes)) : List Bytes :=
  (headers.filter fun e => folded e.1 = bytes "host").map (·.2)

/-- The value of the header `Host` that is sent. -/
def hostSent (uri : Uri) (headers : List (Bytes × Bytes)) : Bytes :=
  if ∃ v ∈ hosts headers, v ≠ [] then (hosts headers).getLastD [] else uri.host

/-- Headers that a request can carry beside the header `connection`. -/
def Carried (headers : List (Bytes × Bytes)) : Prop :=
  ∀ e ∈ headers, folded e.1 ≠ bytes "connection" → IsFieldName e.1 ∧ Http.IsFieldValue e.2

/-- What the loop over the headers has made of a request behind some of them. -/
structure Built (base : HttpRequest) (headers : List (Bytes × Bytes))
    (x : HttpRequest × Bool) : Prop where
  same : x.1 = { base with close := x.1.close, headers := x.1.headers }
  close : x.1.close = true ↔ ¬KeepsAlive headers
  sorted : x.1.headers.Sorted
  carried : Carried headers → ∀ e ∈ x.1.headers, IsFieldName e.1 ∧ Http.IsFieldValue e.2
  has_host : x.2 = true ↔ ∃ v ∈ hosts headers, v ≠ []
  host : x.1.headers.find (bytes "host") = (hosts headers).getLast?

theorem folded_connection : folded (bytes "connection") = bytes "connection" := by decide

theorem folded_keepAlive : folded (bytes "keep-alive") = bytes "keep-alive" := by decide

theorem folded_host : folded (bytes "host") = bytes "host" := by decide

theorem keepsAlive_concat (headers : List (Bytes × Bytes)) (e : Bytes × Bytes) :
    KeepsAlive (headers++[e]) ↔ KeepsAlive headers ∨
      folded e.1 = bytes "connection" ∧ folded e.2 = bytes "keep-alive" := by
  simp [KeepsAlive, or_and_right, exists_or]

theorem hosts_concat (headers : List (Bytes × Bytes)) (e : Bytes × Bytes) :
    hosts (headers++[e]) = hosts headers++if folded e.1 = bytes "host" then [e.2] else [] := by
  by_cases h : folded e.1 = bytes "host" <;> simp [hosts, h]

theorem Carried.init {headers : List (Bytes × Bytes)} {e : Bytes × Bytes}
    (h : Carried (headers++[e])) : Carried headers := fun d hd =>
  h d (List.mem_append_left _ hd)

/-- A header `connection` decides whether the connection is kept. -/
theorem Built.connection {base : HttpRequest} {headers : List (Bytes × Bytes)}
    {x : HttpRequest × Bool} (h : Built base headers x) {key : Bytes} (val : Bytes)
    (hkey : folded key = bytes "connection") :
    Built base (headers++[(key,val)]) (addHeader x (key,val)) := by
  have hhosts : hosts (headers++[(key,val)]) = hosts headers := by
    rw [hosts_concat, if_neg (by rw [hkey]; decide), List.append_nil]
  have hkeep := keepsAlive_concat headers (key,val)
  rw [addHeader, if_pos (hkey.trans folded_connection.symm)]
  by_cases hval : folded val = folded (bytes "keep-alive")
  · rw [if_pos hval]
    refine ⟨h.same ▸ rfl,?_,h.sorted,fun hc => h.carried hc.init,hhosts ▸ h.has_host,
      hhosts ▸ h.host⟩
    exact iff_of_false nofun (not_not.mpr (hkeep.mpr (.inr ⟨hkey,hval.trans folded_keepAlive⟩)))
  · rw [if_neg hval]
    refine ⟨h.same,?_,h.sorted,fun hc => h.carried hc.init,hhosts ▸ h.has_host,hhosts ▸ h.host⟩
    rw [h.close, hkeep, or_iff_left fun hboth => hval (hboth.2.trans folded_keepAlive.symm)]

/-- Another header is set, and one that is `Host` is noted if it is not empty. -/
theorem Built.header {base : HttpRequest} {headers : List (Bytes × Bytes)}
    {x : HttpRequest × Bool} (h : Built base headers x) {key : Bytes} (val : Bytes)
    (hkey : folded key ≠ bytes "connection") :
    Built base (headers++[(key,val)]) (addHeader x (key,val)) := by
  have hkeep : KeepsAlive (headers++[(key,val)]) ↔ KeepsAlive headers := by
    rw [keepsAlive_concat, or_iff_left fun hboth => hkey hboth.1]
  rw [addHeader, if_neg (folded_connection.symm ▸ hkey), folded_host]
  refine ⟨?_,by rw [hkeep]; exact h.close,h.sorted.set key val,fun hc => ?_,?_,?_⟩
  · rw [HttpRequest.setHeader]
    exact congrArg (fun r : HttpRequest => { r with headers := x.1.headers.set key val }) h.same
  · obtain ⟨hname,hvalue⟩ := hc _ (List.mem_append_right _ (List.mem_singleton_self _)) hkey
    exact MapType.forall_set hname hvalue (h.carried hc.init)
  · rw [hosts_concat]
    by_cases hhost : folded key = bytes "host"
    · cases hx : x.2 with
      | false =>
        have hnone := h.has_host.not.mp (by rw [hx]; decide)
        simp only [not_exists, not_and, not_not] at hnone
        simp [hhost, or_and_right, exists_or]
        exact fun v hv hne => absurd (hnone v hv) hne
      | true => simp [hhost, or_and_right, exists_or, h.has_host.mp hx]
    · simp [hhost, h.has_host]
  · rw [HttpRequest.setHeader, MapType.find_set, hosts_concat, folded_host]
    by_cases hhost : folded key = bytes "host"
    · rw [if_pos hhost, if_pos hhost, List.getLast?_concat]
    · rw [if_neg hhost, if_neg hhost, List.append_nil]
      exact h.host

theorem foldl_built (base : HttpRequest) (hclose : base.close = true) (hheaders : base.headers = [])
    (headers : List (Bytes × Bytes)) :
    Built base headers (headers.foldl addHeader (base,false)) := by
  induction headers using List.reverseRecOn with
  | nil =>
    refine ⟨rfl,iff_of_true hclose nofun,?_,?_,?_,?_⟩
    · rw [List.foldl_nil, hheaders]; exact .nil
    · rw [List.foldl_nil, hheaders]; exact nofun
    · simp [hosts]
    · rw [List.foldl_nil, hheaders]; rfl
  | append_singleton headers e ih =>
    rw [List.foldl_append]
    by_cases hkey : folded e.1 = bytes "connection"
    · exact ih.connection e.2 hkey
    · exact ih.header e.2 hkey

/-- The request is what the URI, the headers and the body say. -/
theorem makeRequest_facts (method : HttpMethod) (uri : Uri) (headers : List (Bytes × Bytes))
    (body : Bytes) : ∃ m close, makeRequest method uri headers body = { HttpRequest.new with
        path := uri.getPath, query := uri.query, fragment := uri.fragment, method, close
        headers := m, body } ∧
      (close = true ↔ ¬KeepsAlive headers) ∧ m.Sorted ∧
      (Carried headers → Http.IsFieldValue uri.host →
        ∀ e ∈ m, IsFieldName e.1 ∧ Http.IsFieldValue e.2) ∧
      m.find (bytes "host") = some (hostSent uri headers) := by
  have h := foldl_built { HttpRequest.new with
    path := uri.getPath, query := uri.query, fragment := uri.fragment, method } rfl rfl headers
  rw [makeRequest]
  generalize headers.foldl addHeader _ = x at h ⊢
  obtain ⟨req,has_host⟩ := x
  dsimp only
  cases hx : has_host with
  | true =>
    obtain ⟨v,hv,hne⟩ := h.has_host.mp hx
    refine ⟨req.headers,req.close,?_,h.close,h.sorted,fun hc _ => h.carried hc,?_⟩
    · rw [if_pos rfl]
      exact congrArg (fun r : HttpRequest => { r with body }) h.same
    · rw [hostSent, if_pos ⟨v,hv,hne⟩, h.host, List.getLastD_eq_getLast?]
      cases hlast : (hosts headers).getLast? with
      | none => exact absurd (List.getLast?_eq_none_iff.mp hlast ▸ hv) List.not_mem_nil
      | some w => rfl
  | false =>
    have hnone := h.has_host.not.mp (by rw [hx]; exact Bool.false_ne_true)
    refine ⟨req.headers.set (bytes "Host") uri.host,req.close,?_,h.close,h.sorted.set _ _,
      fun hc hhost => ?_,?_⟩
    · rw [if_neg (by decide)]
      exact congrArg (fun r : HttpRequest => { r with
        body, headers := req.headers.set (bytes "Host") uri.host }) h.same
    · exact MapType.forall_set (by decide) hhost (h.carried hc)
    · rw [MapType.find_set, if_pos (by decide), hostSent, if_neg hnone]

/-- The bytes of a host can stand in a header. -/
theorem host_value {host : Bytes} (h : host ∈ Uri.Grammar.host.lang) : Http.IsFieldValue host := by
  have havoid : ∀ c ∈ ([0,9,10,13,32,127] : Bytes), Uri.Grammar.host.avoids c = true := by
    decide +kernel
  have hnot : ∀ b ∈ host, ∀ c ∈ ([0,9,10,13,32,127] : Bytes), b ≠ c := by
    rintro b hb c hc rfl
    exact Ragel.Pattern.notMem_of_avoids (havoid b hc) h hb
  refine ⟨fun b hb => ?_,fun b hb => ?_⟩
  · have hb' := hnot b hb
    simp only [List.forall_mem_cons] at hb'
    simp [isContent, hb']
  · have hb' := hnot b (List.mem_of_mem_head? hb)
    simp only [List.forall_mem_cons] at hb'
    exact ⟨hb'.2.1,hb'.2.2.2.2.1⟩

theorem makeRequest_sendable {u : Uri} (hu : u.WellFormed) (hpath : ¬[47,47] <+: u.getPath)
    {method : HttpMethod} (hmethod : method ≠ .INVALID_METHOD) {headers : List (Bytes × Bytes)}
    (hheaders : Carried headers) (body : Bytes) :
    (makeRequest method u.reparsed headers body).Sendable := by
  obtain ⟨m,close,hreq,-,hsorted,hfields,-⟩ := makeRequest_facts method u.reparsed headers body
  have hentries := hfields hheaders (host_value hu.host)
  obtain ⟨q,hq,hlang⟩ := Uri.getPath_eq hu.path
  have htarget : u.getPath ∈ (Grammar.pathAbsolute false).lang := by
    rw [hq] at hpath ⊢
    refine pathAbsolute_of_pathAbempty hlang fun hhead => hpath ?_
    obtain ⟨t,rfl⟩ := List.head?_eq_some_iff.mp hhead
    exact ⟨t,rfl⟩
  rw [hreq]
  exact ⟨hmethod,.inr rfl,(Uri.getPath_reparsed u).symm ▸ htarget,query_le hu.query,
    fragment_le hu.fragment,hsorted,fun e he => (hentries e he).1,fun e he => (hentries e he).2⟩

end HttpConnection

/-! ### The response of a server -/

variable {S F C σ : Type*}

/-- The reads in which messages arrive at a server and at its client, and the memory in which the
server allocates its parser. -/
structure Link where
  toServer : Bytes → List Bytes
  toClient : Bytes → List Bytes
  u : Uninit

/-- What a server in `handleClient` makes of the text of a request: what its servlets get, and the
reads of the response. -/
def reply (config : Config) (server : HttpServer S F C σ) (link : Link) (s : σ) (text : Bytes) :
    Except Fault (Option HttpRequest × List Bytes) := do
  let (req,_) ← HttpSession.recvRequest config link.u (link.toServer text)
  match req with
  | none => return (none,[])
  | some req => return (some req,link.toClient (server.answer req s).1.2.dump)

/-- The network brings a request to the server, whole, and the response back. -/
structure Reached (net : Network) (client config : Config) (server : HttpServer S F C σ)
    (link : Link) (s : σ) (uri : Uri) (r : HttpRequest) : Prop where
  address : ∃ addr, net.createAddress uri = some addr ∧ net.createTCP addr = true ∧
    net.connect addr = true
  sent : 0 < net.sendRequest (r.dump false)
  reads : net.reads (r.dump false) = (reply config server link s (r.dump false)).map Prod.snd
  memory : link.u.uriRelaxed = false
  request : Arrives config.buffSize r.head r.body (link.toServer (r.dump false))
  proper : (server.answer r.delivered s).1.2.Proper client.buffSize
  response : let rsp := (server.answer r.delivered s).1.2
    Arrives client.buffSize rsp.head rsp.body (link.toClient rsp.dump)

/-- The fields that are printed besides the headers leave `Host` as it is. -/
theorem find_delivered_host (m : MapType) (close : Bool) (body : Bytes) :
    (sentHeaders close body m).find (bytes "host") = m.find (bytes "host") := by
  have hconnection : folded (bytes "connection") ≠ folded (bytes "host") := by decide
  have hlength : folded (bytes "content-length") ≠ folded (bytes "host") := by decide
  rw [sentHeaders]
  split
  · rw [MapType.find_set, if_neg hconnection]
  · rw [MapType.find_set, if_neg hlength, MapType.find_set, if_neg hconnection]

/-- `http://h/`. -/
def rootUri : Uri := ⟨bytes "http",[],bytes "h",[],[],[],0⟩

/-- A network in which every message arrives in one read. -/
def rootNetwork : Network where
  createAddress _ := some (bytes "h")
  createTCP _ := true
  connect _ := true
  sendRequest text := Int32.ofNat text.length
  reads text := (reply ⟨4096,lexicalCast⟩ emptyServer ⟨fun text => [text],fun text => [text],
    ⟨0,false⟩⟩ () text).map Prod.snd
  errno := 0
  strerror _ := []

theorem rootUri_wellFormed : rootUri.WellFormed := by
  refine ⟨?_,?_,?_,?_,?_,?_,?_,?_⟩ <;> decide +kernel

theorem root_reached : Reached rootNetwork ⟨4096,lexicalCast⟩ ⟨4096,lexicalCast⟩ emptyServer
    ⟨fun text => [text],fun text => [text],⟨0,false⟩⟩ () rootUri.reparsed
    (HttpConnection.makeRequest .GET rootUri.reparsed [] []) := by
  have hsend : (HttpConnection.makeRequest .GET rootUri.reparsed [] []).Sendable :=
    HttpConnection.makeRequest_sendable rootUri_wellFormed (by decide) (by decide)
      (fun _ he => absurd he List.not_mem_nil) []
  have hproper : (emptyServer.answer (HttpConnection.makeRequest .GET rootUri.reparsed []
      []).delivered ()).1.2.Proper 4096 := getExchange_proper true
  have hdump := HttpResponse.dump_eq_head hproper.sendable []
  rw [List.append_nil, List.append_nil] at hdump
  refine ⟨⟨bytes "h",rfl,rfl,rfl⟩,by decide +kernel,rfl,rfl,?_,hproper,?_⟩
  · exact arrives_whole (HttpRequest.dump_eq_head hsend) (by decide +kernel)
  · exact arrives_whole hdump (getExchange_response true)

end CoroutineWebserve.Client
