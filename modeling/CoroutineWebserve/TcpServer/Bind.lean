import CoroutineWebserve.Address.Lookup

/-!
# `TcpServer::bind`

What the system calls do is a parameter, on a state of their own, so that any of them can fail at
any time. A descriptor is `none` for `-1`, and the return value `0` of a call is `true`.
-/
namespace CoroutineWebserve

structure UnixAddress where
  sun_path : Http.Bytes
  m_length : ℕ
deriving DecidableEq, Repr

/-- What an `Address::ptr` points to: an address that `Lookup` makes, or a `UnixAddress`. -/
inductive SocketAddress
  | address (a : Address)
  | unix (a : UnixAddress)
deriving DecidableEq, Repr

def AF_UNIX : BitVec 16 := 1

def SocketAddress.getFamily : SocketAddress → BitVec 16
  | address (.ip (.ipv4 a)) => a.addr.sin_family
  | address (.ip (.ipv6 a)) => a.addr.sin6_family
  | address (.unknown sa_family) => sa_family
  | unix _ => AF_UNIX

/-- `std::dynamic_pointer_cast<UnixAddress>(addr)`, as a condition. -/
def SocketAddress.isUnix : SocketAddress → Bool
  | address _ => false
  | unix _ => true

/-- The calls below a socket. -/
structure Kernel (σ : Type*) where
  socket (family : BitVec 16) (type protocol : ℕ) : σ → Option ℕ × σ
  setsockopt (fd level option : ℕ) : σ → σ
  connect (fd : ℕ) (addr : SocketAddress) : σ → Bool × σ
  bind (fd : ℕ) (addr : SocketAddress) : σ → Bool × σ
  listen (fd backlog : ℕ) : σ → Bool × σ
  getsockname (fd : ℕ) : σ → Option SocketAddress × σ
  close (fd : ℕ) : σ → σ

structure Socket where
  m_sock : Option ℕ := none
  m_family : BitVec 16
  m_type : ℕ
  m_protocol : ℕ
  m_isConnected : Bool := false
  m_localAddress : Option SocketAddress := none
  m_remoteAddress : Option SocketAddress := none
deriving DecidableEq, Repr

namespace Socket
variable {σ : Type*} (k : Kernel σ) (sock : Socket)

def TCP : ℕ := 1

def SOMAXCONN : ℕ := 4096

def CreateTCP (address : SocketAddress) : Socket :=
  { m_family := address.getFamily, m_type := TCP, m_protocol := 0 }

def CreateUnixTCPSocket : Socket := { m_family := AF_UNIX, m_type := TCP, m_protocol := 0 }

def isValid : Bool := sock.m_sock.isSome

/-- Sets `SO_REUSEADDR`, and `TCP_NODELAY` for a stream. -/
def initSock (fd : ℕ) (s : σ) : σ :=
  let s := k.setsockopt fd 1 2 s
  if sock.m_type = TCP then k.setsockopt fd 6 1 s else s

def newSock (s : σ) : Socket × σ :=
  let (m_sock,s) := k.socket sock.m_family sock.m_type sock.m_protocol s
  ({ sock with m_sock },match m_sock with
    | some fd => sock.initSock k fd s
    | none => s)

/-- The beginning of `connect` and `bind`, which may leave the socket invalid. -/
def validate (s : σ) : Socket × σ := if sock.isValid then (sock,s) else sock.newSock k s

/-- `getLocalAddress()`, whose result is not used here. -/
def getLocalAddress (s : σ) : Socket × σ :=
  match sock.m_localAddress, sock.m_sock with
  | none, some fd =>
    let (m_localAddress,s) := k.getsockname fd s
    ({ sock with m_localAddress },s)
  | _, _ => (sock,s)

def close (s : σ) : Bool × Socket × σ :=
  if !sock.m_isConnected && sock.m_sock.isNone then (true,sock,s)
  else
    (false,{ sock with m_isConnected := false, m_sock := none },match sock.m_sock with
      | some fd => k.close fd s
      | none => s)

/-- `~Socket`. -/
def destroy (s : σ) : σ := (sock.close k s).2.2

/-- `connect(addr)` without a timeout. -/
def connect (addr : SocketAddress) (s : σ) : Bool × Socket × σ :=
  let (sock,s) := { sock with m_remoteAddress := some addr }.validate k s
  match sock.m_sock with
  | none => (false,sock,s)
  | some fd =>
    if addr.getFamily ≠ sock.m_family then (false,sock,s)
    else
      let (connected,s) := k.connect fd addr s
      if !connected then (false,(sock.close k s).2)
      else (true,{ sock with m_isConnected := true }.getLocalAddress k s)

/-- Whether someone accepts at a Unix address already. -/
def occupied (addr : SocketAddress) (s : σ) : Bool × σ :=
  if addr.isUnix then
    let (connected,sock,s) := CreateUnixTCPSocket.connect k addr s
    (connected,sock.destroy k s)
  else (false,s)

def bind (addr : SocketAddress) (s : σ) : Bool × Socket × σ :=
  let (sock,s) := sock.validate k s
  match sock.m_sock with
  | none => (false,sock,s)
  | some fd =>
    if addr.getFamily ≠ sock.m_family then (false,sock,s)
    else
      let (taken,s) := occupied k addr s
      if taken then (false,sock,s)
      else
        let (bound,s) := k.bind fd addr s
        if !bound then (false,sock,s) else (true,sock.getLocalAddress k s)

def listen (backlog : ℕ) (s : σ) : Bool × σ :=
  match sock.m_sock with
  | none => (false,s)
  | some fd => k.listen fd backlog s

@[simp] theorem validate_m_family (s : σ) : (sock.validate k s).1.m_family = sock.m_family := by
  unfold validate newSock
  split_ifs <;> rfl

@[simp] theorem getLocalAddress_m_family (s : σ) :
    (sock.getLocalAddress k s).1.m_family = sock.m_family := by
  unfold getLocalAddress
  split <;> rfl

theorem bind_m_family (addr : SocketAddress) (s : σ) :
    (sock.bind k addr s).2.1.m_family = sock.m_family := by
  rw [← validate_m_family k sock s]
  unfold bind
  generalize sock.validate k s = v
  obtain ⟨sock,s⟩ := v
  dsimp only
  split
  · rfl
  · split_ifs <;> simp

theorem isValid_of_listen {backlog : ℕ} {s : σ} (h : (sock.listen k backlog s).1 = true) :
    sock.isValid := by
  unfold listen at h
  cases hsock : sock.m_sock with
  | none => simp [hsock] at h
  | some fd => simp [isValid, hsock]

end Socket

structure TcpServer where
  m_socks : List Socket
  m_ssl : Bool
deriving DecidableEq, Repr

namespace TcpServer
variable {σ : Type*} (k : Kernel σ)

/-- The loop of `bind`: the sockets, the addresses that failed, and the state of the kernel. A
socket that is not kept goes at the end of its round. -/
def bindLoop : List SocketAddress → List Socket → List SocketAddress → σ →
    List Socket × List SocketAddress × σ
  | [], m_socks, fails, s => (m_socks,fails,s)
  | addr :: addrs, m_socks, fails, s =>
    let (bound,sock,s) := (Socket.CreateTCP addr).bind k addr s
    if !bound then bindLoop addrs m_socks (fails++[addr]) (sock.destroy k s)
    else
      let (listening,s) := sock.listen k Socket.SOMAXCONN s
      if !listening then bindLoop addrs m_socks (fails++[addr]) (sock.destroy k s)
      else bindLoop addrs (m_socks++[sock]) fails s

/-- What `bind` returns, and the server, `fails` and the kernel behind it. -/
structure Bind (σ : Type*) where
  ok : Bool
  server : TcpServer
  fails : List SocketAddress
  state : σ

/-- `bind(addrs, fails, ssl)`. The kernel closes a socket that is cleared when no one else holds it;
this is not followed. -/
def bind (server : TcpServer) (addrs fails : List SocketAddress) (ssl : Bool) (s : σ) : Bind σ :=
  let (m_socks,fails,s) := bindLoop k addrs server.m_socks fails s
  if fails ≠ [] then ⟨false,⟨[],ssl⟩,fails,s⟩ else ⟨true,⟨m_socks,ssl⟩,fails,s⟩

/-- `bind(addr, ssl)`. -/
def bindOne (server : TcpServer) (addr : SocketAddress) (ssl : Bool) (s : σ) : Bind σ :=
  server.bind k [addr] [] ssl s

/-! ### The attempts -/

/-- What becomes of an address: its socket, if it is bound and listens. -/
def attempt (addr : SocketAddress) (s : σ) : Option Socket × σ :=
  let (bound,sock,s) := (Socket.CreateTCP addr).bind k addr s
  if !bound then (none,sock.destroy k s)
  else
    let (listening,s) := sock.listen k Socket.SOMAXCONN s
    if !listening then (none,sock.destroy k s) else (some sock,s)

/-- The addresses with what becomes of them, one after the other. -/
def attempts : List SocketAddress → σ → List (SocketAddress × Option Socket)
  | [], _ => []
  | addr :: addrs, s => (addr,(attempt k addr s).1) :: attempts addrs (attempt k addr s).2

/-- The sockets of the attempts that succeed. -/
def listening (os : List (SocketAddress × Option Socket)) : List Socket := os.filterMap Prod.snd

/-- The addresses of the attempts that fail. -/
def failing (os : List (SocketAddress × Option Socket)) : List SocketAddress :=
  os.filterMap fun o => if o.2 = none then some o.1 else none

/-- A socket that is kept has a descriptor, and the family of its address. -/
theorem attempt_isValid {addr : SocketAddress} {s : σ} {sock : Socket}
    (h : (attempt k addr s).1 = some sock) : sock.isValid ∧ sock.m_family = addr.getFamily := by
  have hfamily := Socket.bind_m_family k (Socket.CreateTCP addr) addr s
  unfold attempt at h
  generalize (Socket.CreateTCP addr).bind k addr s = b at h hfamily
  obtain ⟨bound,sock',s₁⟩ := b
  cases bound with
  | false => simp at h
  | true =>
    cases hlisten : (sock'.listen k Socket.SOMAXCONN s₁).1 with
    | false => simp [hlisten] at h
    | true =>
      simp only [hlisten, Bool.not_true, Bool.false_eq_true, if_false, Option.some.injEq] at h
      subst h
      exact ⟨Socket.isValid_of_listen k _ hlisten,hfamily⟩

theorem map_attempts (addrs : List SocketAddress) (s : σ) :
    (attempts k addrs s).map Prod.fst = addrs := by
  induction addrs generalizing s with
  | nil => rfl
  | cons addr addrs ih => rw [attempts, List.map_cons, ih]

theorem length_attempts (addrs : List SocketAddress) (s : σ) :
    (attempts k addrs s).length = addrs.length := by
  rw [← List.length_map Prod.fst, map_attempts]

theorem failing_eq_nil {os : List (SocketAddress × Option Socket)} :
    failing os = [] ↔ ∀ o ∈ os, o.2 ≠ none := by
  simp [failing]

/-- Where no address fails there is one socket for each. -/
theorem length_listening {os : List (SocketAddress × Option Socket)} (h : failing os = []) :
    (listening os).length = os.length := by
  induction os with
  | nil => rfl
  | cons o os ih =>
    have hall := failing_eq_nil.mp h
    obtain ⟨sock,hsock⟩ := Option.ne_none_iff_exists'.mp (hall o (List.mem_cons_self ..))
    have hrest := ih (failing_eq_nil.mpr fun o' ho' => hall o' (List.mem_cons_of_mem _ ho'))
    simp [listening, hsock, ← hrest]

/-- A round of the loop is an attempt. -/
theorem bindLoop_cons (addr : SocketAddress) (addrs : List SocketAddress) (m_socks : List Socket)
    (fails : List SocketAddress) (s : σ) :
    bindLoop k (addr :: addrs) m_socks fails s =
      bindLoop k addrs (m_socks++(attempt k addr s).1.toList)
        (if (attempt k addr s).1 = none then fails++[addr] else fails) (attempt k addr s).2 := by
  simp only [bindLoop, attempt]
  obtain ⟨bound,sock,s₁⟩ := (Socket.CreateTCP addr).bind k addr s
  cases bound with
  | false => simp
  | true =>
    obtain ⟨listening,s₂⟩ := sock.listen k Socket.SOMAXCONN s₁
    cases listening <;> simp

theorem bindLoop_eq (addrs : List SocketAddress) (m_socks : List Socket)
    (fails : List SocketAddress) (s : σ) : ∃ s', bindLoop k addrs m_socks fails s =
      (m_socks++listening (attempts k addrs s),fails++failing (attempts k addrs s),s') := by
  induction addrs generalizing m_socks fails s with
  | nil => exact ⟨s,by simp [bindLoop, attempts, listening, failing]⟩
  | cons addr addrs ih =>
    obtain ⟨s',hs'⟩ := ih (m_socks++(attempt k addr s).1.toList)
      (if (attempt k addr s).1 = none then fails++[addr] else fails) (attempt k addr s).2
    refine ⟨s',?_⟩
    rw [bindLoop_cons, hs', attempts]
    cases hsock : (attempt k addr s).1 <;> simp [listening, failing]

section properties
variable (server : TcpServer) (addrs : List SocketAddress) (ssl : Bool) (s : σ)

/-- A call succeeds if all of its addresses do, and then keeps their sockets, in order; otherwise
it tells which ones failed, and the server has the sockets that it had before. -/
structure KeepsSocks (r : Bind σ) : Prop where
  ok : r.ok = true ↔ ∀ o ∈ attempts k addrs s, o.2 ≠ none
  bound : r.ok = true →
    r.server.m_socks = server.m_socks++listening (attempts k addrs s) ∧
      (listening (attempts k addrs s)).length = addrs.length
  failed : r.ok = false →
    r.fails = failing (attempts k addrs s) ∧ r.server.m_socks = server.m_socks

theorem bind_eq (fails : List SocketAddress) : ∃ s', server.bind k addrs fails ssl s =
    if fails++failing (attempts k addrs s) ≠ [] then
      ⟨false,⟨[],ssl⟩,fails++failing (attempts k addrs s),s'⟩
    else ⟨true,⟨server.m_socks++listening (attempts k addrs s),ssl⟩,[],s'⟩ := by
  obtain ⟨s',hs'⟩ := bindLoop_eq k addrs server.m_socks fails s
  refine ⟨s',?_⟩
  rw [bind, hs']
  by_cases h : fails++failing (attempts k addrs s) = [] <;> simp [h]

/-- The overload for one address, whose `fails` is its own. -/
theorem bindOne_eq (addr : SocketAddress) : ∃ s', server.bindOne k addr ssl s =
    match (attempt k addr s).1 with
    | some sock => ⟨true,⟨server.m_socks++[sock],ssl⟩,[],s'⟩
    | none => ⟨false,⟨[],ssl⟩,[addr],s'⟩ := by
  obtain ⟨s',hs'⟩ := bind_eq k server [addr] ssl s []
  refine ⟨s',?_⟩
  rw [bindOne, hs']
  cases h : (attempt k addr s).1 <;> simp [attempts, failing, listening, h]

/-- A failing call takes the sockets of earlier calls with it. -/
theorem keepsSocks_iff : KeepsSocks k server addrs s (server.bind k addrs [] ssl s) ↔
    server.m_socks = [] ∨ ∀ o ∈ attempts k addrs s, o.2 ≠ none := by
  obtain ⟨s',hs'⟩ := bind_eq k server addrs ssl s []
  rw [hs', List.nil_append, ← failing_eq_nil]
  by_cases h : failing (attempts k addrs s) = []
  · rw [if_neg (not_not_intro h)]
    refine iff_of_true ⟨?_,?_,nofun⟩ (.inr h)
    · exact iff_of_true rfl (failing_eq_nil.mp h)
    · intro _
      exact ⟨rfl,(length_listening h).trans (length_attempts k addrs s)⟩
  · rw [if_pos h]
    constructor
    · intro hr
      exact .inl (hr.failed rfl).2.symm
    · intro hor
      have hsocks := hor.resolve_right h
      refine ⟨?_,nofun,fun _ => ⟨rfl,hsocks.symm⟩⟩
      exact iff_of_false nofun (mt failing_eq_nil.mpr h)

/-- A caller that tries again with the same `fails` tries in vain. -/
theorem bind_of_fails {fails : List SocketAddress} (hfails : fails ≠ []) :
    let r := server.bind k addrs fails ssl s
    r.ok = false ∧ r.server.m_socks = [] ∧ r.fails ≠ [] := by
  obtain ⟨s',hs'⟩ := bind_eq k server addrs ssl s fails
  have hne : fails++failing (attempts k addrs s) ≠ [] := List.append_ne_nil_of_left_ne_nil hfails _
  rw [hs', if_pos hne]
  exact ⟨rfl,rfl,hne⟩

end properties

/-! ### An address that is in use -/

/-- A kernel that gives out the descriptors in order and binds an address once. -/
def table : Kernel (ℕ × List SocketAddress) where
  socket _ _ _ s := (some s.1,s.1+1,s.2)
  setsockopt _ _ _ s := s
  connect _ _ s := (false,s)
  bind _ addr s := if addr ∈ s.2 then (false,s) else (true,s.1,addr :: s.2)
  listen _ _ s := (true,s)
  getsockname _ s := (none,s)
  close _ s := s

/-- The socket of the first call is lost in the second. -/
theorem not_keepsSocks :
    let addr : SocketAddress := .address (.ip (.ipv4 ⟨⟨AF_INET,0x611f,0,0⟩⟩))
    let r := (⟨[],false⟩ : TcpServer).bind table [addr] [] false (3,[])
    let r' := r.server.bind table [addr] [] false r.state
    r.ok = true ∧ r.server.m_socks ≠ [] ∧ r'.ok = false ∧ r'.server.m_socks = [] ∧
      ¬KeepsSocks table r.server [addr] r.state r' := by
  intro addr r r'
  have hsocks : r.server.m_socks ≠ [] := by decide
  have hlost : r'.server.m_socks = [] := by decide
  have hok : r'.ok = false := by decide
  refine ⟨by decide,hsocks,hok,hlost,fun h => hsocks ?_⟩
  rw [← (h.failed hok).2, hlost]

end TcpServer
end CoroutineWebserve
