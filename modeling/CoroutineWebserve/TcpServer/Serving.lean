import CoroutineWebserve.FdManager.Lookup
import CoroutineWebserve.TcpServer.Bind
import CoroutineWebserve.Transition.Places
import Mathlib.Data.Fintype.Prod

/-!
# Fibers of a `TcpServer`

`startAccept`, `handleClient` and the callback of `stop` run in fibers of threads whose hook is
enabled. What a fiber does with `FdMgr`, the kernel or a reference is one step, and the others move
in between. The kernel gives the number of a closed descriptor to the next socket.
-/
namespace CoroutineWebserve

/-- What a descriptor stands for: a `Socket` that listens or that is connected, or something that
the rest of the program has opened without the hook. -/
inductive File
  | listening (sock : ℕ)
  | connection (sock : ℕ)
  | other
deriving DecidableEq, Repr

/-- `S_ISSOCK`, as far as `FdMgr` asks. -/
def File.isSocket : File → Bool
  | listening _ | connection _ => true
  | other => false

/-- `new Socket(m_family, m_type, m_protocol)`. -/
def Socket.fresh (sock : Socket) : Socket :=
  { m_family := sock.m_family, m_type := sock.m_type, m_protocol := sock.m_protocol }

/-- The references to an accepted `Socket`: the variable of `startAccept` and the argument that the
callback binds. -/
@[ext] structure Refs where
  client : Bool := false
  callback : Bool := false
deriving DecidableEq, Repr

/-- The callbacks that the server schedules. -/
inductive ServerTask
  | startAccept (sock : ℕ)
  | handleClient (client : ℕ)
  | stop
deriving DecidableEq, Repr

/-- What a fiber goes on with when `Socket::close` returns. -/
inductive AfterClose
  | loop (sock : ℕ)
  | handleClient (client : ℕ)
  | done
  | stop (socks : List ℕ)
deriving DecidableEq, Repr

/-- Where a fiber is. In `accept` the kernel has been asked for a connection of a descriptor, in
`get` and `create` the hook makes the context of the new one, and `init` is the method of the new
`Socket`; `next` is the end of an iteration of `startAccept`. -/
inductive ServerPhase
  | idle
  | loop (sock : ℕ)
  | accept (sock client : ℕ) (s : Option ℕ)
  | get (sock client fd : ℕ)
  | create (sock client fd : ℕ)
  | init (sock client fd : ℕ)
  | setRecvTimeout (sock client : ℕ)
  | schedule (sock client : ℕ)
  | next (sock client : ℕ)
  | handleClient (client : ℕ)
  | close (sock fd : ℕ) (k : AfterClose)
  | del (sock fd : ℕ) (k : AfterClose)
  | close_f (sock fd : ℕ) (k : AfterClose)
  | stop (socks : List ℕ)
deriving DecidableEq, Repr

def AfterClose.phase : AfterClose → ServerPhase
  | loop sock => .loop sock
  | handleClient client => .handleClient client
  | done => .idle
  | stop socks => .stop socks

def AfterClose.isStop : AfterClose → Bool
  | stop _ => true
  | loop _ | handleClient _ | done => false

/-- The fiber is in the callback of `stop`. -/
def ServerPhase.isStop : ServerPhase → Bool
  | stop _ => true
  | close _ _ k | del _ _ k | close_f _ _ k => k.isStop
  | _ => false

/-- The call of `::close`, unless `m_sock` is `-1`. -/
def AfterClose.entry (k : AfterClose) (sock : ℕ) : Option ℕ → ServerPhase
  | none => k.phase
  | some fd => .close sock fd k

/-- `FdMgr`, the open descriptors, the `Socket`s in the order of their allocation, the server, the
callbacks that no fiber has taken, and the fibers. The ghost fields know which `Socket`s have got a
connection, which clients have been handled with which context of their descriptor, and which
`Socket` has closed what. -/
structure Serving (F : Type*) where
  mgr : FdManager F
  kernel : ℕ → Option File
  heap : List Socket
  refs : ℕ → Refs
  m_socks : List ℕ
  m_isStop : Bool
  tasks : List ServerTask
  phase : F → ServerPhase
  accepted : List ℕ
  handled : List (ℕ × Option FdCtx)
  closed : List (ℕ × Option File)

namespace Serving
variable {F : Type*} [DecidableEq F] (s : Serving F) (f : F)

/-- What `setRecvTimeout(v)` comes to in the hooked `setsockopt`: the fields of the `timeval` are
cast to `int`. -/
def tv_ms (v : UInt64) : UInt64 :=
  let tv_sec := Int.bmod (v.toInt64.toInt.tdiv 1000) (2^32)
  let tv_usec := Int.bmod (v.toInt64.toInt.tmod 1000*1000) (2^32)
  UInt64.ofInt (tv_sec*1000+tv_usec.tdiv 1000)

@[simps] def goto (p : ServerPhase) : Serving F := { s with phase := Function.update s.phase f p }

@[simps] def setRefs (sock : ℕ) (r : Refs) : Serving F :=
  { s with refs := Function.update s.refs sock r }

/-- `m_sock` of a `Socket`. -/
def m_sock (sock : ℕ) : Option ℕ := s.heap[sock]?.bind (·.m_sock)

/-- The context of the descriptor of a `Socket`. -/
def sockCtx (sock : ℕ) : Option FdCtx := (s.m_sock sock).bind s.mgr.ctx

/-- A hooked call with a descriptor looks for its context; `-1` has none. -/
def withGet (fd : Option ℕ) : Option (Serving F) :=
  match fd with
  | none => some s
  | some fd => (s.mgr.step (.get f fd false)).map fun mgr => { s with mgr }

/-- `Socket::close`, to the call of `::close`. -/
def close (sock : ℕ) (k : AfterClose) : Option (Serving F) :=
  s.heap[sock]?.map fun c =>
    if !c.m_isConnected && c.m_sock.isNone then s.goto f k.phase
    else
      { s with heap := s.heap.set sock { c with m_isConnected := false } }.goto f
        (k.entry sock c.m_sock)

/-- A reference is given up, and `r` are left: `~Socket` closes when there are none. -/
def release (client : ℕ) (r : Refs) (k : AfterClose) : Option (Serving F) :=
  let s := s.setRefs client r
  if r.client || r.callback then some (s.goto f k.phase) else s.close f client k

/-- The test of `while`, and the beginning of `Socket::accept`. -/
def loop (sock : ℕ) : Option (Serving F) :=
  if s.m_isStop then some (s.goto f .idle)
  else
    s.heap[sock]?.bind fun c => (s.withGet f c.m_sock).map fun t =>
      ({ t with heap := t.heap++[c.fresh] }.setRefs s.heap.length ⟨true,false⟩).goto f
        (.accept sock s.heap.length c.m_sock)

/-- `accept_f` returns: `-1`, or the number of a connection to a listening socket. -/
def accept (sock client : ℕ) (fd : Option ℕ) : Option ℕ → Option (Serving F)
  | none => some ((s.setRefs client {}).goto f (.loop sock))
  | some newsock =>
    match fd.bind s.kernel, s.kernel newsock with
    | some (.listening _), none =>
      some ({ s with
        kernel := Function.update s.kernel newsock (some (.connection client))
        accepted := client :: s.accepted }.goto f (.get sock client newsock))
    | _, _ => none

/-- The first part of `get(fd, true)` in the hooked `accept`. -/
def get (sock client fd : ℕ) : Option (Serving F) :=
  (s.mgr.step (.get f fd true)).map fun mgr =>
    { s with mgr }.goto f
      (if (s.mgr.lookup fd).isSome then .init sock client fd else .create sock client fd)

/-- The second part. -/
def create (sock client fd : ℕ) : Option (Serving F) :=
  (s.mgr.step (.create f ((s.kernel fd).map File.isSocket))).map fun mgr =>
    { s with mgr }.goto f (.init sock client fd)

/-- `Socket::init`. Where it returns false, the new `Socket` is destroyed as it was made. -/
def init (sock client fd : ℕ) : Option (Serving F) :=
  s.heap[client]?.bind fun c => (s.withGet f (some fd)).map fun t =>
    if (s.mgr.ctx fd).any fun ctx => ctx.isSocket && !ctx.isClosed then
      { t with
        heap := t.heap.set client { c with m_sock := some fd, m_isConnected := true }
        }.goto f (.setRecvTimeout sock client)
    else (t.setRefs client {}).goto f (.loop sock)

/-- A timeout or a flag is stored in the context of the descriptor of a `Socket`. -/
def setOption (sock : ℕ) (setting : FdCtx.Setting) : Option (Serving F) :=
  (s.withGet f (s.m_sock sock)).bind fun t =>
    match (s.m_sock sock).bind s.mgr.lookup with
    | none => some t
    | some c => (t.mgr.step (.set c setting)).map fun mgr => { t with mgr }

def schedule (sock client : ℕ) : Serving F :=
  ({ s with tasks := s.tasks++[ServerTask.handleClient client] }.setRefs client
    { s.refs client with callback := true }).goto f (.next sock client)

/-- `close_f`, and the end of `Socket::close`. -/
def close_f (sock fd : ℕ) (k : AfterClose) : Option (Serving F) :=
  s.heap[sock]?.map fun c =>
    { s with
      kernel := Function.update s.kernel fd none
      closed := (sock,s.kernel fd) :: s.closed
      heap := s.heap.set sock { c with m_sock := none } }.goto f k.phase

/-- The next step of a fiber, with the answer of the kernel where it waits for a connection. -/
def move (m_recvTimeout : UInt64) (answer : Option ℕ) : Option (Serving F) :=
  match s.phase f with
  | .idle => none
  | .loop sock => s.loop f sock
  | .accept sock client fd => s.accept f sock client fd answer
  | .get sock client fd => s.get f sock client fd
  | .create sock client fd => s.create f sock client fd
  | .init sock client fd => s.init f sock client fd
  | .setRecvTimeout sock client =>
    (s.setOption f client (.timeout .SO_RCVTIMEO (tv_ms m_recvTimeout))).map
      (·.goto f (.schedule sock client))
  | .schedule sock client => some (s.schedule f sock client)
  | .next sock client => s.release f client { s.refs client with client := false } (.loop sock)
  | .handleClient client => s.release f client { s.refs client with callback := false } .done
  | .close sock fd k =>
    (s.withGet f (some fd)).map
      (·.goto f (if (s.mgr.lookup fd).isSome then .del sock fd k else .close_f sock fd k))
  | .del sock fd k =>
    (s.mgr.step (.del fd)).map fun mgr => { s with mgr }.goto f (.close_f sock fd k)
  | .close_f sock fd k => s.close_f f sock fd k
  | .stop [] => some ({ s with m_socks := [] }.goto f .idle)
  | .stop (sock :: socks) => s.close f sock (.stop socks)

/-- A fiber begins with a callback. -/
def begin : ServerTask → Serving F
  | .startAccept sock => s.goto f (.loop sock)
  | .handleClient client =>
    { s with handled := (client,s.sockCtx client) :: s.handled }.goto f (.handleClient client)
  | .stop => s.goto f (.stop s.m_socks)

inductive Label (F : Type*)
  /-- `start` and `stop` are called. -/
  | start
  | stop
  /-- A fiber takes a callback. -/
  | take (f : F) (i : ℕ)
  | move (f : F) (answer : Option ℕ)
  /-- `handleClient` sets a timeout or a flag of the client, or closes it. -/
  | set (f : F) (setting : FdCtx.Setting)
  | close (f : F)
  /-- The rest of the program opens or closes a descriptor. -/
  | other (fd : ℕ)
deriving DecidableEq, Repr

def step (m_recvTimeout : UInt64) : Label F → Option (Serving F)
  | .start =>
    if s.m_isStop then
      some { s with m_isStop := false, tasks := s.tasks++s.m_socks.map .startAccept }
    else some s
  | .stop => some { s with m_isStop := true, tasks := s.tasks++[.stop] }
  | .take f i =>
    match s.phase f, s.tasks[i]? with
    | .idle, some task => some ({ s with tasks := s.tasks.eraseIdx i }.begin f task)
    | _, _ => none
  | .move f answer => s.move f m_recvTimeout answer
  | .set f setting =>
    match s.phase f with
    | .handleClient client => s.setOption f client setting
    | _ => none
  | .close f =>
    match s.phase f with
    | .handleClient client => s.close f client (.handleClient client)
    | _ => none
  | .other fd =>
    match s.kernel fd with
    | none => some { s with kernel := Function.update s.kernel fd (some .other) }
    | some .other => some { s with kernel := Function.update s.kernel fd none }
    | some _ => none

/-- The server has been bound: its sockets listen. Descriptors that `FdMgr` knows are theirs. -/
structure Bound : Prop where
  mgr : (FdManager.machine F).Reaches FdManager.StillNull s.mgr
  creating : ∀ f, s.mgr.creating f = none
  managed : ∀ fd c, s.mgr.ctx fd = some c → ∃ sock, s.kernel fd = some (.listening sock)
  listening : ∀ fd sock, s.kernel fd = some (.listening sock) ↔ s.m_sock sock = some fd
  connection : ∀ fd client, s.kernel fd ≠ some (.connection client)
  m_socks : s.m_socks = List.range s.heap.length
  m_isStop : s.m_isStop = true
  refs : ∀ sock, s.refs sock = {}
  phase : ∀ f, s.phase f = .idle
  tasks : s.tasks = []
  accepted : s.accepted = []
  handled : s.handled = []
  closed : s.closed = []

def machine (F : Type*) [DecidableEq F] (m_recvTimeout : UInt64) :
    Transition.Machine (Serving F) (Label F) where
  init := Bound
  step s := s.step m_recvTimeout

/-- No callback of an earlier `stop` is left when `stop` is called, and the numbers of descriptors
are so small that the size of a vector for them is an `int`. -/
def Orderly (s : Serving F) : Label F → Prop
  | .stop => ServerTask.stop ∉ s.tasks ∧ ∀ f, (s.phase f).isStop = false
  | .move _ answer => ∀ fd ∈ answer, fd*3/2 < 2^31
  | _ => True

instance [Fintype F] (s : Serving F) : DecidablePred s.Orderly
  | .stop => inferInstanceAs (Decidable (_ ∧ _))
  | .move _ _ => inferInstanceAs (Decidable (∀ fd ∈ _, _))
  | .start | .take _ _ | .set _ _ | .close _ | .other _ => isTrue trivial

end Serving
end CoroutineWebserve
