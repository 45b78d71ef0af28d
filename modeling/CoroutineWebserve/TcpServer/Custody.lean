import CoroutineWebserve.TcpServer.Serving

/-!
# Custody of connections

A connection is in the custody of one fiber or callback at a time, from the answer of the kernel to
`close_f`. So the race of two threads for the context of a descriptor does not occur in a server:
`FdMgr` has the contexts of open sockets only, and a client begins with a new one.
-/
namespace CoroutineWebserve

/-- The right that a callback or a fiber has: to close the client `some sock`, or, for `none`, to
close the listening sockets. -/
abbrev Right := Option ℕ

/-- The sockets below `n` listen, and the others are accepted. -/
def AfterClose.Fits (n sock : ℕ) : AfterClose → Prop
  | loop l => l < n ∧ n ≤ sock
  | handleClient _ | done => n ≤ sock
  | stop socks => sock < n ∧ ∀ l ∈ socks, l < n

def AfterClose.right (sock : ℕ) : AfterClose → Right
  | stop _ => none
  | loop _ | handleClient _ | done => some sock

namespace ServerPhase

/-- While the callback lives, it has the right, and not the variable of `startAccept`. -/
def rights (refs : ℕ → Refs) : ServerPhase → List Right
  | idle | loop _ => []
  | accept _ client _ | get _ client _ | create _ client _ | init _ client _
  | setRecvTimeout _ client | schedule _ client | handleClient client => [some client]
  | next _ client => if (refs client).callback then [] else [some client]
  | close sock _ k | del sock _ k | close_f sock _ k => [k.right sock]
  | stop _ => [none]

/-- The variable of `startAccept`. -/
def client : ServerPhase → Option ℕ
  | accept _ client _ | get _ client _ | create _ client _ | init _ client _
  | setRecvTimeout _ client | schedule _ client | next _ client => some client
  | _ => none

/-- The `Socket` that a phase is about. -/
def object : ServerPhase → Option ℕ
  | accept _ client _ | get _ client _ | create _ client _ | init _ client _
  | setRecvTimeout _ client | schedule _ client | next _ client | handleClient client => some client
  | close sock _ k | del sock _ k | close_f sock _ k => k.right sock
  | idle | loop _ | stop _ => none

def Fits (n : ℕ) : ServerPhase → Prop
  | idle => True
  | loop l => l < n
  | accept l client _ | get l client _ | create l client _ | init l client _
  | setRecvTimeout l client | schedule l client | next l client => l < n ∧ n ≤ client
  | handleClient client => n ≤ client
  | close sock _ k | del sock _ k | close_f sock _ k => k.Fits n sock
  | stop socks => ∀ l ∈ socks, l < n

/-- What a fiber has written to `FdMgr`'s list of threads in `get`. -/
def creating : ServerPhase → Option ℕ
  | create _ _ fd => some fd
  | _ => none

end ServerPhase

def ServerTask.Fits (n : ℕ) : ServerTask → Prop
  | startAccept l => l < n
  | handleClient client => n ≤ client
  | stop => True

def ServerTask.rights : ServerTask → List Right
  | startAccept _ => []
  | handleClient client => [some client]
  | stop => [none]

namespace Serving
variable {F : Type*} (v : UInt64) (n : ℕ) (s : Serving F)

/-- The rights of a fiber, and of the callbacks that wait. -/
def holds : Option F → List Right
  | some f => (s.phase f).rights s.refs
  | none => s.tasks.flatMap ServerTask.rights

/-! ### What a phase relies on -/

/-- What concerns one `Socket`; `file` gives the contexts of the descriptors that its connection
has. -/
@[ext] structure View where
  m_sock : Option (Option ℕ)
  refs : Refs
  accepted : Prop
  handled : Prop
  closed : Prop
  file : ℕ → Option (Option FdCtx)

/-- `m_sock`, of a `Socket` that there is. -/
def m_sock? (sock : ℕ) : Option (Option ℕ) := s.heap[sock]?.map (·.m_sock)

def view (sock : ℕ) : View where
  m_sock := s.m_sock? sock
  refs := s.refs sock
  accepted := sock ∈ s.accepted
  handled := sock ∈ s.handled.map Prod.fst
  closed := sock ∈ s.closed.map Prod.fst
  file fd := if s.kernel fd = some (.connection sock) then some (s.mgr.ctx fd) else none

/-- The `Socket` that listens at a descriptor, and the context. -/
def listening (fd : ℕ) : Option (ℕ × Option FdCtx) :=
  match s.kernel fd with
  | some (.listening sock) => some (sock,s.mgr.ctx fd)
  | _ => none

namespace View
variable (w : View)

/-- The new `Socket` of `startAccept`. -/
structure New : Prop where
  m_sock : w.m_sock = some none
  refs : w.refs = ⟨true,false⟩
  handled : ¬w.handled
  closed : ¬w.closed

/-- The `Socket` has the connection `fd`, whose context is `c`. -/
structure Has (fd : ℕ) (c : FdCtx) : Prop where
  m_sock : w.m_sock = some (some fd)
  file : w.file fd = some (some c)

/-- A client that is not handled yet has a connection with the context `c`. -/
def Waits (c : ℕ → FdCtx) : Prop := ¬w.handled ∧ ∃ fd, w.Has fd (c fd)

/-- A client of `handleClient` has a managed connection, or has been closed. -/
def Served : Prop :=
  w.handled ∧ ((∃ fd c, w.Has fd c ∧ c.isSocket = true ∧ c.isClosed = false) ∨
    w.m_sock = some none ∧ w.closed)

/-- A client is being closed. -/
structure Closing (fd : ℕ) : Prop where
  handled : w.handled
  m_sock : w.m_sock = some (some fd)
  file : (w.file fd).isSome

end View

/-- The context of a new connection. -/
def newCtx (fd : ℕ) : FdCtx := .new fd (some true)

/-- The context that a handler finds. -/
def timedCtx (fd : ℕ) : FdCtx := (newCtx fd).set (.timeout .SO_RCVTIMEO (tv_ms v))

/-- Who waits for `Socket::close`. -/
def OkAfter (sock fd : ℕ) : AfterClose → Prop
  | .loop _ | .done => (s.view sock).Closing fd ∧ (s.view sock).refs = {}
  | .handleClient client =>
    client = sock ∧ (s.view sock).Closing fd ∧ (s.view sock).refs.callback = true
  | .stop socks => (∃ c, s.listening fd = some (sock,c)) ∧
      ∀ fd' l c, s.listening fd' = some (l,c) → l = sock ∨ l ∈ socks

def Ok : ServerPhase → Prop
  | .idle | .loop _ => True
  | .accept _ client _ => (s.view client).New ∧ ¬(s.view client).accepted
  | .get _ client fd | .create _ client fd =>
    (s.view client).New ∧ (s.view client).file fd = some none ∧ fd*3/2 < 2^31
  | .init _ client fd =>
    (s.view client).New ∧ (s.view client).file fd = some (some (newCtx fd))
  | .setRecvTimeout _ client =>
    (s.view client).refs = ⟨true,false⟩ ∧ (s.view client).Waits newCtx
  | .schedule _ client =>
    (s.view client).refs = ⟨true,false⟩ ∧ (s.view client).Waits (timedCtx v)
  | .next _ client => (s.view client).m_sock.isSome ∧ (s.view client).accepted ∧
      (s.view client).refs.client = true ∧
      ((s.view client).refs.callback = false → (s.view client).Served)
  | .handleClient client => (s.view client).Served ∧ (s.view client).refs.callback = true
  | .close sock fd k | .del sock fd k => s.OkAfter sock fd k
  | .close_f sock fd k => s.OkAfter sock fd k ∧ s.mgr.ctx fd = none
  | .stop socks => ∀ fd l c, s.listening fd = some (l,c) → l ∈ socks

def OkTask : ServerTask → Prop
  | .startAccept _ | .stop => True
  | .handleClient client =>
    (s.view client).Waits (timedCtx v) ∧ (s.view client).refs.callback = true

/-- The descriptors, and what has been accepted, handled and closed. -/
structure Ledger : Prop where
  managed : ∀ fd c, s.mgr.ctx fd = some c → ∃ file, s.kernel fd = some file ∧ file.isSocket = true
  unique : ∀ fd fd' client, s.kernel fd = some (.connection client) →
    s.kernel fd' = some (.connection client) → fd = fd'
  connection : ∀ fd client, s.kernel fd = some (.connection client) →
    (s.view client).accepted ∧ ¬(s.view client).closed
  listening : ∀ fd sock, s.kernel fd = some (.listening sock) →
    sock ∈ s.m_socks ∧ ¬(s.view sock).closed
  socks : ∀ sock < n, ∃ r, (s.view sock).m_sock = some r ∧
    ∀ fd, s.kernel fd = some (.listening sock) ↔ r = some fd
  m_socks : ∀ sock ∈ s.m_socks, sock < n
  accepted : ∀ client ∈ s.accepted, n ≤ client ∧
    ((s.view client).closed ∨ ∃ fd, s.kernel fd = some (.connection client))
  nodup_accepted : s.accepted.Nodup
  handled : ∀ x ∈ s.handled, x.1 ∈ s.accepted ∧ ∃ fd, x.2 = some (timedCtx v fd)
  nodup_handled : (s.handled.map Prod.fst).Nodup
  closed : ∀ x ∈ s.closed, x.2 = some (.connection x.1) ∧ (s.view x.1).handled ∨
    x.2 = some (.listening x.1) ∧ x.1 < n
  nodup_closed : (s.closed.map Prod.fst).Nodup
  allocated : ∀ sock, (s.view sock).accepted ∨ (s.view sock).closed → sock < s.heap.length

structure Inv [DecidableEq F] : Prop where
  mgr : (FdManager.machine F).Reaches FdManager.StillNull s.mgr
  creating : ∀ f, s.mgr.creating f = (s.phase f).creating
  exclusive : Transition.Exclusive s.holds
  owned : ∀ fd client, s.kernel fd = some (.connection client) → ∃ p, some client ∈ s.holds p
  client : ∀ f g client, (s.phase f).client = some client → (s.phase g).client = some client → f = g
  referred : ∀ client, (s.refs client).client = true → ∃ f, (s.phase f).client = some client
  fits : ∀ f, (s.phase f).Fits n
  phases : ∀ f, s.Ok v (s.phase f)
  tasks : ∀ task ∈ s.tasks, task.Fits n ∧ s.OkTask v task
  ledger : Ledger v n s

/-! ### What the other fibers rely on -/

variable {v n s} {t : Serving F} {f g : F} {p : ServerPhase} {sock fd : ℕ} {c : Option FdCtx}

theorem file_eq_some : (s.view sock).file fd = some c ↔
    s.kernel fd = some (.connection sock) ∧ s.mgr.ctx fd = c := by
  simp only [view]
  split_ifs with hkernel
  · rw [Option.some_inj, and_iff_right hkernel]
  · exact iff_of_false nofun fun h => hkernel h.1

theorem file_isSome : ((s.view sock).file fd).isSome ↔ s.kernel fd = some (.connection sock) := by
  rw [Option.isSome_iff_exists]
  exact ⟨fun ⟨_,h⟩ => (file_eq_some.mp h).1,fun h => ⟨_,file_eq_some.mpr ⟨h,rfl⟩⟩⟩

theorem listening_eq_some : s.listening fd = some (sock,c) ↔
    s.kernel fd = some (.listening sock) ∧ s.mgr.ctx fd = c := by
  unfold listening
  cases s.kernel fd with
  | none => simp
  | some file => cases file <;> simp

theorem view_congr (hm_sock : t.m_sock? sock = s.m_sock? sock) (hrefs : t.refs sock = s.refs sock)
    (haccepted : sock ∈ t.accepted ↔ sock ∈ s.accepted)
    (hhandled : sock ∈ t.handled.map Prod.fst ↔ sock ∈ s.handled.map Prod.fst)
    (hclosed : sock ∈ t.closed.map Prod.fst ↔ sock ∈ s.closed.map Prod.fst)
    (hfile : ∀ fd c, t.kernel fd = some (.connection sock) ∧ t.mgr.ctx fd = c ↔
      s.kernel fd = some (.connection sock) ∧ s.mgr.ctx fd = c) : t.view sock = s.view sock :=
  View.ext hm_sock hrefs (propext haccepted) (propext hhandled) (propext hclosed)
    (funext fun fd => Option.ext fun c => by
      simpa only [Option.mem_def, file_eq_some] using hfile fd c)

theorem listening_congr (hfile : ∀ fd sock c,
    t.kernel fd = some (.listening sock) ∧ t.mgr.ctx fd = c ↔
      s.kernel fd = some (.listening sock) ∧ s.mgr.ctx fd = c) : t.listening = s.listening :=
  funext fun fd => Option.ext fun (sock,c) => by
    simpa only [Option.mem_def, listening_eq_some] using hfile fd sock c

namespace OkAfter
variable {k : AfterClose}

theorem congr (h : s.OkAfter sock fd k)
    (hview : k.right sock = some sock → t.view sock = s.view sock)
    (hlistening : k.right sock = none → t.listening = s.listening) : t.OkAfter sock fd k := by
  cases k with
  | stop socks =>
    unfold OkAfter
    rw [hlistening rfl]
    exact h
  | loop _ | done | handleClient _ =>
    unfold OkAfter
    rw [hview rfl]
    exact h

/-- Nobody else changes the context of the descriptor either. -/
theorem ctx_eq (h : s.OkAfter sock fd k)
    (hview : k.right sock = some sock → t.view sock = s.view sock)
    (hlistening : k.right sock = none → t.listening = s.listening) :
    t.mgr.ctx fd = s.mgr.ctx fd := by
  have hfile : (s.view sock).Closing fd → k.right sock = some sock → t.mgr.ctx fd = s.mgr.ctx fd := by
    intro hclosing hk
    have hs := file_eq_some.mpr ⟨file_isSome.mp hclosing.file,rfl⟩
    rw [← hview hk] at hs
    exact (file_eq_some.mp hs).2
  cases k with
  | stop socks =>
    obtain ⟨⟨c,hc⟩,-⟩ := h
    have ht := hlistening rfl ▸ hc
    exact (listening_eq_some.mp ht).2.trans (listening_eq_some.mp hc).2.symm
  | loop _ | done => exact hfile h.1 rfl
  | handleClient _ => exact hfile h.2.1 rfl

end OkAfter

theorem Ok.congr (h : s.Ok v p) (hview : ∀ o, p.object = some o → t.view o = s.view o)
    (hlistening : none ∈ p.rights s.refs → t.listening = s.listening) : t.Ok v p := by
  cases p with
  | idle | loop _ => trivial
  | accept _ client _ | get _ client _ | create _ client _ | init _ client _
  | setRecvTimeout _ client | schedule _ client | next _ client | handleClient client =>
    simp only [Ok, hview client rfl] at h ⊢
    exact h
  | close sock fd k | del sock fd k =>
    exact OkAfter.congr (k := k) h (fun hk => hview sock hk)
      fun hk => hlistening (List.mem_singleton.mpr hk.symm)
  | close_f sock fd k =>
    have hview : k.right sock = some sock → t.view sock = s.view sock := fun hk => hview sock hk
    have hlistening : k.right sock = none → t.listening = s.listening :=
      fun hk => hlistening (List.mem_singleton.mpr hk.symm)
    exact ⟨h.1.congr hview hlistening,(h.1.ctx_eq hview hlistening).trans h.2⟩
  | stop socks =>
    unfold Ok
    rw [hlistening List.mem_cons_self]
    exact h

theorem OkTask.congr {task : ServerTask} (h : s.OkTask v task)
    (hview : ∀ o, some o ∈ task.rights → t.view o = s.view o) : t.OkTask v task := by
  cases task with
  | startAccept _ | stop => trivial
  | handleClient client =>
    simp only [OkTask, hview client List.mem_cons_self] at h ⊢
    exact h

/-- A phase that is about a `Socket` has the right to close it, or the callback has. -/
theorem rights_of_object {o : ℕ} (h : p.object = some o) (refs : ℕ → Refs) :
    some o ∈ p.rights refs ∨ ∃ l, p = .next l o ∧ (refs o).callback = true := by
  cases p with
  | idle | loop _ | stop _ => cases h
  | next l client =>
    cases h
    by_cases hcallback : (refs o).callback = true
    · exact .inr ⟨l,rfl,hcallback⟩
    · simp [ServerPhase.rights, hcallback]
  | close sock fd k | del sock fd k | close_f sock fd k =>
    exact .inl (List.mem_singleton.mpr h.symm)
  | accept _ _ _ | get _ _ _ | create _ _ _ | init _ _ _ | setRecvTimeout _ _ | schedule _ _
  | handleClient _ => exact .inl (List.mem_singleton.mpr h.symm)

/-- A ledger goes with the descriptors, and with what has happened to the connections. -/
theorem Ledger.congr (h : Ledger v n s) (hkernel : t.kernel = s.kernel)
    (hctx : ∀ fd c, t.mgr.ctx fd = some c → ∃ c', s.mgr.ctx fd = some c')
    (hm_socks : t.m_socks = s.m_socks) (haccepted : t.accepted = s.accepted)
    (hhandled : t.handled = s.handled) (hclosed : t.closed = s.closed)
    (hlength : s.heap.length ≤ t.heap.length)
    (hm_sock : ∀ sock < n, (t.view sock).m_sock = (s.view sock).m_sock) : Ledger v n t := by
  have hviews : ∀ sock, ((t.view sock).accepted ↔ (s.view sock).accepted) ∧
      ((t.view sock).handled ↔ (s.view sock).handled) ∧
      ((t.view sock).closed ↔ (s.view sock).closed) := by
    simp [view, haccepted, hhandled, hclosed]
  constructor
  · intro fd c hc
    obtain ⟨c',hc'⟩ := hctx fd c hc
    rw [hkernel]
    exact h.managed fd c' hc'
  · rw [hkernel]
    exact h.unique
  · intro fd client hfd
    rw [(hviews client).1, (hviews client).2.2]
    exact h.connection fd client (hkernel ▸ hfd)
  · intro fd sock hfd
    rw [hm_socks, (hviews sock).2.2]
    exact h.listening fd sock (hkernel ▸ hfd)
  · intro sock hsock
    rw [hm_sock sock hsock, hkernel]
    exact h.socks sock hsock
  · exact hm_socks ▸ h.m_socks
  · intro client hclient
    rw [(hviews client).2.2, hkernel]
    exact h.accepted client (haccepted ▸ hclient)
  · exact haccepted ▸ h.nodup_accepted
  · rw [hhandled, haccepted]
    exact h.handled
  · exact hhandled ▸ h.nodup_handled
  · intro x hx
    rw [(hviews x.1).2.1]
    exact h.closed x (hclosed ▸ hx)
  · exact hclosed ▸ h.nodup_closed
  · intro sock hsock
    rw [(hviews sock).1, (hviews sock).2.2] at hsock
    exact (h.allocated sock hsock).trans_le hlength

variable {o : ℕ}

theorem m_sock?_eq_some {r : Option ℕ} :
    s.m_sock? o = some r ↔ ∃ c, s.heap[o]? = some c ∧ c.m_sock = r :=
  Option.map_eq_some_iff

theorem lt_of_m_sock {r : Option ℕ} (h : s.m_sock? o = some r) : o < s.heap.length := by
  obtain ⟨c,hc,-⟩ := m_sock?_eq_some.mp h
  exact (List.getElem?_eq_some_iff.mp hc).1

theorem OkAfter.closing {k : AfterClose} {sock : ℕ} (h : s.OkAfter sock fd k)
    (ho : k.right sock = some o) : sock = o ∧ (s.view o).Closing fd := by
  cases k with
  | stop _ => cases ho
  | loop _ | done =>
    cases ho
    exact ⟨rfl,h.1⟩
  | handleClient _ =>
    cases ho
    exact ⟨rfl,h.2.1⟩

/-- What a fiber is about has been allocated. -/
theorem Ok.lt (h : s.Ok v p) (ho : p.object = some o) : o < s.heap.length := by
  cases p with
  | idle | loop _ | stop _ => cases ho
  | accept _ _ _ | get _ _ _ | create _ _ _ | init _ _ _ =>
    cases ho
    exact lt_of_m_sock h.1.m_sock
  | setRecvTimeout _ _ | schedule _ _ =>
    cases ho
    obtain ⟨-,-,fd,hm_sock,-⟩ := h
    exact lt_of_m_sock hm_sock
  | next _ _ =>
    cases ho
    obtain ⟨r,hr⟩ := Option.isSome_iff_exists.mp h.1
    exact lt_of_m_sock hr
  | handleClient _ =>
    cases ho
    obtain ⟨⟨-,⟨fd,c,hm_sock,-⟩ | ⟨hm_sock,-⟩⟩,-⟩ := h
    · exact lt_of_m_sock hm_sock.m_sock
    · exact lt_of_m_sock hm_sock
  | close sock fd k | del sock fd k => exact lt_of_m_sock (OkAfter.closing (k := k) h ho).2.m_sock
  | close_f sock fd k => exact lt_of_m_sock (h.1.closing ho).2.m_sock

theorem OkTask.lt {task : ServerTask} (h : s.OkTask v task) (ho : some o ∈ task.rights) :
    o < s.heap.length := by
  cases task with
  | startAccept _ => cases ho
  | stop => cases List.mem_singleton.mp ho
  | handleClient client =>
    cases List.mem_singleton.mp ho
    obtain ⟨⟨-,fd,hm_sock,-⟩,-⟩ := h
    exact lt_of_m_sock hm_sock

/-- Who has a right is about the `Socket`. -/
theorem object_of_rights {refs : ℕ → Refs} (h : some o ∈ p.rights refs) : p.object = some o := by
  cases p with
  | idle | loop _ => cases h
  | stop _ => cases List.mem_singleton.mp h
  | next l client =>
    simp only [ServerPhase.rights] at h
    split_ifs at h
    · cases h
    · exact (List.mem_singleton.mp h).symm
  | _ => exact (List.mem_singleton.mp h).symm

theorem object_of_client (h : p.client = some o) : p.object = some o := by
  cases p with
  | idle | loop _ | stop _ | handleClient _ | close _ _ _ | del _ _ _ | close_f _ _ _ => cases h
  | _ => exact h

theorem isStop_of_rights {refs : ℕ → Refs} (h : none ∈ p.rights refs) : p.isStop = true := by
  cases p with
  | idle | loop _ => cases h
  | stop _ => rfl
  | next l client =>
    simp only [ServerPhase.rights] at h
    split_ifs at h
    · cases h
    · cases List.mem_singleton.mp h
  | close _ _ k | del _ _ k | close_f _ _ k =>
    have hk := List.mem_singleton.mp h
    cases k with
    | stop _ => rfl
    | loop _ | handleClient _ | done => cases hk
  | accept _ _ _ | get _ _ _ | create _ _ _ | init _ _ _ | setRecvTimeout _ _ | schedule _ _
  | handleClient _ => cases List.mem_singleton.mp h

end Serving
end CoroutineWebserve
