import CoroutineWebserve.Client.Pool

/-!
# The limits of the pool

The header bounds the length of the list by `m_maxSize`, the age of a connection by
`m_maxAliveTime` and its requests by `m_maxRequest`. `m_maxSize` is read nowhere. `m_createTime`
is written nowhere, so that the two tests of the age compare the clock with `m_maxAliveTime`.
-/
namespace CoroutineWebserve.Client
namespace HttpConnectionPool
variable {T : Type*} [DecidableEq T] {s s' : HttpConnectionPool T} {i : Step T}
variable {maxSize maxAliveTime maxRequest : UInt32}

/-! ### The length of the list -/

/-- `ReleasePtr` puts a connection back where fewer than `m_maxSize` are on the list. -/
def Room (maxSize : UInt32) (s : HttpConnectionPool T) : Step T → Prop
  | .push _ => s.conns.length < maxSize.toNat
  | _ => True

instance (maxSize : UInt32) (s : HttpConnectionPool T) (i : Step T) :
    Decidable (Room maxSize s i) := by
  cases i <;> unfold Room <;> infer_instance

/-- `getConnection` connects while fewer than `m_maxSize` connections are alive. -/
def Spare (maxSize : UInt32) (s : HttpConnectionPool T) : Step T → Prop
  | .connect _ none => s.heap.length < s.deleted.length+maxSize.toNat
  | _ => True

/-- Only `ReleasePtr` makes the list longer. -/
theorem conns_step (hs : s.step i = some s') : s'.conns.length ≤ s.conns.length ∨
    ∃ t, i = .push t ∧ s'.conns.length = s.conns.length+1 := by
  cases step_moves hs with
  | push => exact .inr ⟨_,rfl,List.length_append⟩
  | reject _ hconns | take _ hconns =>
    left
    rw [hconns]
    exact Nat.le_succ _
  | _ => exact .inl le_rfl

/-- Only `getConnection` makes a connection. -/
theorem alive_step (hs : s.step i = some s') : s.deleted.length ≤ s'.deleted.length ∧
    (s'.heap.length = s.heap.length ∨
      ∃ t, i = .connect t none ∧ s'.heap.length = s.heap.length+1) := by
  cases step_moves hs with
  | connect => exact ⟨le_rfl,.inr ⟨_,rfl,List.length_append⟩⟩
  | delete | drop => exact ⟨Nat.le_succ _,.inl rfl⟩
  | count | connected => exact ⟨le_rfl,.inl (List.length_modify ..)⟩
  | _ => exact ⟨le_rfl,.inl rfl⟩

/-- The list stays within `m_maxSize` in the runs in which `ReleasePtr` finds room there. -/
theorem conns_length_le
    (h : (machine T maxAliveTime maxRequest).Reaches (Room maxSize) s) :
    s.conns.length ≤ maxSize.toNat := by
  refine h.invariant (I := fun s => s.conns.length ≤ maxSize.toNat) (fun s hs => ?_)
    fun s i s' hle hroom hs => ?_
  · have hnil : s.conns = [] := congrArg conns hs
    rw [hnil]
    exact Nat.zero_le _
  · rcases conns_step hs with hshort | ⟨t,rfl,hlength⟩
    · exact hshort.trans hle
    · rw [hlength]
      exact hroom

/-- Two threads take turns with one connection. -/
theorem conns_length_le_one :
    ∃ s : HttpConnectionPool (Fin 2), s.conns = [0] ∧ s.conns.length ≤ 1 := by
  obtain ⟨s,hs,hconns⟩ := Transition.Machine.exists_reaches
    (M := machine (Fin 2) 30000 100) (G := Room 1) rfl
    [.lock 0 50000,.unlock 0,.subtract 0,.connect 0 none,.increment 0,.give 0,.release 0 0,
      .count 0,.test 0 50001,.push 0,.lock 1 50002,.pop 1,.unlock 1,.subtract 1,.give 1,
      .release 1 0,.count 1,.test 1 50003,.push 1]
    (fun s => s.conns = [0]) (by decide) (by decide)
  exact ⟨s,hconns,conns_length_le hs⟩

/-- Two threads that use the pool at once leave two connections in a pool of size 1. -/
theorem not_conns_length_le :
    ¬ ∀ (maxSize : UInt32) (s : HttpConnectionPool (Fin 2)),
      (machine (Fin 2) 30000 100).Reachable s → s.conns.length ≤ maxSize.toNat := by
  intro h
  obtain ⟨s,hs,hconns⟩ := Transition.Machine.exists_reaches
    (M := machine (Fin 2) 30000 100) (G := fun _ _ => True) rfl
    [.lock 0 50000,.unlock 0,.lock 1 50000,.unlock 1,.subtract 0,.subtract 1,.connect 0 none,
      .connect 1 none,.increment 0,.increment 1,.give 0,.give 1,.release 0 0,.release 1 1,
      .count 0,.count 1,.test 0 50001,.test 1 50001,.push 0,.push 1]
    (fun s => s.conns = [0,1]) (Transition.Machine.guarded_true ..) (by decide)
  have hle := h 1 s hs
  rw [hconns] at hle
  exact absurd hle (by decide)

omit [DecidableEq T] in
/-- The connections on the list are alive. -/
theorem Inv.conns_alive (h : Inv s) : s.conns.length+s.deleted.length ≤ s.heap.length := by
  have hnodup : (s.conns++s.deleted).Nodup :=
    (h.exclusive.nodup .conns).append (h.exclusive.nodup .gone) fun c hc hgone =>
      h.exclusive.notMem (p := .conns) (q := .gone) hc (by simp) hgone
  have hsub : s.conns++s.deleted ⊆ List.range s.heap.length := by
    intro c hc
    rw [List.mem_range]
    rcases List.mem_append.mp hc with hc | hc
    · exact h.born .conns c hc
    · exact h.born .gone c hc
  have hle := (hnodup.subperm hsub).length_le
  rwa [List.length_append, List.length_range] at hle

/-- The limit would hold if `getConnection` did not connect beyond it. -/
theorem conns_length_le_of_spare
    (h : (machine T maxAliveTime maxRequest).Reaches (Spare maxSize) s) :
    s.conns.length ≤ maxSize.toNat := by
  have halive : s.heap.length ≤ s.deleted.length+maxSize.toNat := by
    refine h.invariant (I := fun s => s.heap.length ≤ s.deleted.length+maxSize.toNat)
      (fun s hs => ?_) fun s i s' hle hspare hs => ?_
    · have hnil : s.heap = [] := congrArg heap hs
      rw [hnil]
      exact Nat.zero_le _
    · obtain ⟨hdeleted,hheap | ⟨t,rfl,hheap⟩⟩ := alive_step hs
      · omega
      · have hlt : s.heap.length < s.deleted.length+maxSize.toNat := hspare
        omega
  have hinv : Inv s := h.invariant (fun _ hi => hi ▸ .initial ..) fun _ _ _ hs _ => hs.step
  have hconns := hinv.conns_alive
  omega

/-! ### What the pool keeps -/

/-- The connections on the list and those that are about to be put back. -/
def Stored (s : HttpConnectionPool T) (c : ℕ) : Prop :=
  c ∈ s.conns ∨ ∃ t, s.phase t = .pushing c

theorem Stored.of_setPhase {t : T} {phase : PoolPhase} {c : ℕ}
    (h : (s.setPhase t phase).Stored c) (hphase : phase ≠ .pushing c) : s.Stored c := by
  rcases h with hc | ⟨u,hu⟩
  · exact .inl hc
  · simp only [setPhase, Function.update_apply] at hu
    split_ifs at hu
    · exact absurd hu hphase
    · exact .inr ⟨u,hu⟩

/-- The connection has served fewer requests than `m_maxRequest`. -/
def Below (s : HttpConnectionPool T) (c : ℕ) : Prop :=
  ∀ conn ∈ s.heap[c]?, conn.request < s.maxRequest.toUInt64

/-- No connection knows when it was made, and what the pool keeps can serve one more request. -/
structure Fresh (maxAliveTime maxRequest : UInt32) (s : HttpConnectionPool T) : Prop where
  inv : Inv s
  maxAliveTime : s.maxAliveTime = maxAliveTime
  maxRequest : s.maxRequest = maxRequest
  createTime : ∀ conn ∈ s.heap, conn.createTime = 0
  stored : ∀ c, s.Stored c → s.Below c

namespace Fresh

omit [DecidableEq T] in
theorem initial : Fresh maxAliveTime maxRequest
    (HttpConnectionPool.initial maxAliveTime maxRequest : HttpConnectionPool T) where
  inv := .initial ..
  maxAliveTime := rfl
  maxRequest := rfl
  createTime conn hconn := by cases hconn
  stored c hc := by
    rcases hc with hc | ⟨t,ht⟩
    · cases hc
    · cases ht

/-- A step of the thread `t` to `phase` that leaves the connections as they are. -/
theorem next (h : Fresh maxAliveTime maxRequest s) (hinv : Inv s') (t : T) (phase : PoolPhase)
    (hphase : s'.phase = Function.update s.phase t phase)
    (hpushing : ∀ c, phase = .pushing c → s.Below c)
    (hconns : ∀ c ∈ s'.conns, s.Stored c) (hheap : s'.heap = s.heap)
    (hmaxAliveTime : s'.maxAliveTime = s.maxAliveTime)
    (hmaxRequest : s'.maxRequest = s.maxRequest) : Fresh maxAliveTime maxRequest s' where
  inv := hinv
  maxAliveTime := hmaxAliveTime.trans h.maxAliveTime
  maxRequest := hmaxRequest.trans h.maxRequest
  createTime := hheap ▸ h.createTime
  stored c hc := by
    have hbelow : s.Below c := by
      rcases hc with hc | ⟨u,hu⟩
      · exact h.stored c (hconns c hc)
      · rw [hphase, Function.update_apply] at hu
        split_ifs at hu
        · exact hpushing c hu
        · exact h.stored c (.inr ⟨u,hu⟩)
    rwa [Below, hheap, hmaxRequest]

omit [DecidableEq T] in
/-- A change of a connection that leaves the requests of what the pool keeps as they are. -/
theorem modify (h : Fresh maxAliveTime maxRequest s) (hinv : Inv s') (ptr : ℕ)
    (f : PooledConnection → PooledConnection) (hheap : s'.heap = s.heap.modify ptr f)
    (hcreateTime : ∀ conn, (f conn).createTime = conn.createTime)
    (hstored : ∀ c, s'.Stored c → s.Stored c)
    (hrequest : s'.Stored ptr → ∀ conn, (f conn).request = conn.request)
    (hmaxAliveTime : s'.maxAliveTime = s.maxAliveTime)
    (hmaxRequest : s'.maxRequest = s.maxRequest) : Fresh maxAliveTime maxRequest s' where
  inv := hinv
  maxAliveTime := hmaxAliveTime.trans h.maxAliveTime
  maxRequest := hmaxRequest.trans h.maxRequest
  createTime conn hconn := by
    rw [hheap] at hconn
    obtain ⟨c,hc⟩ := List.mem_iff_getElem?.mp hconn
    rw [List.getElem?_modify] at hc
    obtain ⟨old,hold,rfl⟩ := Option.map_eq_some_iff.mp hc
    have hzero := h.createTime old (List.mem_of_getElem? hold)
    split_ifs
    · rw [hcreateTime, hzero]
    · exact hzero
  stored c hc := by
    intro conn hconn
    rw [hheap, List.getElem?_modify] at hconn
    obtain ⟨old,hold,rfl⟩ := Option.map_eq_some_iff.mp hconn
    have hbelow := h.stored c (hstored c hc) old hold
    rw [hmaxRequest]
    split_ifs with hptr
    · subst hptr
      rw [hrequest hc]
      exact hbelow
    · exact hbelow

/-- `getConnection` has connected. -/
theorem connected (h : Fresh maxAliveTime maxRequest s) (t : T) (hinv : Inv s')
    (hs : s' = { s.setPhase t (.created s.heap.length) with heap := s.heap++[⟨true,0,0⟩] }) :
    Fresh maxAliveTime maxRequest s' where
  inv := hinv
  maxAliveTime := hs ▸ h.maxAliveTime
  maxRequest := hs ▸ h.maxRequest
  createTime := by
    intro conn hconn
    rw [hs] at hconn
    rcases List.mem_append.mp hconn with hconn | hconn
    · exact h.createTime conn hconn
    · rw [List.mem_singleton.mp hconn]
  stored := by
    intro c hc conn hconn
    subst hs
    have hstored : s.Stored c := Stored.of_setPhase hc (by simp)
    have hlt : c < s.heap.length := by
      rcases hstored with hc | ⟨u,hu⟩
      · exact h.inv.born .conns c hc
      · exact h.inv.born (.thread u) c (by simp [place, hu, PoolPhase.owned])
    rw [List.getElem?_append_left hlt] at hconn
    exact h.stored c hstored conn hconn

/-- The thread that counts a request owns the connection. -/
theorem count (h : Fresh maxAliveTime maxRequest s) {t : T} {ptr : ℕ}
    (hphase : s.phase t = .releasing ptr) : ¬ (s.setPhase t (.counted ptr)).Stored ptr := by
  have howned : ptr ∈ s.place (.thread t) := by simp [place, hphase, PoolPhase.owned]
  rintro (hc | ⟨u,hu⟩)
  · have hmem : ptr ∈ s.place .conns := hc
    exact h.inv.exclusive.notMem howned (by simp) hmem
  · simp only [setPhase, Function.update_apply] at hu
    split_ifs at hu with hne
    refine h.inv.exclusive.notMem howned (q := .thread u) ?_ ?_
    · simpa using Ne.symm hne
    · simp [place, hu, PoolPhase.owned]

theorem step (h : Fresh maxAliveTime maxRequest s) (hs : s.step i = some s') :
    Fresh maxAliveTime maxRequest s' := by
  have hinv : Inv s' := h.inv.step hs
  have hsame : ∀ c ∈ s.conns, s.Stored c := fun c hc => .inl hc
  cases step_moves hs with
  | reject _ hconns | take _ hconns =>
    refine h.next hinv _ _ rfl (by simp) (fun c hc => .inl ?_) rfl rfl rfl
    rw [hconns]
    exact List.mem_cons_of_mem _ hc
  | connect => exact h.connected _ hinv rfl
  | count hphase =>
    exact h.modify hinv _ _ rfl (fun _ => rfl) (fun c hc => Stored.of_setPhase hc (by simp))
      (fun hc => absurd hc (h.count hphase)) rfl rfl
  | @keep t now_ms ptr hphase hworn =>
    refine h.next hinv t _ rfl (fun c hc conn hconn => ?_) hsame rfl rfl rfl
    obtain rfl : ptr = c := PoolPhase.pushing.inj hc
    simp only [worn, not_forall, not_or] at hworn
    obtain ⟨conn',hconn',-,-,hrequest⟩ := hworn
    cases hconn'.symm.trans hconn
    exact UInt64.not_le.mp hrequest
  | @push t ptr hphase _ =>
    refine h.next hinv t _ rfl (by simp) (fun c hc => ?_) rfl rfl rfl
    rcases List.mem_append.mp hc with hc | hc
    · exact .inl hc
    · exact .inr ⟨t,List.mem_singleton.mp hc ▸ hphase⟩
  | connected =>
    exact h.modify hinv _ _ rfl (fun _ => rfl) (fun _ hc => hc) (fun _ _ => rfl) rfl rfl
  | _ => exact h.next hinv _ _ rfl (by simp) hsame rfl rfl rfl

end Fresh

/-! ### The two tests of the age -/

omit [DecidableEq T] in
theorem Fresh.invalid_iff (h : Fresh maxAliveTime maxRequest s) {ptr : ℕ} {conn : PooledConnection}
    (hconn : s.heap[ptr]? = some conn) (now_ms : UInt64) :
    s.invalid now_ms ptr ↔ conn.connected = false ∨ ¬ maxAliveTime.toUInt64 ≤ now_ms := by
  have hzero := h.createTime conn (List.mem_of_getElem? hconn)
  simp [invalid, hconn, hzero, h.maxAliveTime]

omit [DecidableEq T] in
theorem Fresh.worn_iff (h : Fresh maxAliveTime maxRequest s) {ptr : ℕ} {conn : PooledConnection}
    (hconn : s.heap[ptr]? = some conn) (now_ms : UInt64) :
    s.worn now_ms ptr ↔ conn.connected = false ∨ ¬ maxAliveTime.toUInt64 < now_ms ∨
      ¬ conn.request < maxRequest.toUInt64 := by
  have hzero := h.createTime conn (List.mem_of_getElem? hconn)
  simp [worn, hconn, hzero, h.maxAliveTime, h.maxRequest]

end HttpConnectionPool

/-! ### The clock -/

/-- The tests of the age: `getConnection` at the reading `now_ms` hands out a connection made at
`created`, or `ReleasePtr` decides on one while `stored` connections are on the list. -/
inductive Event
  | taken (now_ms created : UInt64) (conn : PooledConnection)
  | released (now_ms created : UInt64) (conn : PooledConnection) (stored : ℕ) (kept : Bool)
deriving DecidableEq

/-- The connection is as the limits of the pool want it. -/
def Event.Respects (maxSize maxAliveTime maxRequest : UInt32) : Event → Prop
  | taken now_ms created conn => conn.connected = true ∧
      now_ms.toNat < created.toNat+maxAliveTime.toNat ∧ conn.request < maxRequest.toUInt64
  | released now_ms created conn stored kept => conn.connected = true →
      now_ms.toNat < created.toNat+maxAliveTime.toNat → conn.request < maxRequest.toUInt64 →
      stored < maxSize.toNat → kept = true

instance (maxSize maxAliveTime maxRequest : UInt32) :
    DecidablePred (Event.Respects maxSize maxAliveTime maxRequest) := fun e => by
  cases e <;> unfold Event.Respects <;> infer_instance

/-- The pool with the clock, what the threads have read on it before they lock the mutex, and
ghost fields: when the connections were made, and the tests so far. -/
structure TimedPool (T : Type*) where
  pool : HttpConnectionPool T
  clock : UInt64
  now_ms : T → Option UInt64
  created : ℕ → UInt64
  log : List Event

/-- Time passes, `getConnection` reads the clock, or the pool makes a step. -/
inductive Tick (T : Type*)
  | pass (clock : UInt64)
  | read (t : T)
  | act (i : HttpConnectionPool.Step T)

namespace TimedPool
variable {T : Type*} [DecidableEq T]

def initial (maxAliveTime maxRequest : UInt32) (clock : UInt64) : TimedPool T where
  pool := .initial maxAliveTime maxRequest
  clock := clock
  now_ms _ := none
  created _ := 0
  log := []

/-- `getConnection` locks the mutex with the time that it has read, `ReleasePtr` reads the clock
at its test, and begins where no `getConnection` has begun. -/
def OnTime (s : TimedPool T) : HttpConnectionPool.Step T → Prop
  | .lock t now_ms => s.now_ms t = some now_ms
  | .release t _ => s.now_ms t = none
  | .test _ now_ms => now_ms = s.clock
  | _ => True

instance (s : TimedPool T) : DecidablePred s.OnTime := fun i => by
  cases i <;> unfold OnTime <;> infer_instance

/-- What a step adds to the log. -/
def events (s : TimedPool T) : HttpConnectionPool.Step T → List Event
  | .pop t =>
    match s.pool.phase t, s.pool.conns with
    | .popping now_ms _ none, ptr :: _ =>
      if s.pool.invalid now_ms ptr then []
      else s.pool.heap[ptr]?.toList.map (.taken now_ms (s.created ptr))
    | _, _ => []
  | .test t now_ms =>
    match s.pool.phase t with
    | .counted ptr => s.pool.heap[ptr]?.toList.map fun conn =>
      .released now_ms (s.created ptr) conn s.pool.conns.length
        (decide ¬ s.pool.worn now_ms ptr)
    | _ => []
  | _ => []

def step (s : TimedPool T) : Tick T → Option (TimedPool T)
  | .pass clock => if s.clock ≤ clock then some { s with clock } else none
  | .read t =>
    match s.pool.phase t, s.now_ms t with
    | .idle, none => some { s with now_ms := Function.update s.now_ms t (some s.clock) }
    | _, _ => none
  | .act i =>
    if s.OnTime i then (s.pool.step i).map fun pool => { s with
      pool
      now_ms := match i with
        | .lock t _ => Function.update s.now_ms t none
        | _ => s.now_ms
      created := match i with
        | .connect _ none => Function.update s.created s.pool.heap.length s.clock
        | _ => s.created
      log := s.log++s.events i }
    else none

def machine (T : Type*) [DecidableEq T] (maxAliveTime maxRequest : UInt32) :
    Transition.Machine (TimedPool T) (Tick T) where
  init s := ∃ clock, s = initial maxAliveTime maxRequest clock
  step := step

/-- The clock has run for `m_maxAliveTime` since the connection was made. -/
def Expired (s : TimedPool T) (now_ms : UInt64) (ptr : ℕ) : Prop :=
  (s.created ptr).toNat+s.pool.maxAliveTime.toNat ≤ now_ms.toNat

instance (s : TimedPool T) (now_ms : UInt64) (ptr : ℕ) : Decidable (s.Expired now_ms ptr) :=
  Nat.decLe ..

/-- `getConnection` finds no connected connection that is too old at the front of the list once
the clock itself has reached `m_maxAliveTime`, and `ReleasePtr` finds that the clock has passed
`m_maxAliveTime` when a connection could be kept. -/
def Timely (maxSize : UInt32) (s : TimedPool T) : Tick T → Prop
  | .act (.pop t) =>
    match s.pool.phase t, s.pool.conns with
    | .popping now_ms _ none, ptr :: _ => ∀ conn ∈ s.pool.heap[ptr]?, conn.connected = true →
      s.pool.maxAliveTime.toUInt64 ≤ now_ms → ¬ s.Expired now_ms ptr
    | _, _ => True
  | .act (.test t now_ms) =>
    match s.pool.phase t with
    | .counted ptr => ∀ conn ∈ s.pool.heap[ptr]?, conn.connected = true →
      ¬ s.Expired now_ms ptr → conn.request < s.pool.maxRequest.toUInt64 →
      s.pool.conns.length < maxSize.toNat → s.pool.maxAliveTime.toUInt64 < now_ms
    | _ => True
  | _ => True

instance (maxSize : UInt32) (s : TimedPool T) : DecidablePred (Timely maxSize s) := fun i => by
  unfold Timely
  split <;> first | infer_instance | (split <;> infer_instance)

variable {maxSize maxAliveTime maxRequest : UInt32} {s s' : TimedPool T}

omit [DecidableEq T] in
/-- `getConnection` hands out what it should if it finds nothing too old. -/
theorem taken_respects (h : s.pool.Fresh maxAliveTime maxRequest) (t : T) :
    (∀ e ∈ s.events (.pop t), e.Respects maxSize maxAliveTime maxRequest) ↔
      s.Timely maxSize (.act (.pop t)) := by
  simp only [events, Timely]
  split
  · rename_i now_ms invalid_conns ptr conns hphase hconns
    cases hconn : s.pool.heap[ptr]? with
    | none => simp
    | some conn =>
      have hrequest : conn.request < maxRequest.toUInt64 := h.maxRequest ▸
        h.stored ptr (.inl (hconns ▸ List.mem_cons_self)) conn hconn
      have hinvalid := h.invalid_iff hconn now_ms
      simp only [Option.toList_some, List.map_cons, List.map_nil, Option.mem_some_iff,
        forall_eq', h.maxAliveTime]
      split_ifs with hif
      · have hskip : conn.connected = true → ¬ maxAliveTime.toUInt64 ≤ now_ms := by
          intro hconnected
          exact (hinvalid.mp hif).resolve_left (by simp [hconnected])
        exact iff_of_true (by simp) fun hconnected hle => absurd hle (hskip hconnected)
      · have hgiven : conn.connected = true ∧ maxAliveTime.toUInt64 ≤ now_ms := by
          simpa [hinvalid] using hif
        simp [Event.Respects, hrequest, Expired, h.maxAliveTime, hgiven]
  · simp

omit [DecidableEq T] in
/-- `ReleasePtr` keeps what it should if the clock is far enough. -/
theorem released_respects (h : s.pool.Fresh maxAliveTime maxRequest) (t : T) (now_ms : UInt64) :
    (∀ e ∈ s.events (.test t now_ms), e.Respects maxSize maxAliveTime maxRequest) ↔
      s.Timely maxSize (.act (.test t now_ms)) := by
  simp only [events, Timely]
  split
  · rename_i ptr hphase
    cases hconn : s.pool.heap[ptr]? with
    | none => simp
    | some conn =>
      have hworn := h.worn_iff hconn now_ms
      simp only [Option.toList_some, List.map_cons, List.map_nil, List.mem_singleton, forall_eq,
        Option.mem_some_iff, forall_eq', Event.Respects, hworn, Expired, h.maxAliveTime,
        h.maxRequest, decide_eq_true_eq, not_or, not_not, not_le]
      refine forall_congr' fun hconnected => forall_congr' fun _ => forall_congr' fun hrequest =>
        forall_congr' fun _ => ?_
      simp [hconnected, hrequest]
  · simp

omit [DecidableEq T] in
theorem events_respect (h : s.pool.Fresh maxAliveTime maxRequest) (i : HttpConnectionPool.Step T) :
    (∀ e ∈ s.events i, e.Respects maxSize maxAliveTime maxRequest) ↔ s.Timely maxSize (.act i) := by
  cases i with
  | pop t => exact taken_respects h t
  | test t now_ms => exact released_respects h t now_ms
  | _ => exact iff_of_true nofun trivial

/-- A step keeps the invariant of the pool, and the log in order exactly if it is timely. -/
theorem respects_step {i : Tick T} (h : s.pool.Fresh maxAliveTime maxRequest)
    (hs : s.step i = some s') : s'.pool.Fresh maxAliveTime maxRequest ∧
      ((∀ e ∈ s'.log, e.Respects maxSize maxAliveTime maxRequest) ↔
        (∀ e ∈ s.log, e.Respects maxSize maxAliveTime maxRequest) ∧ s.Timely maxSize i) := by
  cases i with
  | pass clock =>
    simp only [step] at hs
    split_ifs at hs
    cases hs
    exact ⟨h,(and_iff_left trivial).symm⟩
  | read t =>
    simp only [step] at hs
    split at hs
    · cases hs
      exact ⟨h,(and_iff_left trivial).symm⟩
    · cases hs
  | act i =>
    simp only [step] at hs
    split_ifs at hs
    obtain ⟨pool,hpool,rfl⟩ := Option.map_eq_some_iff.mp hs
    refine ⟨h.step hpool,?_⟩
    rw [List.forall_mem_append, events_respect h]

/-- A connection that `getConnection` takes from the list to hand it out is in the log. -/
theorem pop_logged (h : s.pool.Inv) {t : T} {now_ms : UInt64} {invalid_conns : List ℕ} {ptr : ℕ}
    (hs : s.step (.act (.pop t)) = some s')
    (hptr : s'.pool.phase t = .popping now_ms invalid_conns (some ptr)) :
    ∃ conn ∈ s.pool.heap[ptr]?, s'.log = s.log++[.taken now_ms (s.created ptr) conn] := by
  simp only [step] at hs
  split_ifs at hs
  obtain ⟨pool,hpool,rfl⟩ := Option.map_eq_some_iff.mp hs
  cases HttpConnectionPool.step_moves hpool with
  | reject => simp [HttpConnectionPool.setPhase] at hptr
  | @take _ _ _ conn conns hphase hconns hinvalid =>
    have hmem : conn ∈ s.pool.place .conns := by simp [HttpConnectionPool.place, hconns]
    have hlt := h.born .conns conn hmem
    simp only [HttpConnectionPool.setPhase, Function.update_self] at hptr
    cases hptr
    refine ⟨_,List.getElem?_eq_getElem hlt,?_⟩
    simp [events, hphase, hconns, hinvalid, hlt]

/-- A decision of `ReleasePtr` is in the log. -/
theorem test_logged (h : s.pool.Inv) {t : T} {now_ms : UInt64} {ptr : ℕ}
    (hphase : s.pool.phase t = .counted ptr) (hs : s.step (.act (.test t now_ms)) = some s') :
    ∃ conn ∈ s.pool.heap[ptr]?, ∃ kept, (kept = true ↔ s'.pool.phase t = .pushing ptr) ∧
      s'.log = s.log++[.released now_ms (s.created ptr) conn s.pool.conns.length kept] := by
  have hlt := h.born (.thread t) ptr (by simp [HttpConnectionPool.place, hphase, PoolPhase.owned])
  simp only [step] at hs
  split_ifs at hs
  obtain ⟨pool,hpool,rfl⟩ := Option.map_eq_some_iff.mp hs
  simp only [HttpConnectionPool.step, hphase, Option.some_inj] at hpool
  subst hpool
  refine ⟨_,List.getElem?_eq_getElem hlt,decide ¬ s.pool.worn now_ms ptr,?_,?_⟩
  · by_cases hworn : s.pool.worn now_ms ptr <;> simp [HttpConnectionPool.setPhase, hworn]
  · simp [events, hphase, hlt]

/-- The pool respects the age of the connections exactly in the timely runs. -/
theorem log_respects {clock : UInt64} {is : List (Tick T)}
    (h : (machine T maxAliveTime maxRequest).exec (initial maxAliveTime maxRequest clock) is =
      some s) :
    (∀ e ∈ s.log, e.Respects maxSize maxAliveTime maxRequest) ↔
      (machine T maxAliveTime maxRequest).Guarded (Timely maxSize)
        (initial maxAliveTime maxRequest clock) is := by
  rw [Transition.Machine.guarded_iff (I := fun s => s.pool.Fresh maxAliveTime maxRequest)
    (fun s i t hI hs => respects_step hI hs) .initial h]
  exact and_iff_right nofun

/-- A connection is made, put back and handed out again within 30 seconds. -/
theorem log_respects_two : ∃ s : TimedPool (Fin 2), s.log.length = 2 ∧
    ∀ e ∈ s.log, e.Respects 8 30000 100 := by
  obtain ⟨s,hs,hlength⟩ : ∃ s ∈ (machine (Fin 2) 30000 100).exec (initial 30000 100 1000000)
      [.read 0,.act (.lock 0 1000000),.act (.unlock 0),.act (.subtract 0),.act (.connect 0 none),
        .act (.increment 0),.act (.give 0),.pass 1000700,.act (.release 0 0),.act (.count 0),
        .act (.test 0 1000700),.act (.push 0),.pass 1020000,.read 1,.act (.lock 1 1020000),
        .act (.pop 1)], s.log.length = 2 := by decide
  exact ⟨s,hlength,(log_respects hs).mpr (by decide)⟩

/-- A connection that is 60 seconds old is handed out where 30 seconds are allowed. -/
theorem not_log_respects :
    ¬ ∀ (maxSize maxAliveTime maxRequest : UInt32) (clock : UInt64) (is : List (Tick (Fin 1))),
      ∀ s ∈ (machine (Fin 1) maxAliveTime maxRequest).exec
        (initial maxAliveTime maxRequest clock) is,
      ∀ e ∈ s.log, e.Respects maxSize maxAliveTime maxRequest := by
  intro h
  have hrun := h 8 30000 100 1000000
    [.read 0,.act (.lock 0 1000000),.act (.unlock 0),.act (.subtract 0),.act (.connect 0 none),
      .act (.increment 0),.act (.give 0),.act (.release 0 0),.act (.count 0),
      .act (.test 0 1000000),.act (.push 0),.pass 1060000,.read 0,.act (.lock 0 1060000),
      .act (.pop 0)]
  revert hrun
  decide

end TimedPool
end CoroutineWebserve.Client
