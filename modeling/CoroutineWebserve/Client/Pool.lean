import CoroutineWebserve.Transition.Machine
import CoroutineWebserve.Transition.Places
import Mathlib.Data.UInt

/-!
# `HttpConnectionPool`

`getConnection` takes connections off the list under the mutex, and deletes those that have
failed, adjusts `m_total` and connects behind it; `ReleasePtr` runs when the last pointer to a
connection goes. Every access to what threads share is a step.
-/
namespace CoroutineWebserve.Client

/-- What the pool reads of an `HttpConnection`. -/
structure PooledConnection where
  connected : Bool
  createTime : UInt64
  request : UInt64
deriving Repr, DecidableEq

/-- Where a thread (or fiber) is. In `getConnection` it takes connections off the list under the mutex,
deletes the invalid ones, subtracts their number, connects, increments `m_total`, or is about
to return; in `ReleasePtr` it counts the request, tests, deletes and decrements, or is about
to put the connection back. -/
inductive PoolPhase
  | idle
  | popping (now_ms : UInt64) (invalid_conns : List ℕ) (ptr : Option ℕ)
  | deleting (invalid_conns : List ℕ) (size : ℕ) (ptr : Option ℕ)
  | connecting
  | created (ptr : ℕ)
  | returning (ptr : ℕ)
  | releasing (ptr : ℕ)
  | counted (ptr : ℕ)
  | dropping (ptr : ℕ)
  | decrementing
  | pushing (ptr : ℕ)
deriving DecidableEq

namespace PoolPhase

/-- The connections that a thread owns. -/
def owned : PoolPhase → List ℕ
  | idle | connecting | decrementing => []
  | popping _ invalid_conns ptr | deleting invalid_conns _ ptr => invalid_conns++ptr.toList
  | created ptr | returning ptr | releasing ptr | counted ptr | dropping ptr | pushing ptr =>
    [ptr]

/-- What a thread has to do with `m_total`: the connections that it owns or has deleted, as far
as they are counted. -/
def weight : PoolPhase → ℤ
  | idle | connecting | created _ => 0
  | popping _ invalid_conns ptr => invalid_conns.length+ptr.toList.length
  | deleting _ size ptr => size+ptr.toList.length
  | returning _ | releasing _ | counted _ | dropping _ | decrementing | pushing _ => 1

end PoolPhase

/-- The connections in the order of their allocation, and ghost lists of those that are checked
out and of the deletions. -/
structure HttpConnectionPool (T : Type*) where
  maxAliveTime : UInt32
  maxRequest : UInt32
  mutex : Option T
  conns : List ℕ
  total : BitVec 32
  heap : List PooledConnection
  phase : T → PoolPhase
  checkedOut : List ℕ
  deleted : List ℕ

namespace HttpConnectionPool
variable {T : Type*}

def initial (maxAliveTime maxRequest : UInt32) : HttpConnectionPool T where
  maxAliveTime := maxAliveTime
  maxRequest := maxRequest
  mutex := none
  conns := []
  total := 0
  heap := []
  phase _ := .idle
  checkedOut := []
  deleted := []

/-- The ways in which `getConnection` fails to connect. -/
inductive ConnectError
  | addr
  | sock
  | connect
deriving DecidableEq

/-- The steps of the threads, and a change of what `isConnected` answers. -/
inductive Step (T : Type*)
  | lock (t : T) (now_ms : UInt64)
  | pop (t : T)
  | unlock (t : T)
  | delete (t : T)
  | subtract (t : T)
  | connect (t : T) (error : Option ConnectError)
  | increment (t : T)
  | give (t : T)
  | release (t : T) (ptr : ℕ)
  | count (t : T)
  | test (t : T) (now_ms : UInt64)
  | drop (t : T)
  | decrement (t : T)
  | push (t : T)
  | connected (ptr : ℕ) (v : Bool)

/-- A connection that `getConnection` does not hand out. -/
def invalid (s : HttpConnectionPool T) (now_ms : UInt64) (ptr : ℕ) : Prop :=
  ∀ conn ∈ s.heap[ptr]?,
    conn.connected = false ∨ conn.createTime+s.maxAliveTime.toUInt64 > now_ms

/-- A connection that `ReleasePtr` does not put back. -/
def worn (s : HttpConnectionPool T) (now_ms : UInt64) (ptr : ℕ) : Prop :=
  ∀ conn ∈ s.heap[ptr]?, conn.connected = false ∨
    conn.createTime+s.maxAliveTime.toUInt64 ≥ now_ms ∨ conn.request ≥ s.maxRequest.toUInt64

instance (s : HttpConnectionPool T) (now_ms : UInt64) (ptr : ℕ) : Decidable (s.invalid now_ms ptr) :=
  inferInstanceAs (Decidable (∀ conn ∈ _, _))

instance (s : HttpConnectionPool T) (now_ms : UInt64) (ptr : ℕ) : Decidable (s.worn now_ms ptr) :=
  inferInstanceAs (Decidable (∀ conn ∈ _, _))

variable [DecidableEq T]

def setPhase (s : HttpConnectionPool T) (t : T) (phase : PoolPhase) : HttpConnectionPool T :=
  { s with phase := Function.update s.phase t phase }

def step (s : HttpConnectionPool T) : Step T → Option (HttpConnectionPool T)
  | .lock t now_ms =>
    match s.phase t, s.mutex with
    | .idle, none => some { s.setPhase t (.popping now_ms [] none) with mutex := some t }
    | _, _ => none
  | .pop t =>
    match s.phase t, s.conns with
    | .popping now_ms invalid_conns none, conn :: conns =>
      some { s.setPhase t (if s.invalid now_ms conn
          then .popping now_ms (invalid_conns++[conn]) none
          else .popping now_ms invalid_conns (some conn)) with conns }
    | _, _ => none
  | .unlock t =>
    match s.phase t with
    | .popping _ invalid_conns ptr =>
      if ptr = none ∧ s.conns ≠ [] then none
      else some { s.setPhase t (.deleting invalid_conns invalid_conns.length ptr) with
        mutex := none }
    | _ => none
  | .delete t =>
    match s.phase t with
    | .deleting (conn :: invalid_conns) size ptr =>
      some { s.setPhase t (.deleting invalid_conns size ptr) with deleted := conn :: s.deleted }
    | _ => none
  | .subtract t =>
    match s.phase t with
    | .deleting [] size ptr =>
      some { s.setPhase t (match ptr with
          | some ptr => .returning ptr
          | none => .connecting) with
        total := s.total-BitVec.ofNat 32 size }
    | _ => none
  | .connect t error =>
    match s.phase t, error with
    | .connecting, some _ => some (s.setPhase t .idle)
    | .connecting, none => some { s.setPhase t (.created s.heap.length) with
        heap := s.heap++[⟨true,0,0⟩] }
    | _, _ => none
  | .increment t =>
    match s.phase t with
    | .created ptr => some { s.setPhase t (.returning ptr) with total := s.total+1 }
    | _ => none
  | .give t =>
    match s.phase t with
    | .returning ptr => some { s.setPhase t .idle with checkedOut := ptr :: s.checkedOut }
    | _ => none
  | .release t ptr =>
    match s.phase t with
    | .idle =>
      if ptr ∈ s.checkedOut then
        some { s.setPhase t (.releasing ptr) with checkedOut := s.checkedOut.erase ptr }
      else none
    | _ => none
  | .count t =>
    match s.phase t with
    | .releasing ptr => some { s.setPhase t (.counted ptr) with
        heap := s.heap.modify ptr fun conn => { conn with request := conn.request+1 } }
    | _ => none
  | .test t now_ms =>
    match s.phase t with
    | .counted ptr =>
      some (s.setPhase t (if s.worn now_ms ptr then .dropping ptr else .pushing ptr))
    | _ => none
  | .drop t =>
    match s.phase t with
    | .dropping ptr => some { s.setPhase t .decrementing with deleted := ptr :: s.deleted }
    | _ => none
  | .decrement t =>
    match s.phase t with
    | .decrementing => some { s.setPhase t .idle with total := s.total-1 }
    | _ => none
  | .push t =>
    match s.phase t, s.mutex with
    | .pushing ptr, none => some { s.setPhase t .idle with conns := s.conns++[ptr] }
    | _, _ => none
  | .connected ptr v =>
    some { s with heap := s.heap.modify ptr fun conn => { conn with connected := v } }

def machine (T : Type*) [DecidableEq T] (maxAliveTime maxRequest : UInt32) :
    Transition.Machine (HttpConnectionPool T) (Step T) where
  init s := s = initial maxAliveTime maxRequest
  step := step

/-- What the steps do. -/
inductive Moves (s : HttpConnectionPool T) : Step T → HttpConnectionPool T → Prop
  | lock {t now_ms} (hphase : s.phase t = .idle) (hmutex : s.mutex = none) :
      Moves s (.lock t now_ms)
      { s.setPhase t (.popping now_ms [] none) with mutex := some t }
  | reject {t now_ms invalid_conns conn conns}
      (hphase : s.phase t = .popping now_ms invalid_conns none) (hconns : s.conns = conn :: conns)
      (hinvalid : s.invalid now_ms conn) : Moves s (.pop t)
      { s.setPhase t (.popping now_ms (invalid_conns++[conn]) none) with conns }
  | take {t now_ms invalid_conns conn conns}
      (hphase : s.phase t = .popping now_ms invalid_conns none) (hconns : s.conns = conn :: conns)
      (hinvalid : ¬ s.invalid now_ms conn) : Moves s (.pop t)
      { s.setPhase t (.popping now_ms invalid_conns (some conn)) with conns }
  | unlock {t now_ms invalid_conns ptr} (hphase : s.phase t = .popping now_ms invalid_conns ptr)
      (hconns : ¬(ptr = none ∧ s.conns ≠ [])) : Moves s (.unlock t)
      { s.setPhase t (.deleting invalid_conns invalid_conns.length ptr) with mutex := none }
  | delete {t conn invalid_conns size ptr}
      (hphase : s.phase t = .deleting (conn :: invalid_conns) size ptr) : Moves s (.delete t)
      { s.setPhase t (.deleting invalid_conns size ptr) with deleted := conn :: s.deleted }
  | found {t size ptr} (hphase : s.phase t = .deleting [] size (some ptr)) :
      Moves s (.subtract t)
      { s.setPhase t (.returning ptr) with total := s.total-BitVec.ofNat 32 size }
  | missing {t size} (hphase : s.phase t = .deleting [] size none) : Moves s (.subtract t)
      { s.setPhase t .connecting with total := s.total-BitVec.ofNat 32 size }
  | refused {t error} (hphase : s.phase t = .connecting) : Moves s (.connect t (some error))
      (s.setPhase t .idle)
  | connect {t} (hphase : s.phase t = .connecting) : Moves s (.connect t none)
      { s.setPhase t (.created s.heap.length) with heap := s.heap++[⟨true,0,0⟩] }
  | increment {t ptr} (hphase : s.phase t = .created ptr) : Moves s (.increment t)
      { s.setPhase t (.returning ptr) with total := s.total+1 }
  | give {t ptr} (hphase : s.phase t = .returning ptr) : Moves s (.give t)
      { s.setPhase t .idle with checkedOut := ptr :: s.checkedOut }
  | release {t ptr} (hphase : s.phase t = .idle) (hmem : ptr ∈ s.checkedOut) :
      Moves s (.release t ptr)
      { s.setPhase t (.releasing ptr) with checkedOut := s.checkedOut.erase ptr }
  | count {t ptr} (hphase : s.phase t = .releasing ptr) : Moves s (.count t)
      { s.setPhase t (.counted ptr) with
        heap := s.heap.modify ptr fun conn => { conn with request := conn.request+1 } }
  | discard {t now_ms ptr} (hphase : s.phase t = .counted ptr) (hworn : s.worn now_ms ptr) :
      Moves s (.test t now_ms) (s.setPhase t (.dropping ptr))
  | keep {t now_ms ptr} (hphase : s.phase t = .counted ptr) (hworn : ¬ s.worn now_ms ptr) :
      Moves s (.test t now_ms) (s.setPhase t (.pushing ptr))
  | drop {t ptr} (hphase : s.phase t = .dropping ptr) : Moves s (.drop t)
      { s.setPhase t .decrementing with deleted := ptr :: s.deleted }
  | decrement {t} (hphase : s.phase t = .decrementing) : Moves s (.decrement t)
      { s.setPhase t .idle with total := s.total-1 }
  | push {t ptr} (hphase : s.phase t = .pushing ptr) (hmutex : s.mutex = none) :
      Moves s (.push t)
      { s.setPhase t .idle with conns := s.conns++[ptr] }
  | connected {ptr v} : Moves s (.connected ptr v)
      { s with heap := s.heap.modify ptr fun conn => { conn with connected := v } }

theorem step_moves {s s' : HttpConnectionPool T} {i : Step T} (hs : s.step i = some s') :
    Moves s i s' := by
  cases i with
  | lock t now_ms | push t =>
    simp only [step] at hs
    split at hs
    · next hphase hmutex =>
      cases hs
      first | exact .lock hphase hmutex | exact .push hphase hmutex
    · cases hs
  | pop t =>
    simp only [step] at hs
    split at hs
    · next now_ms _ conn _ hphase hconns =>
      cases hs
      by_cases hinvalid : s.invalid now_ms conn
      · rw [if_pos hinvalid]
        exact .reject hphase hconns hinvalid
      · rw [if_neg hinvalid]
        exact .take hphase hconns hinvalid
    · cases hs
  | unlock t =>
    simp only [step] at hs
    split at hs
    · next hphase =>
      split_ifs at hs with hconns
      cases hs
      exact .unlock hphase hconns
    · cases hs
  | subtract t =>
    simp only [step] at hs
    split at hs
    · next ptr hphase =>
      cases hs
      cases ptr with
      | none => exact .missing hphase
      | some ptr => exact .found hphase
    · cases hs
  | connect t error =>
    simp only [step] at hs
    split at hs
    · next hphase => cases hs; exact .refused hphase
    · next hphase => cases hs; exact .connect hphase
    · cases hs
  | release t ptr =>
    simp only [step] at hs
    split at hs
    · next hphase =>
      split_ifs at hs with hmem
      cases hs
      exact .release hphase hmem
    · cases hs
  | test t now_ms =>
    simp only [step] at hs
    split at hs
    · next ptr hphase =>
      cases hs
      by_cases hworn : s.worn now_ms ptr
      · rw [if_pos hworn]
        exact .discard hphase hworn
      · rw [if_neg hworn]
        exact .keep hphase hworn
    · cases hs
  | delete t | increment t | give t | count t | drop t | decrement t =>
    simp only [step] at hs
    split at hs
    · next hphase =>
      cases hs
      first
        | exact .delete hphase
        | exact .increment hphase
        | exact .give hphase
        | exact .count hphase
        | exact .drop hphase
        | exact .decrement hphase
    · cases hs
  | connected ptr v =>
    cases hs
    exact .connected

omit [DecidableEq T]

/-! ### Who owns a connection -/

/-- The list, the users of the pool, the deletions, and the threads in its functions. -/
inductive Place (T : Type*)
  | conns
  | out
  | gone
  | thread (t : T)
deriving DecidableEq

def place (s : HttpConnectionPool T) : Place T → List ℕ
  | .conns => s.conns
  | .out => s.checkedOut
  | .gone => s.deleted
  | .thread t => (s.phase t).owned

/-- Every connection has one owner, and `m_total` counts those that are not deleted, up to what
the threads still have to do. -/
structure Inv (s : HttpConnectionPool T) : Prop where
  exclusive : Transition.Exclusive s.place
  born : ∀ r, ∀ c ∈ s.place r, c < s.heap.length
  total : ∃ w, Transition.Weighs PoolPhase.weight s.phase w ∧
    s.total = BitVec.ofInt 32 (s.conns.length+s.checkedOut.length+w)

namespace Inv
variable {s s' : HttpConnectionPool T}

theorem initial (maxAliveTime maxRequest : UInt32) :
    Inv (HttpConnectionPool.initial maxAliveTime maxRequest : HttpConnectionPool T) := by
  have hnil : ∀ r, (HttpConnectionPool.initial maxAliveTime maxRequest).place (T := T) r = [] := by
    intro r
    cases r <;> rfl
  refine ⟨⟨fun r => ?_,fun {r} _ c hc => ?_⟩,fun r c hc => ?_,0,.zero fun _ => rfl,rfl⟩
  · rw [hnil]
    exact List.nodup_nil
  · rw [hnil] at hc
    cases hc
  · rw [hnil] at hc
    cases hc

/-- A change of what is known of the connections. -/
theorem heap (h : Inv s) (heap : List PooledConnection) (hheap : heap.length = s.heap.length) :
    Inv { s with heap } where
  exclusive := h.exclusive
  born r c hc := hheap ▸ h.born r c hc
  total := h.total

variable [DecidableEq T]

/-- Besides that of the thread `t`, a step changes at most the place `q`. -/
theorem place_eq {t : T} {phase : PoolPhase} {q r : Place T}
    (hphase : s'.phase = Function.update s.phase t phase)
    (hconns : q = .conns ∨ s'.conns = s.conns) (hout : q = .out ∨ s'.checkedOut = s.checkedOut)
    (hgone : q = .gone ∨ s'.deleted = s.deleted) (ht : r ≠ .thread t) (hq : r ≠ q) :
    s'.place r = s.place r := by
  cases r with
  | conns => exact hconns.resolve_left hq.symm
  | out => exact hout.resolve_left hq.symm
  | gone => exact hgone.resolve_left hq.symm
  | thread u => rw [place, place, hphase, Function.update_of_ne (mt (congrArg Place.thread) ht)]

/-- A step of the thread `t` to `phase` that adds `d` to `m_total`. -/
theorem next (h : Inv s) (t : T) (phase : PoolPhase) (d : ℤ)
    (hphase : s'.phase = Function.update s.phase t phase)
    (htotal : s'.total = s.total+BitVec.ofInt 32 d)
    (hweight : s'.conns.length+s'.checkedOut.length+phase.weight =
      s.conns.length+s.checkedOut.length+(s.phase t).weight+d)
    (hexclusive : Transition.Exclusive s'.place)
    (hborn : ∀ r, ∀ c ∈ s'.place r, c < s'.heap.length) : Inv s' where
  exclusive := hexclusive
  born := hborn
  total := by
    obtain ⟨w,hw,heq⟩ := h.total
    refine ⟨w-(s.phase t).weight+phase.weight,hphase ▸ hw.update t phase,?_⟩
    rw [htotal, heq, ← BitVec.ofInt_add]
    congr 1
    omega

/-- The connections stay where they are. -/
theorem stay (h : Inv s) (t : T) (phase : PoolPhase) (d : ℤ)
    (hphase : s'.phase = Function.update s.phase t phase)
    (htotal : s'.total = s.total+BitVec.ofInt 32 d)
    (hweight : phase.weight = (s.phase t).weight+d)
    (howned : phase.owned = (s.phase t).owned) (hconns : s'.conns = s.conns)
    (hout : s'.checkedOut = s.checkedOut) (hgone : s'.deleted = s.deleted)
    (hheap : s'.heap.length = s.heap.length) : Inv s' := by
  have hplace : s'.place = s.place := by
    funext r
    by_cases hr : r = .thread t
    · rw [hr, place, place, hphase, Function.update_self, howned]
    · exact place_eq hphase (.inr hconns) (.inr hout) (.inr hgone) hr hr
  apply h.next t phase d hphase htotal
  · rw [hconns, hout, hweight]
    omega
  · exact hplace ▸ h.exclusive
  · rw [hplace, hheap]
    exact h.born

/-- A connection moves from `p` to `q`, one of which is the thread `t`. -/
theorem move (h : Inv s) (t : T) (phase : PoolPhase) {p q : Place T} {c : ℕ}
    (hphase : s'.phase = Function.update s.phase t phase) (htotal : s'.total = s.total)
    (hweight : s'.conns.length+s'.checkedOut.length+phase.weight =
      s.conns.length+s.checkedOut.length+(s.phase t).weight)
    (hpq : p ≠ q) (hfrom : (s.place p).Perm (c :: s'.place p))
    (hto : (s'.place q).Perm (c :: s.place q))
    (hother : ∀ r, r ≠ p → r ≠ q → s'.place r = s.place r)
    (hheap : s'.heap = s.heap) : Inv s' := by
  have hexclusive := h.exclusive.move hpq hfrom hto fun r hp hq => .of_eq (hother r hp hq)
  apply h.next t phase 0 hphase (by rw [htotal]; simp) (by omega) hexclusive
  intro r d hd
  obtain ⟨r',hd'⟩ := Transition.Exclusive.exists_of_move hfrom hto
    (fun r hp hq => .of_eq (hother r hp hq)) hd
  exact hheap ▸ h.born r' d hd'

/-- `getConnection` has connected. -/
theorem created (h : Inv s) (t : T) (hwas : s.phase t = .connecting)
    (hphase : s'.phase = Function.update s.phase t (.created s.heap.length))
    (htotal : s'.total = s.total) (hconns : s'.conns = s.conns)
    (hout : s'.checkedOut = s.checkedOut) (hgone : s'.deleted = s.deleted)
    (hheap : s'.heap.length = s.heap.length+1) : Inv s' := by
  have hnew : ∀ r, s.heap.length ∉ s.place r := fun r hr => (h.born r _ hr).false
  have hplace : ∀ r, r ≠ .thread t → s'.place r = s.place r := fun r hr =>
    place_eq hphase (.inr hconns) (.inr hout) (.inr hgone) hr hr
  have hto : s'.place (.thread t) = s.heap.length :: s.place (.thread t) := by
    rw [place, place, hphase, Function.update_self, hwas]
    rfl
  apply h.next t (.created s.heap.length) 0 hphase (by rw [htotal]; simp)
  · rw [hwas, hconns, hout]
    rfl
  · exact h.exclusive.add hnew (.of_eq hto) fun r hr => .of_eq (hplace r hr)
  · intro r c hc
    rw [hheap]
    by_cases hr : r = .thread t
    · rw [hr, hto] at hc
      rcases List.mem_cons.mp hc with rfl | hc
      · exact Nat.lt_succ_self _
      · exact Nat.lt_succ_of_lt (h.born _ c hc)
    · rw [hplace r hr] at hc
      exact Nat.lt_succ_of_lt (h.born r c hc)

theorem sub_ofNat (total : BitVec 32) (n : ℕ) :
    total-BitVec.ofNat 32 n = total+BitVec.ofInt 32 (-n) := by
  rw [BitVec.ofInt_neg, BitVec.ofInt_natCast, ← BitVec.sub_eq_add_neg]

theorem step (h : Inv s) {i : Step T} (hs : s.step i = some s') : Inv s' := by
  cases step_moves hs with
  | @lock t now_ms hphase _ =>
    exact h.stay t (.popping now_ms [] none) 0 rfl (by simp [setPhase]) (by rw [hphase]; rfl)
      (by rw [hphase]; rfl) rfl rfl rfl rfl
  | @reject t now_ms invalid_conns conn conns hphase hconns _ =>
    refine h.move (p := .conns) (q := .thread t) (c := conn) t
      (.popping now_ms (invalid_conns++[conn]) none) rfl rfl ?_ nofun ?_ ?_
      (fun r hp hq => place_eq rfl (.inl rfl) (.inr rfl) (.inr rfl) hq hp) rfl
    · simp [hphase, hconns, setPhase, PoolPhase.weight]
      omega
    · rw [place, place, hconns]
    · simp [place, setPhase, PoolPhase.owned, hphase, List.perm_append_singleton]
  | @take t now_ms invalid_conns conn conns hphase hconns _ =>
    refine h.move (p := .conns) (q := .thread t) (c := conn) t
      (.popping now_ms invalid_conns (some conn)) rfl rfl ?_ nofun ?_ ?_
      (fun r hp hq => place_eq rfl (.inl rfl) (.inr rfl) (.inr rfl) hq hp) rfl
    · simp [hphase, hconns, setPhase, PoolPhase.weight]
      omega
    · rw [place, place, hconns]
    · simp [place, setPhase, PoolPhase.owned, hphase, List.perm_append_singleton]
  | @unlock t now_ms invalid_conns ptr hphase _ =>
    exact h.stay t (.deleting invalid_conns invalid_conns.length ptr) 0 rfl (by simp [setPhase])
      (by rw [hphase]; rfl) (by rw [hphase]; rfl) rfl rfl rfl rfl
  | @delete t conn invalid_conns size ptr hphase =>
    refine h.move (p := .thread t) (q := .gone) (c := conn) t
      (.deleting invalid_conns size ptr) rfl rfl ?_ nofun ?_ ?_
      (fun r hp hq => place_eq rfl (.inr rfl) (.inr rfl) (.inl rfl) hp hq) rfl
    · rw [hphase]
      rfl
    · simp [place, setPhase, PoolPhase.owned, hphase]
    · rfl
  | @found t size ptr hphase =>
    exact h.stay t (.returning ptr) (-size) rfl (sub_ofNat ..)
      (by rw [hphase]; simp [PoolPhase.weight]) (by rw [hphase]; rfl) rfl rfl rfl rfl
  | @missing t size hphase =>
    exact h.stay t .connecting (-size) rfl (sub_ofNat ..)
      (by rw [hphase]; simp [PoolPhase.weight]) (by rw [hphase]; rfl) rfl rfl rfl rfl
  | @refused t error hphase =>
    exact h.stay t .idle 0 rfl (by simp [setPhase]) (by rw [hphase]; rfl)
      (by rw [hphase]; rfl) rfl rfl rfl rfl
  | @connect t hphase =>
    exact h.created t hphase rfl rfl rfl rfl rfl (List.length_append ..)
  | @increment t ptr hphase =>
    exact h.stay t (.returning ptr) 1 rfl rfl (by rw [hphase]; rfl) (by rw [hphase]; rfl)
      rfl rfl rfl rfl
  | @give t ptr hphase =>
    refine h.move (p := .thread t) (q := .out) (c := ptr) t .idle rfl rfl ?_ nofun ?_ ?_
      (fun r hp hq => place_eq rfl (.inr rfl) (.inl rfl) (.inr rfl) hp hq) rfl
    · simp [hphase, setPhase, PoolPhase.weight]
      omega
    · simp [place, setPhase, PoolPhase.owned, hphase]
    · rfl
  | @release t ptr hphase hmem =>
    refine h.move (p := .out) (q := .thread t) (c := ptr) t (.releasing ptr) rfl rfl ?_ nofun
      (List.perm_cons_erase hmem) ?_
      (fun r hp hq => place_eq rfl (.inr rfl) (.inl rfl) (.inr rfl) hq hp) rfl
    · have hlength := List.length_erase_add_one hmem
      simp only [hphase, setPhase, PoolPhase.weight]
      omega
    · simp [place, setPhase, PoolPhase.owned, hphase]
  | @count t ptr hphase =>
    exact h.stay t (.counted ptr) 0 rfl (by simp [setPhase]) (by rw [hphase]; rfl)
      (by rw [hphase]; rfl) rfl rfl rfl (List.length_modify ..)
  | @discard t now_ms ptr hphase _ =>
    exact h.stay t (.dropping ptr) 0 rfl (by simp [setPhase]) (by rw [hphase]; rfl)
      (by rw [hphase]; rfl) rfl rfl rfl rfl
  | @keep t now_ms ptr hphase _ =>
    exact h.stay t (.pushing ptr) 0 rfl (by simp [setPhase]) (by rw [hphase]; rfl)
      (by rw [hphase]; rfl) rfl rfl rfl rfl
  | @drop t ptr hphase =>
    refine h.move (p := .thread t) (q := .gone) (c := ptr) t .decrementing rfl rfl ?_ nofun ?_ ?_
      (fun r hp hq => place_eq rfl (.inr rfl) (.inr rfl) (.inl rfl) hp hq) rfl
    · rw [hphase]
      rfl
    · simp [place, setPhase, PoolPhase.owned, hphase]
    · rfl
  | @decrement t hphase =>
    exact h.stay t .idle (-1) rfl (sub_ofNat _ 1) (by rw [hphase]; rfl) (by rw [hphase]; rfl)
      rfl rfl rfl rfl
  | @push t ptr hphase _ =>
    refine h.move (p := .thread t) (q := .conns) (c := ptr) t .idle rfl rfl ?_ nofun ?_ ?_
      (fun r hp hq => place_eq rfl (.inl rfl) (.inr rfl) (.inr rfl) hp hq) rfl
    · simp [hphase, setPhase, PoolPhase.weight]
      omega
    · simp [place, setPhase, PoolPhase.owned, hphase]
    · exact List.perm_append_singleton ..
  | connected => exact h.heap _ (List.length_modify ..)

end Inv

/-- When no thread is in a function of the pool, `m_total` is the number of connections on the
list and checked out. No connection is at two places, or deleted twice. -/
structure Accounted (s : HttpConnectionPool T) : Prop where
  total : (∀ t, s.phase t = .idle) → s.total = BitVec.ofNat 32 (s.conns.length+s.checkedOut.length)
  conns : s.conns.Nodup
  checkedOut : s.checkedOut.Nodup
  disjoint : ∀ c ∈ s.conns, c ∉ s.checkedOut
  deleted : s.deleted.Nodup
  alive : ∀ c ∈ s.deleted, c ∉ s.checkedOut ∧ c ∉ s.conns

variable [DecidableEq T] {maxAliveTime maxRequest : UInt32} {s : HttpConnectionPool T}

omit [DecidableEq T] in
/-- As long as `m_total` does not overflow it is the number itself. -/
theorem Accounted.toInt_total (h : Accounted s) (hidle : ∀ t, s.phase t = .idle)
    (hbound : s.conns.length+s.checkedOut.length < 2147483648) :
    s.total.toInt = s.conns.length+s.checkedOut.length := by
  have htoNat : s.total.toNat = s.conns.length+s.checkedOut.length := by
    rw [h.total hidle, BitVec.toNat_ofNat]
    omega
  rw [BitVec.toInt_eq_toNat_of_lt (by omega), htoNat, Nat.cast_add]

theorem accounted (h : (machine T maxAliveTime maxRequest).Reachable s) : Accounted s := by
  have hinv : Inv s := h.invariant (fun _ hi => hi ▸ .initial ..) fun _ _ _ hs _ => hs.step
  exact {
    total := by
      intro hidle
      obtain ⟨w,hw,htotal⟩ := hinv.total
      have hzero : w = 0 := hw.eq_zero fun t => by rw [hidle t]; rfl
      rw [htotal, hzero, add_zero, ← Nat.cast_add, BitVec.ofInt_natCast]
    conns := hinv.exclusive.nodup .conns
    checkedOut := hinv.exclusive.nodup .out
    disjoint := fun _ hc => hinv.exclusive.notMem (p := .conns) (q := .out) hc nofun
    deleted := hinv.exclusive.nodup .gone
    alive := fun _ hc => ⟨hinv.exclusive.notMem (p := .gone) (q := .out) hc nofun,
      hinv.exclusive.notMem (p := .gone) (q := .conns) hc nofun⟩ }

/-- Two threads connect; one connection is put back, the other one has failed. -/
theorem accounted_two : ∃ s : HttpConnectionPool (Fin 2), s.total = 1 ∧ s.conns = [0] ∧
    s.deleted = [1] ∧ Accounted s := by
  obtain ⟨s,hs,htotal,hconns,hdeleted⟩ := Transition.Machine.exists_reaches
    (M := machine (Fin 2) 30000 100) (G := fun _ _ => True) rfl
    [.lock 0 5,.unlock 0,.lock 1 6,.subtract 0,.connect 0 none,.unlock 1,.increment 0,.give 0,
      .subtract 1,.connect 1 none,.release 0 0,.count 0,.increment 1,.test 0 40000,.push 0,
      .give 1,.connected 1 false,.release 1 1,.count 1,.test 1 40000,.drop 1,.decrement 1]
    (fun s => s.total = 1 ∧ s.conns = [0] ∧ s.deleted = [1])
    (Transition.Machine.guarded_true ..) (by decide)
  exact ⟨s,htotal,hconns,hdeleted,accounted hs⟩

end HttpConnectionPool
end CoroutineWebserve.Client
