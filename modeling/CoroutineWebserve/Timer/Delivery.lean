import CoroutineWebserve.Containers.OrderedSet
import CoroutineWebserve.Transition.Machine
import Mathlib.Data.UInt

/-!
# Delivery of timers

A timer is alive as long as its `m_cb` is set, and then it is in the set of its manager, which is
ordered by the deadlines that the operations change. Each operation is a step, since it holds the
lock of the manager.
-/
namespace CoroutineWebserve

namespace TimerManager
variable {F : Type*}

/-- A timer and the address at which it lies. -/
structure Timer (F : Type*) where
  addr : ℕ
  recurring : Bool
  ms : UInt64
  next : UInt64
  cb : Option F
deriving DecidableEq

/-- What callers see of the operations. -/
inductive Event (F : Type*)
  | add (x : ℕ) (cb : F)
  | cancel (x : ℕ) (result : Bool)
  | deliver (x : ℕ) (cb : Option F)
deriving DecidableEq

namespace Event

def delivers (x : ℕ) : Event F → Bool
  | deliver y _ => y == x
  | _ => false

def cancels (x : ℕ) : Event F → Bool
  | cancel y _ => y == x
  | _ => false

theorem delivers_iff {e : Event F} {x : ℕ} : e.delivers x ↔ ∃ cb, e = .deliver x cb := by
  cases e <;> simp [delivers]

theorem cancels_iff {e : Event F} {x : ℕ} : e.cancels x ↔ ∃ result, e = .cancel x result := by
  cases e <;> simp [cancels]

theorem eq_of_cancel {x y : ℕ} {result : Bool}
    (h : (cancel x result : Event F).cancels y ∨ (cancel x result : Event F).delivers y) :
    y = x :=
  h.elim (fun hy => (beq_iff_eq.mp hy).symm) nofun

theorem eq_of_deliver {x y : ℕ} {cb : Option F}
    (h : (deliver x cb).cancels y ∨ (deliver x cb).delivers y) : y = x :=
  h.elim nofun fun hy => (beq_iff_eq.mp hy).symm

end Event

/-- `Timer::Comparator`. -/
def Comparator : Option (Timer F) → Option (Timer F) → Prop
  | none, none => False
  | none, some _ => True
  | some _, none => False
  | some lhs, some rhs => lhs.next < rhs.next ∨ ¬rhs.next < lhs.next ∧ lhs.addr < rhs.addr

instance : ∀ lhs rhs : Option (Timer F), Decidable (Comparator lhs rhs)
  | none, none => isFalse id
  | none, some _ => isTrue trivial
  | some _, none => isFalse id
  | some _, some _ => inferInstanceAs (Decidable (_ ∨ _ ∧ _))

end TimerManager

/-- Timers are numbered in the order of their creation; the history has the last event first. -/
structure TimerManager (F : Type*) where
  timers : List ℕ
  tickled : Bool
  previouseTime : UInt64
  heap : List (TimerManager.Timer F)
  history : List (TimerManager.Event F)

namespace TimerManager
variable {F : Type*}

def initial (now : UInt64) : TimerManager F := ⟨[],false,now,[],[]⟩

def Before (m : TimerManager F) (x y : ℕ) : Prop := Comparator m.heap[x]? m.heap[y]?

instance (m : TimerManager F) : DecidableRel m.Before :=
  fun _ _ => inferInstanceAs (Decidable (Comparator _ _))

def setTimer (m : TimerManager F) (x : ℕ) (timer : Timer F) : TimerManager F :=
  { m with heap := m.heap.set x timer }

def insert (m : TimerManager F) (x : ℕ) : TimerManager F :=
  { m with timers := OrderedSet.insert m.Before x m.timers }

def erase (m : TimerManager F) (x : ℕ) : TimerManager F :=
  { m with timers := m.timers.erase x }

def record (m : TimerManager F) (e : Event F) : TimerManager F :=
  { m with history := e :: m.history }

/-- The overload of `addTimer` that releases the lock; what it calls after that is not part of
this model. -/
def addLocked (m : TimerManager F) (x : ℕ) : TimerManager F :=
  let m := m.insert x
  let at_front := m.timers.head? = OrderedSet.find m.Before x m.timers ∧ m.tickled = false
  if at_front then { m with tickled := true } else m

def addTimer (m : TimerManager F) (ms : UInt64) (cb : F) (recurring : Bool) (now : UInt64)
    (addr : ℕ) : TimerManager F :=
  let timer := ⟨addr,recurring,ms,now+ms,some cb⟩
  let m' := { m with heap := m.heap++[timer], history := .add m.heap.length cb :: m.history }
  m'.addLocked m.heap.length

/-- `Timer::cancel`; `none` where it would erase the end of the set. -/
def cancel (m : TimerManager F) (x : ℕ) : Option (Bool × TimerManager F) :=
  match m.heap[x]? with
  | none => none
  | some timer =>
    if timer.cb.isSome then
      let m := m.setTimer x { timer with cb := none }
      (OrderedSet.find m.Before x m.timers).map fun it => (true,m.erase it)
    else some (false,m)

/-- `Timer::refresh`. -/
def refresh (m : TimerManager F) (x : ℕ) (now : UInt64) : Option (Bool × TimerManager F) :=
  match m.heap[x]? with
  | none => none
  | some timer =>
    if timer.cb.isNone then some (false,m) else
    match OrderedSet.find m.Before x m.timers with
    | none => some (false,m)
    | some it =>
      some (true,((m.erase it).setTimer x { timer with next := now+timer.ms }).insert x)

/-- `Timer::reset`. -/
def reset (m : TimerManager F) (x : ℕ) (ms : UInt64) (from_now : Bool) (now : UInt64) :
    Option (Bool × TimerManager F) :=
  match m.heap[x]? with
  | none => none
  | some timer =>
    if ms = timer.ms ∧ from_now = false then some (true,m) else
    if timer.cb.isNone then some (false,m) else
    match OrderedSet.find m.Before x m.timers with
    | none => some (false,m)
    | some it =>
      let start := if from_now then now else timer.next-timer.ms
      some (true,((m.erase it).setTimer x { timer with ms, next := start+ms }).addLocked x)

/-- `detectClockRollover`, but for the time that it stores. -/
def Rollover (m : TimerManager F) (now_ms : UInt64) : Prop :=
  now_ms < m.previouseTime ∧ now_ms < m.previouseTime-60*60*1000

instance (m : TimerManager F) (now_ms : UInt64) : Decidable (m.Rollover now_ms) :=
  inferInstanceAs (Decidable (_ ∧ _))

/-- Whether `lower_bound` passes a timer; the bound is a new timer at the address `addr`. -/
def below (m : TimerManager F) (now_ms : UInt64) (addr x : ℕ) : Bool :=
  decide (Comparator m.heap[x]? (some ⟨addr,false,0,now_ms,none⟩))

def dueNow (m : TimerManager F) (now_ms : UInt64) (x : ℕ) : Bool :=
  m.heap[x]?.any fun timer => timer.next == now_ms

/-- The timers that `listExpiredCb` takes. -/
def expired (m : TimerManager F) (now_ms : UInt64) (addr : ℕ) : List ℕ :=
  if m.Rollover now_ms then m.timers else
  m.timers.takeWhile (m.below now_ms addr)++
    (m.timers.dropWhile (m.below now_ms addr)).takeWhile (m.dueNow now_ms)

/-- The body of the loop over the expired timers. -/
def deliver (now_ms : UInt64) (m : TimerManager F) (x : ℕ) : TimerManager F :=
  match m.heap[x]? with
  | none => m
  | some timer =>
    let m := m.record (.deliver x timer.cb)
    if timer.recurring then (m.setTimer x { timer with next := now_ms+timer.ms }).insert x
    else m.setTimer x { timer with cb := none }

def listExpiredCb (m : TimerManager F) (now_ms : UInt64) (addr : ℕ) : TimerManager F :=
  match m.timers with
  | [] => m
  | first :: _ =>
    if ¬m.Rollover now_ms ∧ ∃ timer ∈ m.heap[first]?, timer.next > now_ms then
      { m with previouseTime := now_ms }
    else
      let expired := m.expired now_ms addr
      expired.foldl (deliver now_ms)
        { m with timers := m.timers.drop expired.length, previouseTime := now_ms }

/-- The operations, with what the clock reads. A new timer lies at the address of no timer in the
set. -/
inductive Step (F : Type*)
  | addTimer (ms : UInt64) (cb : F) (recurring : Bool) (now : UInt64) (addr : ℕ)
  | cancel (x : ℕ)
  | refresh (x : ℕ) (now : UInt64)
  | reset (x : ℕ) (ms : UInt64) (from_now : Bool) (now : UInt64)
  | listExpiredCb (now_ms : UInt64) (addr : ℕ)
  | getNextTimer

def addr? (m : TimerManager F) (x : ℕ) : Option ℕ := m.heap[x]?.map Timer.addr

def step (m : TimerManager F) : Step F → Option (TimerManager F)
  | .addTimer ms cb recurring now addr =>
    if ∀ y ∈ m.timers, m.addr? y ≠ some addr then some (m.addTimer ms cb recurring now addr)
    else none
  | .cancel x => (m.cancel x).map fun r => r.2.record (.cancel x r.1)
  | .refresh x now => (m.refresh x now).map Prod.snd
  | .reset x ms from_now now => (m.reset x ms from_now now).map Prod.snd
  | .listExpiredCb now_ms addr => some (m.listExpiredCb now_ms addr)
  | .getNextTimer => some { m with tickled := false }

def machine (F : Type*) : Transition.Machine (TimerManager F) (Step F) where
  init m := ∃ now, m = initial now
  step := step

/-! ### The set -/

variable {m m' : TimerManager F} {x y : ℕ} {timer timer' : Timer F}

theorem Comparator.irrefl (t : Option (Timer F)) : ¬Comparator t t := by
  cases t <;> simp [Comparator]

theorem Comparator.trans {t u v : Option (Timer F)} (htu : Comparator t u)
    (huv : Comparator u v) : Comparator t v := by
  cases t <;> cases u <;> cases v <;> simp only [Comparator] at *
  grind

instance (m : TimerManager F) : IsStrictOrder ℕ m.Before where
  irrefl _ := Comparator.irrefl _
  trans _ _ _ := Comparator.trans

/-- Timers at different addresses are not taken for each other. -/
theorem before_or (hx : m.heap[x]? = some timer) (hy : m.heap[y]? = some timer')
    (haddr : timer.addr ≠ timer'.addr) : m.Before x y ∨ m.Before y x := by
  unfold Before
  rw [hx, hy]
  simp only [Comparator]
  grind

theorem expired_isPrefix (m : TimerManager F) (now_ms : UInt64) (addr : ℕ) :
    m.expired now_ms addr <+: m.timers := by
  unfold expired
  split_ifs
  · exact List.prefix_refl _
  · nth_rewrite 3 [← List.takeWhile_append_dropWhile (p := m.below now_ms addr) (l := m.timers)]
    exact List.prefix_append_right_inj _ |>.mpr (List.takeWhile_prefix _)

/-- The set is in order, its timers lie at different addresses, as do those that an operation has
taken out, and these are the timers that are alive. -/
structure Ordered (m : TimerManager F) (taken : List ℕ) : Prop where
  sorted : m.timers.Pairwise m.Before
  addr : ((m.timers++taken).map m.addr?).Nodup
  alive : ∀ x, x ∈ m.timers++taken ↔ ∃ timer, m.heap[x]? = some timer ∧ timer.cb.isSome

theorem getElem?_setTimer (hx : m.heap[x]? = some timer) (y : ℕ) :
    (m.setTimer x timer').heap[y]? = if x = y then some timer' else m.heap[y]? := by
  rw [setTimer, List.getElem?_set]
  have hlt := (List.getElem?_eq_some_iff.mp hx).1
  split_ifs with hxy
  · rfl
  · rfl

theorem heap_setTimer_self (hx : m.heap[x]? = some timer) :
    (m.setTimer x timer).heap = m.heap := by
  apply List.ext_getElem?
  intro y
  rw [getElem?_setTimer hx]
  split_ifs with hxy
  · rw [← hxy, hx]
  · rfl

theorem addr?_setTimer (hx : m.heap[x]? = some timer) (haddr : timer'.addr = timer.addr) :
    (m.setTimer x timer').addr? = m.addr? := by
  funext y
  rw [addr?, addr?, getElem?_setTimer hx]
  split_ifs with hxy
  · rw [← hxy, hx, Option.map_some, Option.map_some, haddr]
  · rfl

/-- The comparison reads the deadlines and the addresses. -/
theorem before_setTimer (timer' : Timer F) (hx : m.heap[x]? = some timer) (hnext : timer'.next = timer.next)
    (haddr : timer'.addr = timer.addr) : (m.setTimer x timer').Before = m.Before := by
  have hleft : ∀ rhs, Comparator (some timer') rhs = Comparator (some timer) rhs := by
    intro rhs
    cases rhs <;> simp only [Comparator, hnext, haddr]
  have hright : ∀ lhs, Comparator lhs (some timer') = Comparator lhs (some timer) := by
    intro lhs
    cases lhs <;> simp only [Comparator, hnext, haddr]
  funext y z
  rw [Before, Before, getElem?_setTimer hx, getElem?_setTimer hx]
  split_ifs with hy hz hz
  · rw [hleft, hright, ← hy, ← hz, hx]
  · rw [hleft, ← hy, hx]
  · rw [hright, ← hz, hx]
  · rfl

/-- A change of a timer that is not in the set leaves the order as it is. -/
theorem sorted_setTimer (hsorted : m.timers.Pairwise m.Before) (hx : x ∉ m.timers) :
    m.timers.Pairwise (m.setTimer x timer).Before := by
  refine hsorted.imp_of_mem fun {y z} hy hz hyz => ?_
  have hne : ∀ w ∈ m.timers, x ≠ w := fun w hw hxw => hx (hxw ▸ hw)
  rwa [Before, setTimer, List.getElem?_set_ne (hne y hy), List.getElem?_set_ne (hne z hz)]

/-- The set is in order, and its timers lie at different addresses, as do those that an operation
has taken out. -/
structure Lined (m : TimerManager F) (taken : List ℕ) : Prop where
  sorted : m.timers.Pairwise m.Before
  addr : ((m.timers++taken).map m.addr?).Nodup
  known : ∀ x ∈ m.timers++taken, ∃ timer, m.heap[x]? = some timer

theorem Ordered.lined {taken : List ℕ} (h : Ordered m taken) : Lined m taken where
  sorted := h.sorted
  addr := h.addr
  known x hx := ((h.alive x).mp hx).imp fun _ => And.left

namespace Lined
variable {taken : List ℕ}

theorem nodup (h : Lined m taken) : (m.timers++taken).Nodup := h.addr.of_map

theorem notMem (h : Lined m (x :: taken)) : x ∉ m.timers := fun hx =>
  (List.nodup_append'.mp h.nodup).2.2 hx List.mem_cons_self

/-- A timer changes when it is out of the set. -/
theorem setTimer (h : Lined m (x :: taken)) (timer' : Timer F) (hx : m.heap[x]? = some timer)
    (haddr : timer'.addr = timer.addr) : Lined (m.setTimer x timer') (x :: taken) where
  sorted := sorted_setTimer h.sorted h.notMem
  addr := by
    rw [addr?_setTimer hx haddr]
    exact h.addr
  known y hy := by
    rw [getElem?_setTimer hx]
    split_ifs
    · exact ⟨timer',rfl⟩
    · exact h.known y hy

/-- A timer that does not come back into the set. -/
theorem tail (h : Lined m (x :: taken)) : Lined m taken where
  sorted := h.sorted
  addr := h.addr.sublist (((List.sublist_cons_self x taken).append_left m.timers).map m.addr?)
  known y hy := h.known y (((List.sublist_cons_self x taken).append_left m.timers).subset hy)

theorem insert_perm (h : Lined m (x :: taken)) : (m.insert x).timers.Perm (x :: m.timers) := by
  refine OrderedSet.insert_perm fun y hy => ?_
  obtain ⟨t,ht⟩ := h.known y (List.mem_append_left _ hy)
  obtain ⟨u,hu⟩ := h.known x (List.mem_append_right _ List.mem_cons_self)
  refine before_or ht hu fun haddr => ?_
  have hdisjoint := (List.nodup_append'.mp (List.map_append ▸ h.addr)).2.2
  refine hdisjoint (List.mem_map_of_mem hy) (List.mem_map.mpr ⟨x,List.mem_cons_self,?_⟩)
  rw [addr?, addr?, ht, hu, Option.map_some, Option.map_some, haddr]

theorem insert (h : Lined m (x :: taken)) : Lined (m.insert x) taken := by
  have hperm : ((m.insert x).timers++taken).Perm (m.timers++x :: taken) :=
    (h.insert_perm.append_right taken).trans List.perm_middle.symm
  exact {
    sorted := OrderedSet.pairwise_insert h.sorted
    addr := (hperm.map _).nodup_iff.mpr h.addr
    known := fun y hy => h.known y (hperm.mem_iff.mp hy) }

theorem take_perm (m : TimerManager F) (now_ms : UInt64) (addr : ℕ) :
    (m.timers.drop (m.expired now_ms addr).length++m.expired now_ms addr).Perm (m.timers++[]) := by
  rw [List.append_nil]
  exact List.perm_append_comm.trans
    (.of_eq (List.prefix_iff_eq_append.mp (expired_isPrefix m now_ms addr)))

/-- `listExpiredCb` takes timers from the front of the set. -/
theorem take (h : Lined m []) (now_ms : UInt64) (addr : ℕ) (previouseTime : UInt64) :
    Lined { m with
      timers := m.timers.drop (m.expired now_ms addr).length, previouseTime }
      (m.expired now_ms addr) where
  sorted := h.sorted.sublist (List.drop_sublist _ m.timers)
  addr := ((take_perm m now_ms addr).map _).nodup_iff.mpr h.addr
  known y hy := h.known y ((take_perm m now_ms addr).mem_iff.mp hy)

end Lined

namespace Ordered
variable {taken : List ℕ}

theorem nodup (h : Ordered m taken) : (m.timers++taken).Nodup := h.lined.nodup

theorem find (h : Ordered m taken) (hx : x ∈ m.timers) :
    OrderedSet.find m.Before x m.timers = some x :=
  OrderedSet.find_of_mem h.sorted hx

/-- `cancel` has changed the timer before it looks for it. -/
theorem find_setTimer (h : Ordered m taken) (timer' : Timer F) (hx : m.heap[x]? = some timer)
    (hnext : timer'.next = timer.next) (haddr : timer'.addr = timer.addr) (hmem : x ∈ m.timers) :
    OrderedSet.find (m.setTimer x timer').Before x m.timers = some x := by
  have hsorted : m.timers.Pairwise (m.setTimer x timer').Before := by
    rw [before_setTimer timer' hx hnext haddr]
    exact h.sorted
  exact OrderedSet.find_of_mem hsorted hmem

theorem erase (h : Ordered m taken) (hx : x ∈ m.timers) :
    Ordered (m.erase x) (x :: taken) := by
  have hperm : ((m.erase x).timers++x :: taken).Perm (m.timers++taken) :=
    List.perm_middle.trans ((List.perm_cons_erase hx).symm.append_right taken)
  exact {
    sorted := h.sorted.sublist List.erase_sublist
    addr := (hperm.map _).nodup_iff.mpr h.addr
    alive := fun y => hperm.mem_iff.trans (h.alive y) }

/-- The deadline of a timer changes when it is out of the set. -/
theorem setTimer (h : Ordered m (x :: taken)) (timer' : Timer F) (hx : m.heap[x]? = some timer)
    (haddr : timer'.addr = timer.addr) (hcb : timer'.cb = timer.cb) :
    Ordered (m.setTimer x timer') (x :: taken) where
  sorted := (h.lined.setTimer timer' hx haddr).sorted
  addr := (h.lined.setTimer timer' hx haddr).addr
  alive y := by
    rw [getElem?_setTimer hx]
    refine (h.alive y).trans ?_
    split_ifs with hxy
    · simp [← hxy, hx, hcb]
    · rfl

/-- A timer that is out of the set dies. -/
theorem disarm (h : Ordered m (x :: taken)) (timer' : Timer F) (hx : m.heap[x]? = some timer)
    (haddr : timer'.addr = timer.addr) (hcb : timer'.cb = none) :
    Ordered (m.setTimer x timer') taken where
  sorted := (h.lined.setTimer timer' hx haddr).sorted
  addr := (h.lined.setTimer timer' hx haddr).tail.addr
  alive y := by
    have hperm : (m.timers++x :: taken).Perm (x :: (m.timers++taken)) := List.perm_middle
    rw [getElem?_setTimer hx]
    split_ifs with hxy
    · have hx := (List.nodup_cons.mp (hperm.nodup_iff.mp h.nodup)).1
      refine ⟨fun hy => absurd (hxy ▸ hy) hx,?_⟩
      rintro ⟨_,⟨⟩,hsome⟩
      rw [hcb] at hsome
      cases hsome
    · rw [← h.alive y, hperm.mem_iff, List.mem_cons]
      exact (or_iff_right (Ne.symm hxy)).symm

theorem record (h : Ordered m taken) (e : Event F) : Ordered (m.record e) taken :=
  ⟨h.sorted,h.addr,h.alive⟩

theorem insert (h : Ordered m (x :: taken)) : Ordered (m.insert x) taken where
  sorted := h.lined.insert.sorted
  addr := h.lined.insert.addr
  alive y := by
    have hperm : ((m.insert x).timers++taken).Perm (m.timers++x :: taken) :=
      (h.lined.insert_perm.append_right taken).trans List.perm_middle.symm
    exact hperm.mem_iff.trans (h.alive y)

theorem addLocked (h : Ordered m (x :: taken)) : Ordered (m.addLocked x) taken := by
  have hinsert := h.insert
  unfold TimerManager.addLocked
  dsimp only
  split_ifs
  · exact ⟨hinsert.sorted,hinsert.addr,hinsert.alive⟩
  · exact hinsert

/-- A new timer, which is not in the set yet. -/
theorem add (h : Ordered m []) (timer : Timer F) (hcb : timer.cb.isSome)
    (haddr : ∀ y ∈ m.timers, m.addr? y ≠ some timer.addr) (history : List (Event F)) :
    Ordered { m with heap := m.heap++[timer], history } [m.heap.length] := by
  have hlt : ∀ y ∈ m.timers, y < m.heap.length := by
    intro y hy
    obtain ⟨t,ht,-⟩ := (h.alive y).mp (List.mem_append_left _ hy)
    exact (List.getElem?_eq_some_iff.mp ht).1
  have hold : ∀ y ∈ m.timers, (m.heap++[timer])[y]? = m.heap[y]? := fun y hy =>
    List.getElem?_append_left (hlt y hy)
  have hnew : (m.heap++[timer])[m.heap.length]? = some timer := List.getElem?_concat_length
  constructor
  · refine h.sorted.imp_of_mem fun {y z} hy hz hyz => ?_
    change Comparator (m.heap++[timer])[y]? (m.heap++[timer])[z]?
    rwa [hold y hy, hold z hz]
  · rw [List.map_append, List.map_singleton]
    refine List.nodup_append'.mpr ⟨?_,List.nodup_singleton _,?_⟩
    · have heq : m.timers.map (fun y => (m.heap++[timer])[y]?.map Timer.addr) =
          m.timers.map m.addr? := List.map_congr_left fun y hy => by rw [hold y hy, addr?]
      have hnodup := h.addr
      rw [List.append_nil, ← heq] at hnodup
      exact hnodup
    · intro a ha hb
      obtain ⟨y,hy,rfl⟩ := List.mem_map.mp ha
      have heq : (m.heap++[timer])[y]?.map Timer.addr =
          (m.heap++[timer])[m.heap.length]?.map Timer.addr := List.mem_singleton.mp hb
      rw [hold y hy, hnew] at heq
      exact haddr y hy heq
  · intro y
    have hy := h.alive y
    rw [List.append_nil] at hy
    change y ∈ m.timers++[m.heap.length] ↔ ∃ t, (m.heap++[timer])[y]? = some t ∧ t.cb.isSome
    rw [List.mem_append, List.mem_singleton, List.getElem?_append]
    split_ifs with hlength
    · rw [← hy]
      exact or_iff_left hlength.ne
    · rcases Nat.eq_or_lt_of_le (not_lt.mp hlength) with rfl | hgt
      · simp [hcb]
      · rw [List.getElem?_eq_none (by simp; omega)]
        have hmem : y ∉ m.timers := fun hmem => absurd (hlt y hmem) hlength
        simp [hmem, hgt.ne']

/-- `listExpiredCb` takes timers from the front of the set. -/
theorem take (h : Ordered m []) (now_ms : UInt64) (addr : ℕ) (previouseTime : UInt64) :
    Ordered { m with
      timers := m.timers.drop (m.expired now_ms addr).length, previouseTime }
      (m.expired now_ms addr) where
  sorted := (h.lined.take now_ms addr previouseTime).sorted
  addr := (h.lined.take now_ms addr previouseTime).addr
  alive y := (Lined.take_perm m now_ms addr).mem_iff.trans (h.alive y)

end Ordered

/-! ### The history -/

/-- Nobody has cancelled the timer, and unless it recurs it has not been delivered. -/
def Live (m : TimerManager F) (x : ℕ) (recurring : Bool) : Prop :=
  (∀ e ∈ m.history, e.cancels x = false) ∧
    (recurring = false → ∀ e ∈ m.history, e.delivers x = false)

theorem live_record {e : Event F} {recurring : Bool} : (m.record e).Live x recurring ↔
    (e.cancels x = false ∧ (recurring = false → e.delivers x = false)) ∧ m.Live x recurring := by
  simp only [Live, record, List.forall_mem_cons]
  tauto

/-- The callbacks that are set are those of the timers that the history leaves alive. -/
structure Told (m : TimerManager F) : Prop where
  alive : ∀ x timer, m.heap[x]? = some timer → (timer.cb.isSome ↔ m.Live x timer.recurring)
  cb : ∀ x timer, m.heap[x]? = some timer → ∀ f ∈ timer.cb, .add x f ∈ m.history
  known : ∀ e ∈ m.history, ∀ x, e.cancels x ∨ e.delivers x → x < m.heap.length
  once : ∀ x timer, m.heap[x]? = some timer → timer.recurring = false →
    m.history.countP (·.delivers x) ≤ 1
  never : m.history.Pairwise fun later earlier =>
    ∀ x, earlier = .cancel x true → later.delivers x = false
  own : ∀ x cb, .deliver x cb ∈ m.history → ∃ f, cb = some f ∧ .add x f ∈ m.history

namespace Told

theorem of_eq (h : Told m) (hheap : m'.heap = m.heap) (hhistory : m'.history = m.history) :
    Told m' := by
  cases m
  cases m'
  cases hheap
  cases hhistory
  exact ⟨h.alive,h.cb,h.known,h.once,h.never,h.own⟩

theorem setTimer (h : Told m) (timer' : Timer F) (hx : m.heap[x]? = some timer)
    (hrecurring : timer'.recurring = timer.recurring) (hcb : timer'.cb = timer.cb) :
    Told (m.setTimer x timer') := by
  have hcell : ∀ (y : ℕ) (t' : Timer F), (m.setTimer x timer').heap[y]? = some t' →
      ∃ t : Timer F, m.heap[y]? = some t ∧ t'.recurring = t.recurring ∧ t'.cb = t.cb := by
    intro y t' ht'
    rw [getElem?_setTimer hx] at ht'
    split_ifs at ht' with hxy
    · cases ht'
      exact ⟨timer,hxy ▸ hx,hrecurring,hcb⟩
    · exact ⟨t',ht',rfl,rfl⟩
  constructor
  · intro y t' ht'
    obtain ⟨t,ht,hr,hc⟩ := hcell y t' ht'
    rw [hr, hc]
    exact h.alive y t ht
  · intro y t' ht' f hf
    obtain ⟨t,ht,-,hc⟩ := hcell y t' ht'
    exact h.cb y t ht f (hc ▸ hf)
  · intro e he y hy
    exact (h.known e he y hy).trans_eq (List.length_set ..).symm
  · intro y t' ht' hr'
    obtain ⟨t,ht,hr,-⟩ := hcell y t' ht'
    exact h.once y t ht (hr ▸ hr')
  · exact h.never
  · exact h.own

/-- An event of the timer `x`, which delivers only what is set. -/
theorem next (h : Told m) (e : Event F) (timer' : Timer F) (hx : m.heap[x]? = some timer)
    (hrecurring : timer'.recurring = timer.recurring)
    (hcb : ∀ f ∈ timer'.cb, f ∈ timer.cb) (hother : ∀ y, e.cancels y ∨ e.delivers y → y = x)
    (halive : timer'.cb.isSome ↔ (e.cancels x = false ∧
      (timer.recurring = false → e.delivers x = false)) ∧ timer.cb.isSome)
    (hdeliver : ∀ y cb, e = .deliver y cb → ∃ f, timer.cb = some f ∧ cb = some f) :
    Told ((m.record e).setTimer x timer') := by
  have hx' : (m.record e).heap[x]? = some timer := hx
  have hlive := h.alive x timer hx
  have hdelivers : ∀ y, e.delivers y → m.Live x timer.recurring := by
    intro y hy
    obtain ⟨cb,rfl⟩ := Event.delivers_iff.mp hy
    obtain ⟨f,hf,-⟩ := hdeliver y cb rfl
    exact hlive.mp (hf ▸ rfl)
  have hsilent : ∀ y, x ≠ y → e.cancels y = false ∧ e.delivers y = false := by
    intro y hxy
    constructor
    · exact Bool.eq_false_iff.mpr fun hy => hxy (hother y (.inl hy)).symm
    · exact Bool.eq_false_iff.mpr fun hy => hxy (hother y (.inr hy)).symm
  constructor
  · intro y t' ht'
    change _ ↔ (m.record e).Live y _
    rw [getElem?_setTimer hx'] at ht'
    rw [live_record]
    split_ifs at ht' with hxy
    · cases ht'
      subst hxy
      rw [halive, hrecurring, hlive]
    · rw [and_iff_right ⟨(hsilent y hxy).1,fun _ => (hsilent y hxy).2⟩]
      exact h.alive y t' ht'
  · intro y t' ht' f hf
    rw [getElem?_setTimer hx'] at ht'
    apply List.mem_cons_of_mem
    split_ifs at ht' with hxy
    · cases ht'
      exact hxy ▸ h.cb x timer hx f (hcb f hf)
    · exact h.cb y t' ht' f hf
  · intro e' he' y hy
    refine Nat.lt_of_lt_of_eq ?_ (List.length_set ..).symm
    rcases List.mem_cons.mp he' with rfl | he'
    · rw [hother y hy]
      exact (List.getElem?_eq_some_iff.mp hx).1
    · exact h.known e' he' y hy
  · intro y t' ht' hr
    rw [getElem?_setTimer hx'] at ht'
    change (e :: m.history).countP _ ≤ 1
    rw [List.countP_cons]
    split_ifs at ht' with hxy
    · cases ht'
      subst hxy
      rw [hrecurring] at hr
      by_cases he : e.delivers x
      · have hnone := (hdelivers x he).2 hr
        have hzero : m.history.countP (·.delivers x) = 0 :=
          List.countP_eq_zero.mpr fun e' he' => by rw [hnone e' he']; exact Bool.false_ne_true
        rw [hzero, if_pos he]
      · rw [if_neg he]
        exact h.once x timer hx hr
    · rw [(hsilent y hxy).2]
      exact h.once y t' ht' hr
  · refine List.pairwise_cons.mpr ⟨fun e' he' y hcancel => ?_,h.never⟩
    refine Bool.eq_false_iff.mpr fun hy => ?_
    obtain rfl := hother y (.inr hy)
    have hnone := (hdelivers y hy).1 e' he'
    rw [hcancel] at hnone
    exact absurd (Event.cancels_iff.mpr ⟨true,rfl⟩) (hnone ▸ Bool.false_ne_true)
  · intro y cb hy
    rcases List.mem_cons.mp hy with rfl | hy
    · obtain ⟨f,hf,rfl⟩ := hdeliver y cb rfl
      obtain rfl := hother y (.inr (Event.delivers_iff.mpr ⟨_,rfl⟩))
      exact ⟨f,rfl,List.mem_cons_of_mem _ (h.cb y timer hx f hf)⟩
    · obtain ⟨f,hf,hadd⟩ := h.own y cb hy
      exact ⟨f,hf,List.mem_cons_of_mem _ hadd⟩

/-- A new timer. -/
theorem add (h : Told m) (timer : Timer F) (cb : F) (hcb : timer.cb = some cb) :
    Told { m with
      heap := m.heap++[timer], history := .add m.heap.length cb :: m.history } := by
  have hcell : ∀ (y : ℕ) (t' : Timer F), (m.heap++[timer])[y]? = some t' →
      m.heap[y]? = some t' ∨ y = m.heap.length ∧ t' = timer := by
    intro y t' ht'
    rw [List.getElem?_append] at ht'
    split_ifs at ht' with hy
    · exact .inl ht'
    · obtain ⟨hlt,rfl⟩ := List.getElem?_eq_some_iff.mp ht'
      rw [List.length_singleton] at hlt
      exact .inr ⟨by omega,List.getElem_singleton hlt⟩
  have hfresh : ∀ e ∈ m.history, e.cancels m.heap.length = false ∧
      e.delivers m.heap.length = false := by
    intro e he
    constructor
    · exact Bool.eq_false_iff.mpr fun hy => (h.known e he _ (.inl hy)).false
    · exact Bool.eq_false_iff.mpr fun hy => (h.known e he _ (.inr hy)).false
  constructor
  · intro y t' ht'
    refine Iff.trans ?_ (live_record (m := m) (e := .add m.heap.length cb)).symm
    rw [and_iff_right ⟨rfl,fun _ => rfl⟩]
    rcases hcell y t' ht' with ht' | ⟨rfl,rfl⟩
    · exact h.alive y t' ht'
    · rw [hcb]
      exact iff_of_true rfl ⟨fun e he => (hfresh e he).1,fun _ e he => (hfresh e he).2⟩
  · intro y t' ht' f hf
    rcases hcell y t' ht' with ht' | ⟨rfl,rfl⟩
    · exact List.mem_cons_of_mem _ (h.cb y t' ht' f hf)
    · rw [hcb] at hf
      cases hf
      exact List.mem_cons_self
  · intro e he y hy
    rw [List.length_append]
    rcases List.mem_cons.mp he with rfl | he
    · exact absurd hy (by simp [Event.cancels, Event.delivers])
    · exact Nat.lt_add_right _ (h.known e he y hy)
  · intro y t' ht' hr
    rw [List.countP_cons_of_neg Bool.false_ne_true]
    rcases hcell y t' ht' with ht' | ⟨rfl,rfl⟩
    · exact h.once y t' ht' hr
    · rw [List.countP_eq_zero.mpr fun e he => by rw [(hfresh e he).2]; exact Bool.false_ne_true]
      exact Nat.zero_le 1
  · exact List.pairwise_cons.mpr ⟨fun _ _ _ _ => rfl,h.never⟩
  · intro y c hy
    rcases List.mem_cons.mp hy with hy | hy
    · cases hy
    · obtain ⟨f,hf,hadd⟩ := h.own y c hy
      exact ⟨f,hf,List.mem_cons_of_mem _ hadd⟩

end Told

/-! ### The operations -/

theorem heap_addLocked (m : TimerManager F) (x : ℕ) : (m.addLocked x).heap = m.heap := by
  unfold addLocked
  dsimp only
  split_ifs <;> rfl

theorem history_addLocked (m : TimerManager F) (x : ℕ) :
    (m.addLocked x).history = m.history := by
  unfold addLocked
  dsimp only
  split_ifs <;> rfl

/-- The invariant while an operation has taken timers out of the set. -/
structure Inv (m : TimerManager F) (taken : List ℕ) : Prop where
  ordered : Ordered m taken
  told : Told m

namespace Inv
variable {taken : List ℕ}

theorem initial (now : UInt64) : Inv (initial now : TimerManager F) [] where
  ordered := ⟨.nil,List.nodup_nil,fun x => by simp [TimerManager.initial]⟩
  told := ⟨nofun,nofun,nofun,nofun,.nil,nofun⟩

theorem addTimer (h : Inv m []) (ms : UInt64) (cb : F) (recurring : Bool) (now : UInt64)
    {addr : ℕ} (haddr : ∀ y ∈ m.timers, m.addr? y ≠ some addr) :
    Inv (m.addTimer ms cb recurring now addr) [] where
  ordered := (h.ordered.add ⟨addr,recurring,ms,now+ms,some cb⟩ rfl haddr _).addLocked
  told := (h.told.add ⟨addr,recurring,ms,now+ms,some cb⟩ cb rfl).of_eq
    (heap_addLocked ..) (history_addLocked ..)

theorem mem_timers (h : Inv m []) (hx : m.heap[x]? = some timer) (hcb : timer.cb.isSome) :
    x ∈ m.timers := by
  rw [← List.append_nil m.timers]
  exact (h.ordered.alive x).mpr ⟨timer,hx,hcb⟩

theorem mem_iff (h : Inv m []) (hx : m.heap[x]? = some timer) :
    x ∈ m.timers ↔ timer.cb.isSome := by
  refine ⟨fun hmem => ?_,h.mem_timers hx⟩
  obtain ⟨timer',hx',hcb⟩ := (h.ordered.alive x).mp (List.mem_append_left [] hmem)
  rw [hx] at hx'
  cases hx'
  exact hcb

/-- `cancel` never erases the end of the set; what it returns tells whether it found `m_cb` set. -/
theorem cancel_eq (h : Inv m []) (hx : m.heap[x]? = some timer) : m.cancel x =
    some (timer.cb.isSome,
      if timer.cb.isSome then (m.setTimer x { timer with cb := none }).erase x else m) := by
  unfold TimerManager.cancel
  rw [hx]
  dsimp only
  split_ifs with hcb
  · have hfind := h.ordered.find_setTimer { timer with cb := none } hx rfl rfl
      (h.mem_timers hx hcb)
    rw [hcb]
    exact congrArg (Option.map _) hfind
  · rw [Bool.eq_false_iff.mpr hcb]

theorem cancel (h : Inv m []) (hx : m.heap[x]? = some timer) {r : Bool × TimerManager F}
    (hr : m.cancel x = some r) : Inv (r.2.record (.cancel x r.1)) [] := by
  rw [h.cancel_eq hx] at hr
  cases hr
  have htold := h.told.next (.cancel x timer.cb.isSome) { timer with cb := none } hx rfl nofun
    (fun _ => Event.eq_of_cancel) (by simp [Event.cancels]) nofun
  by_cases hcb : timer.cb.isSome
  · rw [if_pos hcb]
    have hordered := (h.ordered.erase (h.mem_timers hx hcb)).disarm { timer with cb := none }
      hx rfl rfl
    exact ⟨hordered.record _,htold.of_eq rfl rfl⟩
  · rw [if_neg hcb]
    have hsame : { timer with cb := none } = timer := by
      rw [← Option.not_isSome_iff_eq_none.mp hcb]
    refine ⟨h.ordered.record _,htold.of_eq ?_ rfl⟩
    rw [hsame]
    exact (heap_setTimer_self hx).symm

/-- `refresh` finds a timer whose `m_cb` is set. -/
theorem refresh_eq (h : Inv m []) (hx : m.heap[x]? = some timer) (now : UInt64) :
    m.refresh x now = some (timer.cb.isSome,
      if timer.cb.isSome then
        ((m.erase x).setTimer x { timer with next := now+timer.ms }).insert x
      else m) := by
  unfold TimerManager.refresh
  rw [hx]
  dsimp only
  by_cases hcb : timer.cb.isSome
  · have hnone : ¬timer.cb.isNone := by rwa [Bool.not_eq_true, Option.isNone_eq_false_iff]
    rw [if_neg hnone, if_pos hcb, h.ordered.find (h.mem_timers hx hcb), hcb]
  · rw [if_pos (Option.isNone_iff_eq_none.mpr (Option.not_isSome_iff_eq_none.mp hcb)),
      if_neg hcb, Bool.eq_false_iff.mpr hcb]

theorem refresh (h : Inv m []) (now : UInt64) {r : Bool × TimerManager F}
    (hr : m.refresh x now = some r) : Inv r.2 [] := by
  cases hx : m.heap[x]? with
  | none =>
    rw [TimerManager.refresh, hx] at hr
    cases hr
  | some timer =>
    rw [h.refresh_eq hx] at hr
    cases hr
    dsimp only
    split_ifs with hcb
    · exact {
        ordered := ((h.ordered.erase (h.mem_timers hx hcb)).setTimer
          { timer with next := now+timer.ms } hx rfl rfl).insert
        told := (h.told.setTimer { timer with next := now+timer.ms } hx rfl rfl).of_eq rfl rfl }
    · exact h

/-- `reset` returns before it looks at the timer when there is nothing to change; else it finds a
timer whose `m_cb` is set. -/
theorem reset_eq (h : Inv m []) (hx : m.heap[x]? = some timer) (ms : UInt64) (from_now : Bool)
    (now : UInt64) : m.reset x ms from_now now = some (
      if ms = timer.ms ∧ from_now = false then (true,m) else (timer.cb.isSome,
        if timer.cb.isSome then
          ((m.erase x).setTimer x { timer with
            ms, next := (if from_now then now else timer.next-timer.ms)+ms }).addLocked x
        else m)) := by
  unfold TimerManager.reset
  rw [hx]
  dsimp only
  by_cases hsame : ms = timer.ms ∧ from_now = false
  · rw [if_pos hsame, if_pos hsame]
  · rw [if_neg hsame, if_neg hsame]
    by_cases hcb : timer.cb.isSome
    · have hnone : ¬timer.cb.isNone := by rwa [Bool.not_eq_true, Option.isNone_eq_false_iff]
      rw [if_neg hnone, if_pos hcb, h.ordered.find (h.mem_timers hx hcb), hcb]
    · rw [if_pos (Option.isNone_iff_eq_none.mpr (Option.not_isSome_iff_eq_none.mp hcb)),
        if_neg hcb, Bool.eq_false_iff.mpr hcb]

theorem reset (h : Inv m []) (ms : UInt64) (from_now : Bool) (now : UInt64)
    {r : Bool × TimerManager F} (hr : m.reset x ms from_now now = some r) : Inv r.2 [] := by
  cases hx : m.heap[x]? with
  | none =>
    rw [TimerManager.reset, hx] at hr
    cases hr
  | some timer =>
    rw [h.reset_eq hx] at hr
    cases hr
    by_cases hsame : ms = timer.ms ∧ from_now = false
    · rw [if_pos hsame]
      exact h
    · rw [if_neg hsame]
      dsimp only
      by_cases hcb : timer.cb.isSome
      · rw [if_pos hcb]
        generalize (if from_now then now else timer.next-timer.ms)+ms = next
        exact {
          ordered := ((h.ordered.erase (h.mem_timers hx hcb)).setTimer
            { timer with ms, next } hx rfl rfl).addLocked
          told := (h.told.setTimer { timer with ms, next } hx rfl rfl).of_eq
            (heap_addLocked ..) (history_addLocked ..) }
      · rw [if_neg hcb]
        exact h

/-- The loop delivers the timers that have been taken out of the set. -/
theorem deliver (now_ms : UInt64) (h : Inv m (x :: taken)) :
    Inv (deliver now_ms m x) taken := by
  obtain ⟨timer,hx,hcb⟩ := (h.ordered.alive x).mp (List.mem_append_right _ List.mem_cons_self)
  obtain ⟨f,hf⟩ := Option.isSome_iff_exists.mp hcb
  have hdeliver : ∀ y cb, Event.deliver x timer.cb = .deliver y cb →
      ∃ f, timer.cb = some f ∧ cb = some f := by
    rintro y cb ⟨rfl,rfl⟩
    exact ⟨f,hf,hf⟩
  have hx' : (m.record (.deliver x timer.cb)).heap[x]? = some timer := hx
  unfold TimerManager.deliver
  rw [hx]
  dsimp only
  split_ifs with hrecurring
  · exact {
      ordered := ((h.ordered.record _).setTimer { timer with next := now_ms+timer.ms }
        hx' rfl rfl).insert
      told := (h.told.next _ { timer with next := now_ms+timer.ms } hx rfl
        (fun _ => id) (fun _ => Event.eq_of_deliver) (by simp [Event.cancels, hrecurring]) hdeliver).of_eq rfl rfl }
  · exact {
      ordered := (h.ordered.record _).disarm { timer with cb := none } hx' rfl rfl
      told := h.told.next _ _ hx rfl nofun (fun _ => Event.eq_of_deliver)
        (by simp [Event.cancels, Event.delivers, hrecurring]) hdeliver }

theorem foldl_deliver (now_ms : UInt64) (taken : List ℕ) (h : Inv m taken) :
    Inv (taken.foldl (TimerManager.deliver now_ms) m) [] := by
  induction taken generalizing m with
  | nil => exact h
  | cons x taken ih => exact ih (h.deliver now_ms)

theorem listExpiredCb (h : Inv m []) (now_ms : UInt64) (addr : ℕ) :
    Inv (m.listExpiredCb now_ms addr) [] := by
  unfold TimerManager.listExpiredCb
  split
  · exact h
  · dsimp only
    split_ifs
    · exact ⟨⟨h.ordered.sorted,h.ordered.addr,h.ordered.alive⟩,h.told.of_eq rfl rfl⟩
    · exact foldl_deliver now_ms _ ⟨h.ordered.take now_ms addr now_ms,h.told.of_eq rfl rfl⟩

theorem step (h : Inv m []) {i : Step F} (hi : m.step i = some m') : Inv m' [] := by
  cases i with
  | addTimer ms cb recurring now addr =>
    rw [TimerManager.step] at hi
    split_ifs at hi with haddr
    cases hi
    exact h.addTimer ms cb recurring now haddr
  | cancel x =>
    obtain ⟨r,hr,rfl⟩ := Option.map_eq_some_iff.mp hi
    cases hx : m.heap[x]? with
    | none =>
      rw [TimerManager.cancel, hx] at hr
      cases hr
    | some timer => exact h.cancel hx hr
  | refresh x now =>
    obtain ⟨r,hr,rfl⟩ := Option.map_eq_some_iff.mp hi
    exact h.refresh now hr
  | reset x ms from_now now =>
    obtain ⟨r,hr,rfl⟩ := Option.map_eq_some_iff.mp hi
    exact h.reset ms from_now now hr
  | listExpiredCb now_ms addr =>
    cases hi
    exact h.listExpiredCb now_ms addr
  | getNextTimer =>
    cases hi
    exact ⟨⟨h.ordered.sorted,h.ordered.addr,h.ordered.alive⟩,h.told.of_eq rfl rfl⟩

end Inv

theorem below_iff (hx : m.heap[x]? = some timer) {now_ms : UInt64} {addr : ℕ} :
    m.below now_ms addr x ↔
      timer.next < now_ms ∨ ¬now_ms < timer.next ∧ timer.addr < addr := by
  rw [below, hx, decide_eq_true_iff, Comparator]

theorem dueNow_iff (hx : m.heap[x]? = some timer) {now_ms : UInt64} :
    m.dueNow now_ms x ↔ timer.next = now_ms := by
  rw [dueNow, hx, Option.any_some, beq_iff_eq]

/-- What `listExpiredCb` takes is due, or the clock has been set back. -/
theorem mem_expired_iff (h : Lined m []) (hx : m.heap[x]? = some timer) (now_ms : UInt64)
    (addr : ℕ) : x ∈ m.expired now_ms addr ↔
      x ∈ m.timers ∧ (m.Rollover now_ms ∨ timer.next ≤ now_ms) := by
  unfold expired
  split_ifs with hrollover
  · exact (and_iff_left (.inl hrollover)).symm
  · rw [or_iff_right hrollover]
    set front := m.timers.takeWhile (m.below now_ms addr) with hfront
    set behind := m.timers.dropWhile (m.below now_ms addr) with hbehind
    have hsplit : front++behind = m.timers := List.takeWhile_append_dropWhile
    have hsorted := hsplit ▸ h.sorted
    have hmem_front : ∀ y, y ∈ front ↔ y ∈ m.timers ∧ m.below now_ms addr y := fun y =>
      OrderedSet.mem_takeWhile_iff h.sorted fun y _ z _ hyz hz =>
        decide_eq_true (Comparator.trans hyz (of_decide_eq_true hz))
    have hheap : ∀ y ∈ behind, ∃ t, m.heap[y]? = some t := by
      intro y hy
      exact h.known y (List.mem_append_left _ (hsplit ▸ List.mem_append_right front hy))
    have hnot_below : ∀ y ∈ behind, ¬m.below now_ms addr y := by
      intro y hy hbelow
      have hyfront := (hmem_front y).mpr ⟨hsplit ▸ List.mem_append_right front hy,hbelow⟩
      exact Comparator.irrefl _ ((List.pairwise_append.mp hsorted).2.2 y hyfront y hy)
    have hmem_due : x ∈ behind.takeWhile (m.dueNow now_ms) ↔
        x ∈ behind ∧ m.dueNow now_ms x := by
      refine OrderedSet.mem_takeWhile_iff (List.pairwise_append.mp hsorted).2.1 ?_
      intro y hy z hz hyz hdue
      obtain ⟨t,ht⟩ := hheap y hy
      obtain ⟨u,hu⟩ := hheap z hz
      have hnot := mt (below_iff ht).mpr (hnot_below y hy)
      rw [dueNow_iff ht]
      rw [dueNow_iff hu] at hdue
      rw [Before, ht, hu] at hyz
      simp only [Comparator] at hyz
      grind
    rw [List.mem_append, hmem_front, hmem_due, ← hsplit, List.mem_append, below_iff hx,
      dueNow_iff hx]
    have hx_front : x ∈ front → timer.next < now_ms ∨ ¬now_ms < timer.next ∧ timer.addr < addr :=
      fun hf => (below_iff hx).mp ((hmem_front x).mp hf).2
    have hx_behind : x ∈ behind →
        ¬(timer.next < now_ms ∨ ¬now_ms < timer.next ∧ timer.addr < addr) :=
      fun hb => mt (below_iff hx).mpr (hnot_below x hb)
    grind

/-- Timers that do not recur are delivered once. `cancel` tells whether the timer was alive, and
a timer that it has stopped is not delivered any more. What is delivered is the timer's own
callback. -/
structure Delivery (m : TimerManager F) : Prop where
  once : ∀ x timer, m.heap[x]? = some timer → timer.recurring = false →
    m.history.countP (·.delivers x) ≤ 1
  cancel : ∀ x timer, m.heap[x]? = some timer →
    ∃ r, m.cancel x = some r ∧ (r.1 = true ↔ m.Live x timer.recurring)
  never : ∀ x later earlier, m.history = later++.cancel x true :: earlier →
    ∀ e ∈ later, e.delivers x = false
  own : ∀ x cb, .deliver x cb ∈ m.history → ∃ f, cb = some f ∧ .add x f ∈ m.history

theorem delivery (h : (machine F).Reachable m) : Delivery m := by
  have hinv : Inv m [] := h.invariant (I := fun m => Inv m [])
    (fun _ ⟨now,hi⟩ => hi ▸ Inv.initial now) fun _ _ _ hm _ => hm.step
  constructor
  · exact hinv.told.once
  · intro x timer hx
    exact ⟨_,hinv.cancel_eq hx,hinv.told.alive x timer hx⟩
  · intro x later earlier heq e he
    have hnever := hinv.told.never
    rw [heq, List.pairwise_append] at hnever
    exact hnever.2.2 e he _ List.mem_cons_self x rfl
  · exact hinv.told.own

/-- One timer is delivered and then cancelled in vain, another one recurs until it is
cancelled. -/
theorem delivery_two : ∃ m : TimerManager ℕ, m.history = [.cancel 1 true,.deliver 1 (some 8),
    .cancel 0 false,.deliver 1 (some 8),.deliver 0 (some 7),.add 1 8,.add 0 7] ∧ Delivery m := by
  obtain ⟨m,hm,hhistory⟩ := Transition.Machine.exists_reaches (M := machine ℕ)
    (G := fun _ _ => True) ⟨0,rfl⟩ [.addTimer 10 7 false 0 64,.addTimer 10 8 true 0 32,
      .refresh 1 1,.listExpiredCb 11 96,.cancel 0,.listExpiredCb 15 0,.listExpiredCb 30 0,.cancel 1,
      .listExpiredCb 60 0]
    (fun m => m.history = [.cancel 1 true,.deliver 1 (some 8),.cancel 0 false,
      .deliver 1 (some 8),.deliver 0 (some 7),.add 1 8,.add 0 7])
    (Transition.Machine.guarded_true ..) (by decide)
  exact ⟨m,hhistory,delivery hm⟩

end TimerManager
end CoroutineWebserve
