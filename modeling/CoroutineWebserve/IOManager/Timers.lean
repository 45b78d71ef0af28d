import CoroutineWebserve.Scheduler.WakeUp
import Mathlib.Data.Finset.Card
import Mathlib.Tactic.NormNum

/-!
# Timers and the wait in `epoll_wait`

A worker of an `IOManager` waits until its next timer is due. A thread that inserts an earlier
one sets `m_tickled` and writes a byte to the pipe, so that a worker comes out and computes its
timeout again; until a worker has done so no other thread writes. Worker steps and critical
sections of the `TimerManager` are interleaved; which worker finds a task is part of the label.
-/
namespace CoroutineWebserve.IOManager
open Scheduler (Actor Stage)

/-- `m_cb` counts as present or empty; the addresses of timers are numbers. -/
structure Timer where
  next : ℕ
  ms : ℕ
  recurring : Bool
  cb : Bool
deriving DecidableEq

/-- Where a worker stands: in `run` before its scan, in a task, and in `idle` before
`getNextTimer`, in `epoll_wait` until its deadline (`none` for a negative timeout), behind it
with the pipe reported or not, in `listExpiredCb` with the time it has read, before the loop
over the events, and before the `swapOut`. -/
inductive Place
  | run
  | task
  | idle
  | epollWait (deadline : Option ℕ)
  | woken (tickled : Bool)
  | expire (now_ms : ℕ) (tickled : Bool)
  | events (tickled : Bool)
  | swapOut
deriving DecidableEq

/-- `timers` are the addresses in the set, in any order; `stage` is where a thread stands in
the call of `tickle` behind its insert. -/
structure Timers (W E : Type*) where
  now : ℕ
  timer : ℕ → Timer
  timers : List ℕ
  tickled : Bool
  previouseTime : ℕ
  pipe : ℕ
  idleThreadCount : ℕ
  place : W → Place
  stage : Actor W E → Stage

namespace Timers
variable {W E : Type*}

def initial : Timers W E where
  now := 0
  timer _ := ⟨0,0,false,false⟩
  timers := []
  tickled := false
  previouseTime := 0
  pipe := 0
  idleThreadCount := 0
  place _ := .run
  stage _ := .done

/-- `Timer::Comparator`. -/
def Less (timer : ℕ → Timer) (x y : ℕ) : Prop :=
  (timer x).next < (timer y).next ∨ ¬(timer y).next < (timer x).next ∧ x < y

instance (timer : ℕ → Timer) (x y : ℕ) : Decidable (Less timer x y) :=
  inferInstanceAs (Decidable (_ ∨ _ ∧ _))

/-- `*m_timers.begin()`. -/
def first (timer : ℕ → Timer) : List ℕ → Option ℕ
  | [] => none
  | x :: xs =>
    match first timer xs with
    | none => some x
    | some y => if Less timer y x then some y else some x

/-- The timeout of `getNextTimer`; `~0ull` when there is no timer. -/
def nextTimeout (m : Timers W E) : ℕ :=
  match first m.timer m.timers with
  | none => 2^64-1
  | some x => if m.now ≥ (m.timer x).next then 0 else (m.timer x).next-m.now

/-- A value is cast to `int`. -/
def int (n : ℕ) : ℤ := Int.bmod n (2^32)

def MAX_TIMEOUT : ℕ := 3000

/-- The timeout that `idle` hands to `epoll_wait`. -/
def epollTimeout (next_timeout : ℕ) : ℤ :=
  if next_timeout ≠ 2^64-1 then
    int (if int next_timeout > MAX_TIMEOUT then MAX_TIMEOUT else next_timeout)
  else int MAX_TIMEOUT

variable [DecidableEq W] [DecidableEq E]

def goto (m : Timers W E) (w : W) (place : Place) : Timers W E :=
  { m with place := Function.update m.place w place }

def setStage (m : Timers W E) (a : Actor W E) (s : Stage) : Timers W E :=
  { m with stage := Function.update m.stage a s }

def setTimer (m : Timers W E) (x : ℕ) (t : Timer) : Timers W E :=
  { m with timer := Function.update m.timer x t }

/-- `getNextTimer` and the call of `epoll_wait`, which returns at once when its timeout is 0. -/
def getNextTimer (m : Timers W E) (w : W) : Timers W E :=
  let timeout := epollTimeout m.nextTimeout
  let m := { m with tickled := false }
  if timeout < 0 then m.goto w (.epollWait none)
  else if timeout = 0 then m.goto w (.woken false)
  else m.goto w (.epollWait (some (m.now+timeout.toNat)))

/-- `at_front`: the timer that is inserted comes first, and no `tickle` is on its way. -/
def AtFront (m : Timers W E) (x : ℕ) : Prop :=
  (∀ y ∈ m.timers, ¬Less m.timer y x) ∧ m.tickled = false

instance (m : Timers W E) (x : ℕ) : Decidable (m.AtFront x) :=
  inferInstanceAs (Decidable ((∀ _ ∈ _, _) ∧ _))

/-- The second `addTimer`. -/
def insert (m : Timers W E) (a : Actor W E) (x : ℕ) : Timers W E :=
  if m.AtFront x then { m.setStage a .check with timers := x :: m.timers, tickled := true }
  else { m with timers := x :: m.timers }

/-- The first `addTimer`; the constructor has read the clock before the lock is taken. -/
def addTimer (m : Timers W E) (a : Actor W E) (x start ms : ℕ) (recurring : Bool) :
    Timers W E :=
  (m.setTimer x ⟨(start+ms)%2^64,ms,recurring,true⟩).insert a x

def erase (m : Timers W E) (x : ℕ) : Timers W E :=
  { m with timers := m.timers.filter (· ≠ x) }

/-- The time from which `reset` counts; the difference is one of `uint64_t`. -/
def resetStart (m : Timers W E) (x : ℕ) (from_now : Bool) : ℕ :=
  if from_now then m.now else ((m.timer x).next+2^64-(m.timer x).ms)%2^64

/-- `Timer::reset`. -/
def reset (m : Timers W E) (a : Actor W E) (x ms : ℕ) (from_now : Bool) : Timers W E :=
  if ms = (m.timer x).ms ∧ from_now = false then m else
  if (m.timer x).cb = false then m else
  if x ∉ m.timers then m else
  ((m.erase x).setTimer x
    { m.timer x with ms, next := (m.resetStart x from_now+ms)%2^64 }).insert a x

def cancel (m : Timers W E) (x : ℕ) : Timers W E :=
  if (m.timer x).cb then (m.setTimer x { m.timer x with cb := false }).erase x else m

/-- `detectClockRollover`. -/
def Rollover (m : Timers W E) (now_ms : ℕ) : Prop :=
  now_ms < m.previouseTime ∧ now_ms < (m.previouseTime+2^64-60*60*1000)%2^64

instance (m : Timers W E) (now_ms : ℕ) : Decidable (m.Rollover now_ms) :=
  inferInstanceAs (Decidable (_ ∧ _))

/-- `listExpiredCb` under its lock: what is due leaves the set or is inserted again, without a
call of `tickle`. -/
def listExpiredCb (m : Timers W E) (now_ms : ℕ) : Timers W E :=
  if m.timers = [] then m else
  let Expired := fun x => m.Rollover now_ms ∨ (m.timer x).next ≤ now_ms
  { m with
    previouseTime := now_ms
    timers := m.timers.filter fun x => ¬Expired x ∨ (m.timer x).recurring
    timer := fun x =>
      if x ∈ m.timers ∧ Expired x then
        if (m.timer x).recurring then { m.timer x with next := (now_ms+(m.timer x).ms)%2^64 }
        else { m.timer x with cb := false }
      else m.timer x }

/-- The thread may use the timers: any thread from outside, a worker in a task. -/
def MayInsert (m : Timers W E) : Actor W E → Prop
  | .caller e => m.stage (.caller e) = .done
  | .worker w => m.place w = .task ∧ m.stage (.worker w) = .done

instance (m : Timers W E) : DecidablePred m.MayInsert
  | .caller e => inferInstanceAs (Decidable (m.stage (.caller e) = .done))
  | .worker w => inferInstanceAs (Decidable (m.place w = .task ∧ m.stage (.worker w) = .done))

/-- `notify` is a call of `tickle` for another reason than a timer, `wake` a return of
`epoll_wait`, `next` the next statement of a worker in `idle`. -/
inductive Step (W E : Type*)
  | clock (t : ℕ)
  | addTimer (a : Actor W E) (x start ms : ℕ) (recurring : Bool)
  | reset (a : Actor W E) (x ms : ℕ) (from_now : Bool)
  | cancel (x : ℕ)
  | tickle (a : Actor W E)
  | write (a : Actor W E)
  | notify
  | start (w : W)
  | finish (w : W)
  | enterIdle (w : W)
  | wake (w : W) (tickled : Bool)
  | next (w : W)

/-- The next statement of a worker in `idle`, behind which it goes back to `run`. -/
def next (m : Timers W E) (w : W) : Option (Timers W E) :=
  match m.place w with
  | .idle => some (m.getNextTimer w)
  | .woken tickled => some (m.goto w (.expire m.now tickled))
  | .expire now_ms tickled => some ((m.listExpiredCb now_ms).goto w (.events tickled))
  | .events tickled =>
    some { m.goto w .swapOut with pipe := if tickled then 0 else m.pipe }
  | .swapOut => some { m.goto w .run with idleThreadCount := m.idleThreadCount-1 }
  | .run | .task | .epollWait _ => none

def step (m : Timers W E) : Step W E → Option (Timers W E)
  | .clock t => if m.now ≤ t ∧ t < 2^64 then some { m with now := t } else none
  | .addTimer a x start ms recurring =>
    if m.MayInsert a ∧ x ∉ m.timers ∧ start ≤ m.now then
      some (m.addTimer a x start ms recurring)
    else none
  | .reset a x ms from_now => if m.MayInsert a then some (m.reset a x ms from_now) else none
  | .cancel x => some (m.cancel x)
  | .tickle a =>
    if m.stage a = .check then
      some (m.setStage a (if m.idleThreadCount > 0 then .write else .done))
    else none
  | .write a =>
    if m.stage a = .write then some { m.setStage a .done with pipe := m.pipe+1 } else none
  | .notify => if m.idleThreadCount > 0 then some { m with pipe := m.pipe+1 } else none
  | .start w => if m.place w = .run then some (m.goto w .task) else none
  | .finish w =>
    if m.place w = .task ∧ m.stage (.worker w) = .done then some (m.goto w .run) else none
  | .enterIdle w =>
    if m.place w = .run then
      some { m.goto w .idle with idleThreadCount := m.idleThreadCount+1 }
    else none
  | .wake w tickled =>
    match m.place w with
    | .epollWait _ => if tickled ∧ m.pipe = 0 then none else some (m.goto w (.woken tickled))
    | _ => none
  | .next w => m.next w

variable (W E) in
def machine : Transition.Machine (Timers W E) (Step W E) where
  init m := m = initial
  step := step

end Timers

/-! ### Who will look at the timers in time -/

/-- The worker is on its way to the next `getNextTimer`, unless it finds a task. -/
def Place.Awake : Place → Prop
  | .run | .idle | .woken _ | .expire .. | .events _ | .swapOut => True
  | .task | .epollWait _ => False

def Place.Blocked : Place → Prop
  | .epollWait _ => True
  | .run | .task | .idle | .woken _ | .expire .. | .events _ | .swapOut => False

/-- The worker is counted in `m_idleThreadCount`. -/
def Place.Idle : Place → Prop
  | .idle | .epollWait _ | .woken _ | .expire .. | .events _ | .swapOut => True
  | .run | .task => False

/-- The worker comes out of `epoll_wait` before any timer is due. -/
def Place.InTime (timer : ℕ → Timer) (timers : List ℕ) : Place → Prop
  | .epollWait (some deadline) => ∀ x ∈ timers, deadline ≤ (timer x).next
  | .epollWait none | .run | .task | .idle | .woken _ | .expire .. | .events _ | .swapOut => False

instance : DecidablePred Place.Awake
  | .run | .idle | .woken _ | .expire .. | .events _ | .swapOut => isTrue trivial
  | .task | .epollWait _ => isFalse id

instance : DecidablePred Place.Blocked
  | .epollWait _ => isTrue trivial
  | .run | .task | .idle | .woken _ | .expire .. | .events _ | .swapOut => isFalse id

instance (timer : ℕ → Timer) (timers : List ℕ) : DecidablePred (Place.InTime timer timers)
  | .epollWait (some deadline) =>
    inferInstanceAs (Decidable (∀ x ∈ timers, deadline ≤ (timer x).next))
  | .epollWait none | .run | .task | .idle | .woken _ | .expire .. | .events _ | .swapOut =>
    isFalse id

namespace Timers
variable {W E : Type*}

/-- No worker is blocked, or a worker will look at the timers: one that is awake, one that is
woken by a byte in the pipe or by a thread between its insert and its `tickle`, or one that is
blocked and comes out in time, and then the flag does not hold back the next `tickle`. -/
def Covered (m : Timers W E) : Prop :=
  (∀ w, ¬(m.place w).Blocked) ∨ (∃ w, (m.place w).Awake) ∨ 0 < m.pipe ∨
    (∃ a, m.stage a ≠ .done) ∨ m.tickled = false ∧ ∃ w, (m.place w).InTime m.timer m.timers

/-- `m_idleThreadCount` is the number of workers in `idle`. -/
def IdleCounted (m : Timers W E) : Prop :=
  ∃ s : Finset W, m.idleThreadCount = s.card ∧ ∀ w, w ∈ s ↔ (m.place w).Idle

section lemmas
variable {m : Timers W E}

theorem first_eq_none {timer : ℕ → Timer} {l : List ℕ} : first timer l = none ↔ l = [] := by
  cases l with
  | nil => simp [first]
  | cons x xs =>
    simp only [first]
    split
    · simp
    · split <;> simp

/-- No timer is due before the first one. -/
theorem next_first_le {timer : ℕ → Timer} {l : List ℕ} {x : ℕ} (h : first timer l = some x) :
    ∀ y ∈ l, (timer x).next ≤ (timer y).next := by
  induction l generalizing x with
  | nil => cases h
  | cons z zs ih =>
    simp only [first] at h
    split at h
    · next hnone =>
      cases h
      rw [first_eq_none.mp hnone]
      simp
    · next z' hz =>
      have hzs := ih hz
      split at h
      · next hless =>
        cases h
        intro y hy
        rcases List.mem_cons.mp hy with rfl | hy
        · rcases hless with hlt | ⟨hle,-⟩ <;> omega
        · exact hzs y hy
      · next hless =>
        cases h
        intro y hy
        rcases List.mem_cons.mp hy with rfl | hy
        · exact le_rfl
        · have := hzs y hy
          have hle : ¬(timer z').next < (timer z).next := fun hlt => hless (.inl hlt)
          omega

theorem bmod_le (n k : ℕ) : Int.bmod n k ≤ n := by
  have hmod : (n : ℤ)%(k : ℤ) ≤ n := by
    rw [← Int.natCast_mod, Int.ofNat_le]
    exact Nat.mod_le ..
  rw [Int.bmod_def]
  split <;> omega

theorem int_le (n : ℕ) : int n ≤ n := bmod_le ..

theorem int_of_lt {n : ℕ} (h : n < 2^31) : int n = n :=
  Int.bmod_eq_of_le (by omega) (by omega)

/-- The timeout does not get longer. -/
theorem epollTimeout_le (t : ℕ) : epollTimeout t ≤ t := by
  have hmax : int MAX_TIMEOUT = MAX_TIMEOUT := int_of_lt (by norm_num [MAX_TIMEOUT])
  unfold epollTimeout
  split_ifs with hne hgt
  · rw [hmax]
    exact (le_of_lt hgt).trans (int_le t)
  · exact int_le t
  · rw [hmax, not_not.mp hne, Int.ofNat_le]
    norm_num [MAX_TIMEOUT]

theorem inTime_of_getNextTimer [DecidableEq W] (ht : 0 ≤ epollTimeout m.nextTimeout) (w : W) :
    ((m.getNextTimer w).place w).Awake ∨
      ((m.getNextTimer w).place w).InTime m.timer m.timers := by
  unfold Timers.getNextTimer
  simp only [if_neg (not_lt.mpr ht)]
  split
  · left
    simp [goto, Place.Awake]
  · next hzero =>
    right
    simp only [goto, Function.update_self]
    intro y hy
    have hle := epollTimeout_le m.nextTimeout
    cases hf : first m.timer m.timers with
    | none => rw [first_eq_none.mp hf] at hy; cases hy
    | some x =>
      have hx := next_first_le hf y hy
      have hnext : m.nextTimeout =
          if m.now ≥ (m.timer x).next then 0 else (m.timer x).next-m.now := by
        simp [nextTimeout, hf]
      split at hnext
      · rw [hnext] at hzero
        exact absurd (by decide) hzero
      · omega

/-- A timer that is not first in the set is not due before the first one. -/
theorem InTime.cons {timer : ℕ → Timer} {timers : List ℕ} {x y : ℕ} {place : Place}
    (h : place.InTime timer timers) (hy : y ∈ timers) (hless : Less timer y x) :
    place.InTime timer (x :: timers) := by
  cases place with
  | epollWait deadline =>
    cases deadline with
    | none => exact h
    | some deadline =>
      intro z hz
      rcases List.mem_cons.mp hz with rfl | hz
      · have := h y hy
        rcases hless with hlt | ⟨hle,-⟩ <;> omega
      · exact h z hz
  | _ => exact h

/-- Timers leave the set, and the others keep their times. -/
theorem InTime.mono {timer timer' : ℕ → Timer} {timers timers' : List ℕ} {place : Place}
    (h : place.InTime timer timers)
    (hsub : ∀ x ∈ timers', x ∈ timers ∧ (timer' x).next = (timer x).next) :
    place.InTime timer' timers' := by
  cases place with
  | epollWait deadline =>
    cases deadline with
    | none => exact h
    | some deadline =>
      intro x hx
      obtain ⟨hmem,hnext⟩ := hsub x hx
      rw [hnext]
      exact h x hmem
  | _ => exact h

variable [DecidableEq W] [DecidableEq E]

omit [DecidableEq W] [DecidableEq E] in
theorem Covered.of_awake {w : W} (h : (m.place w).Awake) : Covered m := .inr (.inl ⟨w,h⟩)

omit [DecidableEq W] [DecidableEq E] in
theorem Covered.of_stage {a : Actor W E} (h : m.stage a ≠ .done) : Covered m :=
  .inr (.inr (.inr (.inl ⟨a,h⟩)))

omit [DecidableEq W] [DecidableEq E] in
/-- Timers leave the set. -/
theorem Covered.mono (h : Covered m) {timer : ℕ → Timer} {timers : List ℕ}
    (hsub : ∀ x ∈ timers, x ∈ m.timers ∧ (timer x).next = (m.timer x).next) :
    Covered { m with timer, timers } :=
  h.imp_right (.imp_right (.imp_right (.imp_right fun ⟨hflag,w,hw⟩ =>
    ⟨hflag,w,InTime.mono hw hsub⟩)))

/-- An insert at the front with the flag set before is the only one that calls for nobody. -/
theorem Covered.insert (h : Covered m) (a : Actor W E) (x : ℕ) : Covered (m.insert a x) := by
  unfold Timers.insert
  split
  · exact .of_stage (a := a) (by simp [setStage])
  · next hfront =>
    refine h.imp_right (.imp_right (.imp_right (.imp_right ?_)))
    rintro ⟨hflag,w,hw⟩
    refine ⟨hflag,w,?_⟩
    simp only [AtFront, hflag, and_true, not_forall, not_not] at hfront
    obtain ⟨y,hy,hless⟩ := hfront
    exact InTime.cons hw hy hless

theorem Covered.addTimer (h : Covered m) (a : Actor W E) {x : ℕ} (hx : x ∉ m.timers)
    (start ms : ℕ) (recurring : Bool) : Covered (m.addTimer a x start ms recurring) := by
  refine Covered.insert (h.mono fun y hy => ⟨hy,?_⟩) a x
  have hne : y ≠ x := by
    rintro rfl
    exact hx hy
  rw [Function.update_of_ne hne]

theorem Covered.reset (h : Covered m) (a : Actor W E) (x ms : ℕ) (from_now : Bool) :
    Covered (m.reset a x ms from_now) := by
  unfold Timers.reset
  split
  · exact h
  split
  · exact h
  split
  · exact h
  · refine Covered.insert (h.mono fun y hy => ?_) a x
    obtain ⟨hmem,hne⟩ := List.mem_filter.mp hy
    have hne : y ≠ x := by simpa using hne
    exact ⟨hmem,congrArg Timer.next (Function.update_of_ne hne ..)⟩

omit [DecidableEq W] [DecidableEq E] in
theorem Covered.cancel (h : Covered m) (x : ℕ) : Covered (m.cancel x) := by
  unfold Timers.cancel
  split
  · refine h.mono fun y hy => ?_
    obtain ⟨hmem,hne⟩ := List.mem_filter.mp hy
    have hne : y ≠ x := by simpa using hne
    exact ⟨hmem,congrArg Timer.next (Function.update_of_ne hne ..)⟩
  · exact h

/-! ### The counter -/

/-- A step that moves no worker and counts none. -/
def SameWorkers (m m' : Timers W E) : Prop :=
  m'.place = m.place ∧ m'.idleThreadCount = m.idleThreadCount

omit [DecidableEq W] [DecidableEq E] in
theorem IdleCounted.same {m' : Timers W E} (h : IdleCounted m) (hsame : m.SameWorkers m') :
    IdleCounted m' := by
  obtain ⟨s,hcard,hmem⟩ := h
  exact ⟨s,hsame.2.trans hcard,fun w => by rw [hsame.1]; exact hmem w⟩

theorem sameWorkers_insert (m : Timers W E) (a : Actor W E) (x : ℕ) :
    m.SameWorkers (m.insert a x) := by
  unfold Timers.insert
  split <;> exact ⟨rfl,rfl⟩

theorem sameWorkers_reset (m : Timers W E) (a : Actor W E) (x ms : ℕ) (from_now : Bool) :
    m.SameWorkers (m.reset a x ms from_now) := by
  unfold Timers.reset
  split
  · exact ⟨rfl,rfl⟩
  split
  · exact ⟨rfl,rfl⟩
  split
  · exact ⟨rfl,rfl⟩
  · exact sameWorkers_insert ..

omit [DecidableEq W] [DecidableEq E] in
theorem sameWorkers_cancel (m : Timers W E) (x : ℕ) : m.SameWorkers (m.cancel x) := by
  unfold Timers.cancel
  split <;> exact ⟨rfl,rfl⟩

omit [DecidableEq E] in
theorem IdleCounted.goto (h : IdleCounted m) {w : W} {place : Place}
    (hw : (m.place w).Idle ↔ place.Idle) : IdleCounted (m.goto w place) := by
  obtain ⟨s,hcard,hmem⟩ := h
  refine ⟨s,hcard,fun u => ?_⟩
  by_cases huw : u = w
  · subst huw
    simp [Timers.goto, hmem, hw]
  · simp [Timers.goto, huw, hmem]

omit [DecidableEq E] in
/-- A worker enters `idle` or leaves it. -/
theorem IdleCounted.enter (h : IdleCounted m) {w : W} (hw : ¬(m.place w).Idle) :
    IdleCounted { m.goto w .idle with idleThreadCount := m.idleThreadCount+1 } := by
  obtain ⟨s,hcard,hmem⟩ := h
  refine ⟨Insert.insert w s,?_,fun u => ?_⟩
  · rw [Finset.card_insert_of_notMem (fun hs => hw ((hmem w).mp hs)), ← hcard]
  · by_cases huw : u = w
    · simp [Timers.goto, huw, Place.Idle]
    · simp [Timers.goto, huw, hmem]

omit [DecidableEq E] in
theorem IdleCounted.leave (h : IdleCounted m) {w : W} (hw : (m.place w).Idle) :
    IdleCounted { m.goto w .run with idleThreadCount := m.idleThreadCount-1 } := by
  obtain ⟨s,hcard,hmem⟩ := h
  refine ⟨s.erase w,?_,fun u => ?_⟩
  · rw [Finset.card_erase_of_mem ((hmem w).mpr hw), ← hcard]
  · by_cases huw : u = w
    · simp [Timers.goto, huw, Place.Idle]
    · simp [Timers.goto, huw, hmem]

omit [DecidableEq W] [DecidableEq E] in
/-- A thread that counts no idle worker need not wake any. -/
theorem IdleCounted.not_blocked (h : IdleCounted m) (hzero : m.idleThreadCount = 0) (w : W) :
    ¬(m.place w).Blocked := by
  obtain ⟨s,hcard,hmem⟩ := h
  have hs : s = ∅ := Finset.card_eq_zero.mp (hcard.symm.trans hzero)
  intro hw
  have hidle : (m.place w).Idle := by
    cases hp : m.place w <;> simp_all [Place.Blocked, Place.Idle]
  rw [← hmem, hs] at hidle
  cases hidle

omit [DecidableEq E] in
theorem IdleCounted.getNextTimer (h : IdleCounted m) {w : W} (hw : m.place w = .idle) :
    IdleCounted (m.getNextTimer w) := by
  have move : ∀ place : Place, place.Idle → IdleCounted { m.goto w place with tickled := false } :=
    fun place hplace => h.goto (by rw [hw]; exact ⟨fun _ => hplace,fun _ => trivial⟩)
  unfold Timers.getNextTimer
  dsimp only
  split
  · exact move _ trivial
  split
  · exact move _ trivial
  · exact move _ trivial

end lemmas

/-! ### Runs -/

section runs
variable [DecidableEq W] [DecidableEq E] {m : Timers W E}

/-- A worker takes a task only while another one will look at the timers in time, and the
timeout that it computes is no negative `int`. -/
def TasksCovered (m : Timers W E) : Step W E → Prop
  | .start w => Covered (m.goto w .task)
  | .next w => m.place w = .idle → 0 ≤ epollTimeout m.nextTimeout
  | _ => True

omit [DecidableEq E] in
instance [Fintype W] [Fintype E] (m : Timers W E) : Decidable (Covered m) :=
  inferInstanceAs (Decidable (_ ∨ _ ∨ _ ∨ _ ∨ _ ∧ _))

instance [Fintype W] [Fintype E] (m : Timers W E) : DecidablePred m.TasksCovered
  | .start w => inferInstanceAs (Decidable (Covered (m.goto w .task)))
  | .next w => inferInstanceAs (Decidable (m.place w = .idle → _))
  | .clock _ | .addTimer .. | .reset .. | .cancel _ | .tickle _ | .write _ | .notify | .finish _
  | .enterIdle _ | .wake .. => isTrue trivial

omit [DecidableEq E] in
/-- A worker moves to a place where it is awake. -/
theorem Covered.goto_awake {w : W} {place : Place} {m' : Timers W E}
    (hp : m'.place = Function.update m.place w place) (h : place.Awake) : Covered m' :=
  .of_awake (w := w) (by rw [hp, Function.update_self]; exact h)

omit [DecidableEq E] in
theorem Covered.getNextTimer (ht : 0 ≤ epollTimeout m.nextTimeout) (w : W) :
    Covered (m.getNextTimer w) := by
  have hsame : (m.getNextTimer w).timer = m.timer ∧ (m.getNextTimer w).timers = m.timers ∧
      (m.getNextTimer w).tickled = false := by
    unfold Timers.getNextTimer
    dsimp only
    split
    · exact ⟨rfl,rfl,rfl⟩
    · split <;> exact ⟨rfl,rfl,rfl⟩
  obtain ⟨htimer,htimers,hflag⟩ := hsame
  rcases inTime_of_getNextTimer ht w with ha | ht
  · exact .of_awake ha
  · refine .inr (.inr (.inr (.inr ⟨hflag,w,?_⟩)))
    rwa [htimer, htimers]

omit [DecidableEq E] in
/-- What the statements of `idle` preserve. -/
theorem covered_next (hc : IdleCounted m) {w : W} {m' : Timers W E}
    (hg : m.place w = .idle → 0 ≤ epollTimeout m.nextTimeout) (hs : m.next w = some m') : IdleCounted m' ∧ Covered m' := by
  unfold Timers.next at hs
  split at hs
  · next hp =>
    cases hs
    exact ⟨hc.getNextTimer hp,.getNextTimer (hg hp) w⟩
  · next hp =>
    cases hs
    exact ⟨hc.goto (by rw [hp]; exact Iff.rfl),.goto_awake (m := m) (w := w) rfl trivial⟩
  · next now_ms tickled hp =>
    cases hs
    have hexpire : IdleCounted (m.listExpiredCb now_ms) ∧
        (m.listExpiredCb now_ms).place = m.place := by
      unfold listExpiredCb
      split
      · exact ⟨hc,rfl⟩
      · exact ⟨hc,rfl⟩
    have hplace : (m.listExpiredCb now_ms).place w = .expire now_ms tickled := by
      rw [hexpire.2, hp]
    exact ⟨hexpire.1.goto (by rw [hplace]; exact Iff.rfl),
      .goto_awake (m := m.listExpiredCb now_ms) (w := w) rfl trivial⟩
  · next hp =>
    cases hs
    have hgoto : IdleCounted (m.goto w .swapOut) := hc.goto (by rw [hp]; exact Iff.rfl)
    exact ⟨hgoto,.goto_awake (m := m) (w := w) rfl trivial⟩
  · next hp =>
    cases hs
    exact ⟨hc.leave (by rw [hp]; trivial),.goto_awake (m := m) (w := w) rfl trivial⟩
  all_goals cases hs

/-- What a step preserves that covers the timers. -/
theorem covered_step (hc : IdleCounted m) (h : Covered m) {i : Step W E} {m' : Timers W E}
    (hg : m.TasksCovered i) (hs : m.step i = some m') : IdleCounted m' ∧ Covered m' := by
  cases i with
  | clock t =>
    obtain ⟨-,hs⟩ := Option.ite_none_right_eq_some.mp hs
    cases hs
    exact ⟨hc.same ⟨rfl,rfl⟩,h⟩
  | addTimer a x start ms recurring =>
    obtain ⟨⟨-,hx,-⟩,hs⟩ := Option.ite_none_right_eq_some.mp hs
    cases hs
    exact ⟨hc.same (sameWorkers_insert ..),h.addTimer a hx start ms recurring⟩
  | reset a x ms from_now =>
    obtain ⟨-,hs⟩ := Option.ite_none_right_eq_some.mp hs
    cases hs
    exact ⟨hc.same (sameWorkers_reset ..),h.reset a x ms from_now⟩
  | cancel x =>
    cases hs
    exact ⟨hc.same (sameWorkers_cancel ..),h.cancel x⟩
  | tickle a =>
    obtain ⟨-,hs⟩ := Option.ite_none_right_eq_some.mp hs
    cases hs
    refine ⟨hc.same ⟨rfl,rfl⟩,?_⟩
    by_cases hi : m.idleThreadCount > 0
    · exact .of_stage (a := a) (by simp [setStage, hi])
    · exact .inl (hc.not_blocked (by omega))
  | write a =>
    obtain ⟨-,hs⟩ := Option.ite_none_right_eq_some.mp hs
    cases hs
    exact ⟨hc.same ⟨rfl,rfl⟩,.inr (.inr (.inl (Nat.succ_pos _)))⟩
  | notify =>
    obtain ⟨-,hs⟩ := Option.ite_none_right_eq_some.mp hs
    cases hs
    exact ⟨hc.same ⟨rfl,rfl⟩,.inr (.inr (.inl (Nat.succ_pos _)))⟩
  | start w =>
    obtain ⟨hp,hs⟩ := Option.ite_none_right_eq_some.mp hs
    cases hs
    exact ⟨hc.goto (by rw [hp]; exact Iff.rfl),hg⟩
  | finish w =>
    obtain ⟨⟨hp,-⟩,hs⟩ := Option.ite_none_right_eq_some.mp hs
    cases hs
    exact ⟨hc.goto (by rw [hp]; exact Iff.rfl),.goto_awake (m := m) (w := w) rfl trivial⟩
  | enterIdle w =>
    obtain ⟨hp,hs⟩ := Option.ite_none_right_eq_some.mp hs
    cases hs
    exact ⟨hc.enter (by rw [hp]; exact id),.goto_awake (m := m) (w := w) rfl trivial⟩
  | wake w tickled =>
    simp only [Timers.step] at hs
    split at hs
    · next hp =>
      obtain ⟨-,hs⟩ := Option.ite_none_left_eq_some.mp hs
      cases hs
      exact ⟨hc.goto (by rw [hp]; exact Iff.rfl),.goto_awake (m := m) (w := w) rfl trivial⟩
    · cases hs
  | next w => exact covered_next hc hg hs

/-- A worker blocks in `epoll_wait`, the pipe is empty, every other worker executes a task, no
thread is between its insert and its `tickle`, and a timer is due before the deadlines of all
blocked workers. -/
structure LostWakeUp (m : Timers W E) : Prop where
  blocked : ∃ w, (m.place w).Blocked
  pipe : m.pipe = 0
  busy : ∀ w, (m.place w).Blocked ∨ m.place w = .task
  settled : ∀ a, m.stage a = .done
  due : ∃ x ∈ m.timers, ∀ w deadline, m.place w = .epollWait (some deadline) →
    (m.timer x).next < deadline

/-- While tasks are taken only when another worker will look at the timers in time, no timer
is overslept. -/
theorem no_lost_timer (h : (machine W E).Reaches TasksCovered m) : ¬LostWakeUp m := by
  have hinv : IdleCounted m ∧ Covered m := by
    refine h.invariant (I := fun m => IdleCounted m ∧ Covered m) ?_ ?_
    · rintro _ rfl
      exact ⟨⟨∅,rfl,fun _ => by simp [initial, Place.Idle]⟩,.inl fun _ => id⟩
    · exact fun _ _ _ hm hg hs => covered_step hm.1 hm.2 hg hs
  rintro ⟨⟨u,hu⟩,hpipe,hbusy,hsettled,x,hx,hdue⟩
  rcases hinv.2 with hno | ⟨w,hw⟩ | hp | ⟨a,ha⟩ | ⟨-,w,hw⟩
  · exact hno u hu
  · rcases hbusy w with hb | hb
    · cases hp : m.place w <;> simp_all [Place.Blocked, Place.Awake]
    · rw [hb] at hw
      exact hw
  · omega
  · exact ha (hsettled a)
  · cases hp : m.place w with
    | epollWait deadline =>
      cases deadline with
      | none => rw [hp] at hw; exact hw
      | some deadline =>
        rw [hp] at hw
        exact absurd (hdue w deadline hp) (Nat.not_lt.mpr (hw x hx))
    | _ => rw [hp] at hw; exact hw

end runs

/-- Two workers block, a timer is inserted, and one of them comes out and blocks again until it
is due; the other one takes a task. -/
theorem no_lost_timer_two : ∃ m : Timers (Fin 2) (Fin 1),
    (m.place 0 = .task ∧ m.place 1 = .epollWait (some 1000) ∧ m.timers = [0]) ∧
      ¬LostWakeUp m := by
  obtain ⟨m,hm,hp⟩ := Transition.Machine.exists_reaches (M := machine (Fin 2) (Fin 1))
    (G := TasksCovered) rfl
    [.enterIdle 0,.next 0,.enterIdle 1,.next 1,.addTimer (.caller 0) 0 0 1000 false,
      .tickle (.caller 0),.write (.caller 0),.wake 1 true,.next 1,.next 1,.next 1,.next 1,
      .enterIdle 1,.next 1,.wake 0 false,.next 0,.next 0,.next 0,.next 0,.start 0]
    (fun m => m.place 0 = .task ∧ m.place 1 = .epollWait (some 1000) ∧ m.timers = [0])
    (by decide) (by decide)
  exact ⟨m,hp,no_lost_timer hm⟩

/-- The worker that has drained the pipe takes a task before it computes its timeout again. -/
theorem lost_timer : ¬∀ m : Timers (Fin 2) (Fin 1),
    (machine (Fin 2) (Fin 1)).Reachable m → ¬LostWakeUp m := by
  intro h
  obtain ⟨m,hm,hzero,hone,hpipe,hworker,hcaller,htimer⟩ := Transition.Machine.exists_reaches
    (M := machine (Fin 2) (Fin 1)) rfl
    [.enterIdle 0,.next 0,.enterIdle 1,.next 1,.addTimer (.caller 0) 0 0 1000 false,
      .tickle (.caller 0),.write (.caller 0),.wake 0 true,.next 0,.next 0,.next 0,.next 0,.start 0]
    (fun m => m.place 0 = .task ∧ m.place 1 = .epollWait (some 3000) ∧ m.pipe = 0 ∧
      (∀ w, m.stage (.worker w) = .done) ∧ (∀ e, m.stage (.caller e) = .done) ∧
      0 ∈ m.timers ∧ (m.timer 0).next = 1000)
    (Transition.Machine.guarded_true ..) (by decide)
  refine h m hm ⟨⟨1,by rw [hone]; trivial⟩,hpipe,fun w => ?_,fun a => ?_,0,htimer.1,?_⟩
  · match w with
    | 0 => exact .inr hzero
    | 1 =>
      rw [hone]
      exact .inl trivial
  · cases a with
    | worker w => exact hworker w
    | caller e => exact hcaller e
  · intro w deadline hw
    match w with
    | 0 => exact absurd (hzero.symm.trans hw) nofun
    | 1 =>
      cases hone.symm.trans hw
      rw [htimer.2]
      decide

end Timers
end CoroutineWebserve.IOManager
