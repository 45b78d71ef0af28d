import CoroutineWebserve.Scheduler.Model
import Mathlib.Data.List.Nodup
import Mathlib.Data.Fintype.Basic

/-!
# The tasks that go through the queue

`schedule` takes fibers and callbacks, by value or by pointer, one by one or as a range, and
drops what is empty. Every task that is pushed gets a serial number here, so that the copies
in the queue, in the hands of a worker, in `m_cb` of a fiber and behind the start of a
callback can be told from each other.
-/
namespace CoroutineWebserve.Scheduler

/-- What `schedule` is called with: a `Fiber::ptr` or a `std::function`, which may be empty,
or the address of a variable of one of these types. -/
inductive FiberOrCb
  | value (item : Option Item)
  | pointer (x : ℕ)
deriving DecidableEq

/-- The constructors of `FiberAndThread`: those that take a pointer swap the variable's value
with a new member, so that the variable is empty afterwards. -/
def FiberOrCb.construct (vars : ℕ → Option Item) : FiberOrCb → Option Item × (ℕ → Option Item)
  | .value item => (item,vars)
  | .pointer x => (vars x,Function.update vars x none)

end Scheduler

/-- The scheduler with the serial numbers of the tasks. `vars` are the variables that pointers
refer to, `entries` is the queue with its numbers, `hand` the number of the task in a worker's
`ft`, `callback` that of the callback in `m_cb`, if it has come from the queue; `pushed`,
`dequeued` and `started` record what has happened. -/
structure Tasks (W E : Type*) extends Scheduler W E where
  vars : ℕ → Option Scheduler.Item
  serial : ℕ
  entries : List (ℕ × Scheduler.Task W)
  hand : W → Option ℕ
  callback : ℕ → Option ℕ
  pushed : List (ℕ × Scheduler.Task W)
  dequeued : List (W × ℕ × Scheduler.Task W)
  started : List ℕ

namespace Tasks
open Scheduler
variable {W E : Type*}

def initial : Tasks W E where
  toScheduler := Scheduler.initial
  vars _ := none
  serial := 0
  entries := []
  hand _ := none
  callback _ := none
  pushed := []
  dequeued := []
  started := []

def record (m : Tasks W E) (t : Scheduler.Task W) : Tasks W E :=
  { m with
    serial := m.serial+1
    entries := m.entries++[(m.serial,t)]
    pushed := m.pushed++[(m.serial,t)] }

inductive Step (W E : Type*)
  | assign (x : ℕ) (item : Option Item)
  | schedule (a : Actor W E) (fc : FiberOrCb) (thread : Pin W)
  | scheduleRange (a : Actor W E) (range : List ℕ)
  | run (i : Scheduler.Step W E)

variable [DecidableEq W] [DecidableEq E]

/-- The queue was empty, so the thread calls `tickle`, even if nothing is pushed. -/
def scheduleNoLock (m : Tasks W E) (a : Actor W E) (fc : FiberOrCb) (thread : Pin W) :
    Tasks W E :=
  match fc.construct m.vars with
  | (some item,vars) =>
    { m.record ⟨item,thread⟩ with toScheduler := m.toScheduler.push a ⟨item,thread⟩, vars }
  | (none,vars) =>
    { m with
      toScheduler := m.setStage a (if m.queue = [] then .check else m.stage a)
      vars }

def scheduleRange (m : Tasks W E) (a : Actor W E) (range : List ℕ) : Tasks W E :=
  range.foldl (fun m x => m.scheduleNoLock a (.pointer x) .any) m

/-- The worker's scan has erased element `i`. -/
def take (m : Tasks W E) (s : Scheduler W E) (w : W) (i : ℕ) : Tasks W E :=
  { m with
    toScheduler := s
    entries := m.entries.eraseIdx i
    hand := Function.update m.hand w (m.entries[i]?.map Prod.fst)
    dequeued := m.dequeued++m.entries[i]?.toList.map fun e => (w,e) }

def setCallback (m : Tasks W E) (f : ℕ) (cb : Option ℕ) : Tasks W E :=
  { m with callback := Function.update m.callback f cb }

/-- A context that has never been saved begins with the call of `m_cb`. -/
def start (m : Tasks W E) (f : ℕ) : Tasks W E :=
  if (m.fibers f).ctx = .fresh then { m with started := m.started++(m.callback f).toList } else m

/-- What a statement of `run` that leads to `s` does with the tasks. -/
def follow (m : Tasks W E) (s : Scheduler W E) : Scheduler.Step W E → Tasks W E
  | .next w =>
    match m.pc w with
    | .scan i _ =>
      if s.queue.length < m.queue.length then m.take s w i else { m with toScheduler := s }
    | .scanned (some .cb) =>
      match s.pc w with
      | .swapIn f _ => { m.setCallback f (m.hand w) with toScheduler := s }
      | _ => { m with toScheduler := s }
    | .switch f _ => { m.start f with toScheduler := s }
    | .swapped f cb =>
      -- `reset(nullptr)`
      if cb ∧ ((m.fibers f).state = .TERM ∨ (m.fibers f).state = .EXCEPT) then
        { m.setCallback f none with toScheduler := s }
      else { m with toScheduler := s }
    | .repush f => { m.record ⟨.fiber f,.any⟩ with toScheduler := s }
    | _ => { m with toScheduler := s }
  | .leave w .term =>
    match m.pc w with
    | .running f _ => { m.setCallback f none with toScheduler := s }
    | _ => { m with toScheduler := s }
  | _ => { m with toScheduler := s }

/-- The thread may call `schedule` now. -/
def Ready (m : Tasks W E) (a : Actor W E) : Prop :=
  m.failed = false ∧ m.lock = none ∧ m.stage a = .done ∧ m.MaySchedule a

instance (m : Tasks W E) (a : Actor W E) : Decidable (m.Ready a) :=
  inferInstanceAs (Decidable (_ ∧ _ ∧ _ ∧ _))

/-- The fiber of an item exists. -/
def FiberExists (m : Tasks W E) (item : Option Item) : Prop := ∀ it ∈ item, it.Valid m.created

instance (m : Tasks W E) : ∀ item, Decidable (m.FiberExists item)
  | some it => decidable_of_iff (it.Valid m.created) (by simp [FiberExists])
  | none => isTrue (by simp [FiberExists])

def step (m : Tasks W E) : Step W E → Option (Tasks W E)
  | .assign x item =>
    if m.failed = false ∧ m.FiberExists item then
      some { m with vars := Function.update m.vars x item }
    else none
  | .schedule a fc thread =>
    if m.Ready a ∧ m.FiberExists (fc.construct m.vars).1 then some (m.scheduleNoLock a fc thread)
    else none
  | .scheduleRange a range => if m.Ready a then some (m.scheduleRange a range) else none
  | .run (.schedule ..) => none
  | .run i => (Scheduler.step m.toScheduler i).map fun s =>
    if s.failed then { m with toScheduler := s } else m.follow s i

variable (W E) in
def machine : Transition.Machine (Tasks W E) (Step W E) where
  init m := m = initial
  step := step

/-! ### Conservation -/

/-- The queue is numbered, every number is given once, and what has been pushed is on the
queue or has been taken by a worker that may run it. -/
structure Numbered (m : Tasks W E) : Prop where
  queue : m.entries.map Prod.snd = m.queue
  serials : m.pushed.map Prod.fst = List.range m.serial
  perm : m.pushed.Perm (m.entries++m.dequeued.map Prod.snd)
  pinned : ∀ d ∈ m.dequeued, d.2.2.Here d.1

section numbered
variable {m : Tasks W E}

omit [DecidableEq W] [DecidableEq E] in
theorem numbered_initial : Numbered (initial : Tasks W E) where
  queue := rfl
  serials := rfl
  perm := .nil
  pinned := nofun

omit [DecidableEq W] [DecidableEq E] in
/-- Nothing is pushed and nothing is taken. -/
theorem Numbered.keep (h : Numbered m) {m' : Tasks W E} (hq : m'.queue = m.queue)
    (he : m'.entries = m.entries) (hs : m'.serial = m.serial) (hp : m'.pushed = m.pushed)
    (hd : m'.dequeued = m.dequeued) : Numbered m' where
  queue := by rw [he, hq, h.queue]
  serials := by rw [hp, hs, h.serials]
  perm := by
    rw [hp, he, hd]
    exact h.perm
  pinned := by
    rw [hd]
    exact h.pinned

omit [DecidableEq W] [DecidableEq E] in
theorem Numbered.record (h : Numbered m) (t : Scheduler.Task W) {s : Scheduler W E}
    (hq : s.queue = m.queue++[t]) (vars : ℕ → Option Item) :
    Numbered { m.record t with toScheduler := s, vars } where
  queue := by
    simp [Tasks.record, hq, h.queue]
  serials := by
    simp [Tasks.record, h.serials, List.range_succ]
  perm := by
    have hperm : (m.pushed++[(m.serial,t)]).Perm
        ((m.entries++m.dequeued.map Prod.snd)++[(m.serial,t)]) := h.perm.append_right _
    refine hperm.trans ?_
    simp only [Tasks.record, List.append_assoc]
    exact List.perm_append_comm.append_left _
  pinned := h.pinned

omit [DecidableEq E] in
theorem Numbered.take (h : Numbered m) {s : Scheduler W E} {w : W} {i : ℕ}
    {t : Scheduler.Task W} (ht : m.queue[i]? = some t) (hw : t.Here w)
    (hq : s.queue = m.queue.eraseIdx i) : Numbered (m.take s w i) := by
  obtain ⟨e,he,rfl⟩ : ∃ e, m.entries[i]? = some e ∧ e.2 = t := by
    rw [← h.queue, List.getElem?_map, Option.map_eq_some_iff] at ht
    exact ht
  obtain ⟨hlt,rfl⟩ := List.getElem?_eq_some_iff.mp he
  refine ⟨?_,h.serials,?_,?_⟩
  · show (m.entries.eraseIdx i).map Prod.snd = s.queue
    rw [hq, ← h.queue, List.eraseIdx_map]
  · simp only [Tasks.take, he, Option.toList_some, List.map_append, List.map_cons, List.map_nil]
    have herase := (List.getElem_cons_eraseIdx_perm hlt).symm
    refine h.perm.trans ((herase.append_right _).trans ?_)
    rw [← List.append_assoc]
    exact (List.perm_append_singleton _ _).symm
  · intro d hd
    simp only [Tasks.take, he, Option.toList_some, List.map_cons, List.map_nil,
      List.mem_append, List.mem_singleton] at hd
    rcases hd with hd | rfl
    · exact h.pinned d hd
    · exact hw

theorem Numbered.scheduleNoLock (h : Numbered m) (a : Actor W E) (fc : FiberOrCb)
    (thread : Pin W) : Numbered (m.scheduleNoLock a fc thread) := by
  unfold Tasks.scheduleNoLock
  split
  · exact h.record _ rfl _
  · exact h.keep rfl rfl rfl rfl rfl

theorem Numbered.scheduleRange (h : Numbered m) (a : Actor W E) (range : List ℕ) :
    Numbered (m.scheduleRange a range) := by
  induction range generalizing m with
  | nil => exact h
  | cons x range ih => exact ih (h.scheduleNoLock a (.pointer x) .any)

theorem Numbered.examine (h : Numbered m) {w : W} {i : ℕ} {tickle_me : Bool}
    (hp : m.pc w = .scan i tickle_me) :
    Numbered (m.follow (m.toScheduler.examine w i tickle_me) (.next w)) := by
  have kept : ∀ s : Scheduler W E, s.queue = m.queue → Numbered
      (if s.queue.length < m.queue.length then m.take s w i else { m with toScheduler := s }) := by
    intro s hq
    rw [if_neg (by rw [hq]; exact lt_irrefl _)]
    exact h.keep hq rfl rfl rfl rfl
  simp only [Tasks.follow, hp]
  unfold Scheduler.examine
  split
  · exact kept _ rfl
  · next t ht =>
    have hi := (List.getElem?_eq_some_iff.mp ht).1
    split
    · exact kept _ rfl
    next hhere =>
    split
    · exact kept _ rfl
    · have hlt : (m.queue.eraseIdx i).length < m.queue.length := by
        rw [List.length_eraseIdx_of_lt hi]
        omega
      refine (if_pos hlt).symm ▸ ?_
      exact h.take ht (not_not.mp hhere) rfl

/-- What a statement of the workers preserves. -/
theorem Numbered.run (h : Numbered m) {i : Scheduler.Step W E} {s : Scheduler W E}
    (hi : ∀ a t, i ≠ .schedule a t) (hf : s.failed = false) (hs : Moves m.toScheduler i s) :
    Numbered (m.follow s i) := by
  cases hs with
  | failed => cases hf
  | create | tickle | write | drain => exact h.keep rfl rfl rfl rfl rfl
  | @schedule a t => exact absurd rfl (hi a t)
  | examine _ hp => exact h.examine hp
  | lock _ hp | enterIdle _ hp | swapIn hp | stopping hp | epollWait hp | leaveIdle hp =>
    simp only [Tasks.follow, hp]
    exact h.keep rfl rfl rfl rfl rfl
  | swapOut hp =>
    simp only [Tasks.follow, hp]
    exact h.keep rfl rfl rfl rfl rfl
  | @hold w f cb hp =>
    simp only [Tasks.follow, hp]
    cases cb <;> exact h.keep rfl rfl rfl rfl rfl
  | @dispatch w item _ hp =>
    have hq : (m.toScheduler.dispatch w item).queue = m.queue := by
      unfold Scheduler.dispatch
      split
      · split <;> rfl
      · split
        · split <;> rfl
        · rfl
    cases item with
    | fiber f =>
      simp only [Tasks.follow, hp]
      exact h.keep hq rfl rfl rfl rfl
    | cb =>
      simp only [Tasks.follow, hp]
      split
      · exact h.keep hq rfl rfl rfl rfl
      · exact h.keep hq rfl rfl rfl rfl
  | switch hp =>
    simp only [Tasks.follow, hp, start]
    split
    · exact h.keep rfl rfl rfl rfl rfl
    · exact h.keep rfl rfl rfl rfl rfl
  | @swapped w f cb hp =>
    have hq : (m.toScheduler.swapped w f cb).queue = m.queue := by
      unfold Scheduler.swapped
      split <;> cases cb <;> rfl
    simp only [Tasks.follow, hp]
    split
    · exact h.keep hq rfl rfl rfl rfl
    · exact h.keep hq rfl rfl rfl rfl
  | repush _ hp =>
    simp only [Tasks.follow, hp]
    exact h.record _ rfl _
  | @leave w l f cb hp =>
    cases l with
    | term =>
      simp only [Tasks.follow, hp]
      exact h.keep rfl rfl rfl rfl rfl
    | YieldToHold | YieldToReady | except => exact h.keep rfl rfl rfl rfl rfl

/-- A statement that fails its assertion does nothing else. -/
theorem eq_fail_of_failed {m s : Scheduler W E} {i : Scheduler.Step W E}
    (hm : m.failed = false) (hf : s.failed = true) (hs : Moves m i s) : s = m.fail := by
  have absent : ∀ {p : Prop} {m' : Scheduler W E}, m'.failed = m.failed → m'.failed = true → p :=
    fun he ht => by rw [he, hm] at ht; cases ht
  cases hs with
  | failed => rfl
  | examine =>
    refine absent ?_ hf
    unfold Scheduler.examine
    split
    · rfl
    split
    · rfl
    split <;> rfl
  | @dispatch w item =>
    cases item with
    | fiber f =>
      refine absent ?_ hf
      simp only [Scheduler.dispatch]
      split <;> rfl
    | cb =>
      simp only [Scheduler.dispatch] at hf ⊢
      split at hf
      · next f hcb =>
        split at hf
        · exact absent rfl hf
        · next hr => simp only [if_neg hr]
      · exact absent rfl hf
  | @swapped w f cb =>
    refine absent ?_ hf
    unfold Scheduler.swapped
    split <;> cases cb <;> rfl
  | @hold w f cb => exact absent (by cases cb <;> rfl) hf
  | _ => exact absent rfl hf

theorem step_run {i : Scheduler.Step W E} {m' : Tasks W E} (h : m.step (.run i) = some m') :
    (∀ a t, i ≠ .schedule a t) ∧ ∃ s, Scheduler.step m.toScheduler i = some s ∧
      m' = if s.failed then { m with toScheduler := s } else m.follow s i := by
  cases i with
  | schedule => cases h
  | _ =>
    obtain ⟨s,hs,rfl⟩ := Option.map_eq_some_iff.mp h
    exact ⟨nofun,s,hs,rfl⟩

theorem Numbered.step (h : Numbered m) {i : Step W E} {m' : Tasks W E}
    (hs : m.step i = some m') : Numbered m' := by
  cases i with
  | assign x item =>
    obtain ⟨-,hs⟩ := Option.ite_none_right_eq_some.mp hs
    cases hs
    exact h.keep rfl rfl rfl rfl rfl
  | schedule a fc thread =>
    obtain ⟨-,hs⟩ := Option.ite_none_right_eq_some.mp hs
    cases hs
    exact h.scheduleNoLock a fc thread
  | scheduleRange a range =>
    obtain ⟨-,hs⟩ := Option.ite_none_right_eq_some.mp hs
    cases hs
    exact h.scheduleRange a range
  | run i =>
    obtain ⟨hi,s,ht,rfl⟩ := step_run hs
    split
    · next hf =>
      have hm : m.failed = false := by
        unfold Scheduler.step at ht
        split at ht
        · cases ht
        · next hm => simpa using hm
      rw [eq_fail_of_failed hm hf (step_moves ht)]
      exact h.keep rfl rfl rfl rfl rfl
    · next hf => exact h.run hi (by simpa using hf) (step_moves ht)

/-- Every task that is not empty and has been pushed is on the queue or has been taken, by one
worker, and by its own one if it is pinned. -/
structure Conserved (m : Tasks W E) : Prop where
  pushed : (m.pushed.map Prod.snd).Perm (m.queue++m.dequeued.map fun d => d.2.2)
  once : (m.dequeued.map fun d => d.2.1).Nodup
  pinned : ∀ d ∈ m.dequeued, d.2.2.Here d.1

omit [DecidableEq W] [DecidableEq E] in
theorem Numbered.conserved (h : Numbered m) : Conserved m where
  pushed := by
    have := h.perm.map Prod.snd
    rwa [List.map_append, h.queue, List.map_map] at this
  once := by
    have hall : ((m.entries++m.dequeued.map Prod.snd).map Prod.fst).Nodup := by
      rw [← (h.perm.map Prod.fst).nodup_iff, h.serials]
      exact List.nodup_range
    rw [List.map_append, List.map_map] at hall
    exact hall.of_append_right
  pinned := h.pinned

theorem numbered_of_reachable (h : (machine W E).Reachable m) : Numbered m :=
  h.invariant (fun _ hi => hi ▸ numbered_initial) fun _ _ _ hm _ hs => hm.step hs

end numbered
end Tasks
end CoroutineWebserve
