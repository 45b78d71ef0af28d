import CoroutineWebserve.Scheduler.Model
import Mathlib.Data.Finset.Card
import Mathlib.Data.Fintype.Basic

/-!
# The test for the end of all work

`run` counts itself active while it has taken a task, `stop` sets two flags, and `stopping`
answers whether all is done. The count is taken back as soon as `swapIn` returns, before
`run` puts a fiber that has yielded with `READY` on the queue again: between the two steps
nothing shows that there is work left.
-/
namespace CoroutineWebserve.Scheduler
variable {W E : Type*}

/-- The worker has taken a task, and `swapIn` has not returned from it. -/
def Pc.Active : Pc → Prop
  | .scanned (some _) | .swapIn .. | .switch .. | .running .. | .swapOut .. => True
  | .top | .scan .. | .scanned none | .swapped .. | .hold .. | .repush _ | .stopping
  | .epollWait | .woken => False

/-- Where a worker takes back its count: behind `swapIn`, or when the fiber it has taken was
at its end. -/
def Pc.Decrements : Pc → Prop
  | .top | .swapped .. => True
  | .scan .. | .scanned _ | .swapIn .. | .switch .. | .running .. | .swapOut .. | .hold ..
  | .repush _ | .stopping | .epollWait | .woken => False

/-- The worker has a fiber in hand that has yielded with `READY`, not yet on the queue. -/
def Pc.Returns (fibers : ℕ → Fiber) : Pc → Prop
  | .swapOut f _ | .swapped f _ => (fibers f).state = .READY
  | .repush _ => True
  | .top | .scan .. | .scanned _ | .swapIn .. | .switch .. | .running .. | .hold .. | .stopping
  | .epollWait | .woken => False

instance : DecidablePred Pc.Active
  | .scanned (some _) | .swapIn .. | .switch .. | .running .. | .swapOut .. => isTrue trivial
  | .top | .scan .. | .scanned none | .swapped .. | .hold .. | .repush _ | .stopping
  | .epollWait | .woken => isFalse id

instance : DecidablePred Pc.Decrements
  | .top | .swapped .. => isTrue trivial
  | .scan .. | .scanned _ | .swapIn .. | .switch .. | .running .. | .swapOut .. | .hold ..
  | .repush _ | .stopping | .epollWait | .woken => isFalse id

instance (fibers : ℕ → Fiber) : DecidablePred (Pc.Returns fibers)
  | .swapOut f _ | .swapped f _ => inferInstanceAs (Decidable ((fibers f).state = .READY))
  | .repush _ => isTrue trivial
  | .top | .scan .. | .scanned _ | .swapIn .. | .switch .. | .running .. | .hold .. | .stopping
  | .epollWait | .woken => isFalse id

end Scheduler

/-- The scheduler with the count of its active workers and the two flags of `stop`; `ended`
are the workers whose idle fiber has ended, and `counted` records who has counted itself. -/
structure Shutdown (W E : Type*) extends Scheduler W E where
  activeThreadCount : ℤ
  counted : Finset W
  autoStop : Bool
  isStopping : Bool
  ended : W → Bool

namespace Shutdown
open Scheduler
variable {W E : Type*}

def initial : Shutdown W E where
  toScheduler := Scheduler.initial
  activeThreadCount := 0
  counted := ∅
  autoStop := false
  isStopping := false
  ended _ := false

/-- `Scheduler::stopping` evaluates to true: it needs the mutex. -/
def Stopping (m : Shutdown W E) : Prop :=
  m.lock = none ∧ m.autoStop ∧ m.isStopping ∧ m.queue = [] ∧ m.activeThreadCount = 0

instance [DecidableEq W] (m : Shutdown W E) : Decidable m.Stopping :=
  inferInstanceAs (Decidable (_ ∧ _ ∧ _ ∧ _ ∧ _))

/-- A statement of the workers and the threads that schedule, `--m_activeThreadCount`, the
statements of `stop` in their order, and the end of an idle fiber. -/
inductive Step (W E : Type*)
  | run (i : Scheduler.Step W E)
  | decrement (w : W)
  | autoStop
  | stopping
  | tickle (e : E)
  | endIdle (w : W)

variable [DecidableEq W]

/-- The worker has to take back its count first, or it has left the loop of `run`. -/
def Blocked (m : Shutdown W E) : Scheduler.Step W E → Prop
  | .next w => w ∈ m.counted ∧ (m.pc w).Decrements ∨ m.ended w ∧ m.pc w = .scanned none
  | _ => False

instance (m : Shutdown W E) : DecidablePred m.Blocked
  | .next w => inferInstanceAs (Decidable (w ∈ m.counted ∧ (m.pc w).Decrements ∨ _))
  | .create | .schedule .. | .tickle _ | .write _ | .leave .. | .drain _ => isFalse id

/-- A scan that erases an element counts its worker. -/
def follow (m : Shutdown W E) (s : Scheduler W E) : Scheduler.Step W E → Shutdown W E
  | .next w =>
    if s.queue.length < m.queue.length then
      { m with toScheduler := s
               activeThreadCount := m.activeThreadCount+1
               counted := insert w m.counted }
    else { m with toScheduler := s }
  | _ => { m with toScheduler := s }

variable [DecidableEq E]

def step (m : Shutdown W E) : Step W E → Option (Shutdown W E)
  | .run i => if m.Blocked i then none else (Scheduler.step m.toScheduler i).map (m.follow · i)
  | .decrement w =>
    if w ∈ m.counted ∧ (m.pc w).Decrements then
      some { m with activeThreadCount := m.activeThreadCount-1, counted := m.counted.erase w }
    else none
  | .autoStop => some { m with autoStop := true }
  | .stopping => if m.autoStop then some { m with isStopping := true } else none
  | .tickle e =>
    if m.isStopping ∧ m.stage (.caller e) = .done then
      some { m with toScheduler := m.toScheduler.setStage (.caller e) .check }
    else none
  | .endIdle w =>
    if m.pc w = .stopping ∧ m.Stopping then
      some { m with toScheduler := { m.toScheduler.goto w .top with
                      idleThreadCount := m.idleThreadCount-1 }
                    ended := Function.update m.ended w true }
    else none

variable (W E) in
def machine : Transition.Machine (Shutdown W E) (Step W E) where
  init m := m = initial
  step := step

/-- `stop` completes its flags while no worker has a `READY` fiber in hand, and no fiber
yields with `READY` afterwards. -/
def NoneReady (m : Shutdown W E) : Step W E → Prop
  | .run (.leave _ .YieldToReady) => m.isStopping = false
  | .stopping => ∀ w, ¬(m.pc w).Returns m.fibers
  | _ => True

omit [DecidableEq W] [DecidableEq E] in
instance [Fintype W] (m : Shutdown W E) : DecidablePred m.NoneReady
  | .run (.leave _ .YieldToReady) => inferInstanceAs (Decidable (m.isStopping = false))
  | .stopping => inferInstanceAs (Decidable (∀ w, ¬(m.pc w).Returns m.fibers))
  | .run (.leave _ .YieldToHold) | .run (.leave _ .term) | .run (.leave _ .except) | .run .create
  | .run (.schedule ..) | .run (.tickle _) | .run (.write _) | .run (.next _) | .run (.drain _)
  | .decrement _ | .autoStop | .tickle _ | .endIdle _ => isTrue trivial

/-! ### Who is counted -/

section counting
variable {activeThreadCount : ℤ} {counted : Finset W} {pc : W → Pc}

/-- The count is the number of the counted workers: all that handle a task they have taken,
and otherwise only some that come to take their count back. -/
structure Counting (activeThreadCount : ℤ) (counted : Finset W) (pc : W → Pc) : Prop where
  count : activeThreadCount = counted.card
  active : ∀ w, (pc w).Active → w ∈ counted
  placed : ∀ w ∈ counted, (pc w).Active ∨ (pc w).Decrements

/-- A worker moves without a change of the count. -/
theorem Counting.goto (h : Counting activeThreadCount counted pc) {w : W} {pc' : Pc}
    (hactive : pc'.Active → w ∈ counted)
    (hplaced : w ∈ counted → pc'.Active ∨ pc'.Decrements) :
    Counting activeThreadCount counted (Function.update pc w pc') where
  count := h.count
  active u hu := by
    by_cases he : u = w
    · subst he
      exact hactive (by simpa using hu)
    · exact h.active u (by simpa [he] using hu)
  placed u hu := by
    by_cases he : u = w
    · subst he
      simpa using hplaced hu
    · simpa [he] using h.placed u hu

/-- A worker moves that is not counted, to where it is not active. -/
theorem Counting.free (h : Counting activeThreadCount counted pc) {w : W} {old pc' : Pc}
    (hw : pc w = old) (hold : ¬old.Active ∧ ¬old.Decrements) (hnew : ¬pc'.Active) :
    Counting activeThreadCount counted (Function.update pc w pc') :=
  h.goto (fun ha => absurd ha hnew) fun hc => (h.placed w hc).elim
    (fun ha => absurd (hw ▸ ha) hold.1) fun hd => absurd (hw ▸ hd) hold.2

/-- An active worker goes on. -/
theorem Counting.goOn (h : Counting activeThreadCount counted pc) {w : W} {old pc' : Pc}
    (hw : pc w = old) (hold : old.Active) (hnew : pc'.Active ∨ pc'.Decrements) :
    Counting activeThreadCount counted (Function.update pc w pc') :=
  h.goto (fun _ => h.active w (hw ▸ hold)) fun _ => hnew

/-- A worker that has taken a task counts itself. -/
theorem Counting.increment (h : Counting activeThreadCount counted pc) {w : W} {old pc' : Pc}
    (hw : pc w = old) (hold : ¬old.Active ∧ ¬old.Decrements) (hnew : pc'.Active) :
    Counting (activeThreadCount+1) (insert w counted) (Function.update pc w pc') where
  count := by
    have hnot : w ∉ counted := fun hc => (h.placed w hc).elim
      (fun ha => hold.1 (hw ▸ ha)) fun hd => hold.2 (hw ▸ hd)
    rw [Finset.card_insert_of_notMem hnot, h.count]
    rfl
  active u hu := by
    by_cases he : u = w
    · exact he ▸ Finset.mem_insert_self ..
    · exact Finset.mem_insert_of_mem (h.active u (by simpa [he] using hu))
  placed u hu := by
    by_cases he : u = w
    · subst he
      exact .inl (by simpa using hnew)
    · have := h.placed u ((Finset.mem_insert.mp hu).resolve_left he)
      simpa [he] using this

/-- A worker that is not active takes back its count. -/
theorem Counting.decrement (h : Counting activeThreadCount counted pc) {w : W}
    (hw : w ∈ counted) (hold : (pc w).Decrements) :
    Counting (activeThreadCount-1) (counted.erase w) pc where
  count := by
    have hpos : 0 < counted.card := Finset.card_pos.mpr ⟨w,hw⟩
    rw [Finset.card_erase_of_mem hw, h.count]
    omega
  active u hu := by
    have hne : u ≠ w := by
      rintro rfl
      cases hp : pc u <;> simp_all [Pc.Active, Pc.Decrements]
    exact Finset.mem_erase.mpr ⟨hne,h.active u hu⟩
  placed u hu := h.placed u (Finset.mem_of_mem_erase hu)

end counting

abbrev Counted (m : Shutdown W E) : Prop := Counting m.activeThreadCount m.counted m.pc

section counted
variable {m : Shutdown W E}

omit [DecidableEq E] in
/-- A step that takes nothing off the queue leaves the count as it is. -/
theorem Counted.keep {s : Scheduler W E} {i : Scheduler.Step W E}
    (hle : m.queue.length ≤ s.queue.length)
    (h : Counting m.activeThreadCount m.counted s.pc) : Counted (m.follow s i) := by
  cases i with
  | next w =>
    rw [follow, if_neg (Nat.not_lt.mpr hle)]
    exact h
  | create | schedule | tickle | write | leave | drain => exact h

omit [DecidableEq E] in
theorem Counted.take {s : Scheduler W E} {w : W} (hlt : s.queue.length < m.queue.length)
    (h : Counting (m.activeThreadCount+1) (insert w m.counted) s.pc) :
    Counted (m.follow s (.next w)) := by
  rw [follow, if_pos hlt]
  exact h

theorem push_queue_length (s : Scheduler W E) (a : Actor W E) (t : Scheduler.Task W) :
    s.queue.length ≤ (s.push a t).queue.length := by
  rw [push, List.length_append]
  exact Nat.le_add_right ..

theorem Counted.examine (h : Counted m) {w : W} {i : ℕ} {tickle_me : Bool}
    (hp : m.pc w = .scan i tickle_me) :
    Counted (m.follow (m.toScheduler.examine w i tickle_me) (.next w)) := by
  have hscan : ¬(Pc.scan i tickle_me).Active ∧ ¬(Pc.scan i tickle_me).Decrements := ⟨id,id⟩
  unfold Scheduler.examine
  split
  · exact .keep le_rfl (h.free hp hscan id)
  · next t ht =>
    have hi := (List.getElem?_eq_some_iff.mp ht).1
    split
    · exact .keep le_rfl (h.free hp hscan id)
    split
    · exact .keep le_rfl (h.free hp hscan id)
    · have hlt : (m.queue.eraseIdx i).length < m.queue.length := by
        rw [List.length_eraseIdx_of_lt hi]
        omega
      have hactive : (Pc.scanned (some t.item)).Active := trivial
      exact .take hlt (h.increment hp hscan hactive)

omit [DecidableEq E] in
theorem Counted.dispatch (h : Counted m) {w : W} {item : Item}
    (hp : m.pc w = .scanned (some item)) :
    Counted (m.follow (m.toScheduler.dispatch w item) (.next w)) := by
  cases item with
  | fiber f =>
    simp only [Scheduler.dispatch]
    split
    · exact .keep le_rfl (h.goOn hp trivial (.inr trivial))
    · exact .keep le_rfl (h.goOn hp trivial (.inl trivial))
  | cb =>
    simp only [Scheduler.dispatch]
    split
    · split
      · exact .keep le_rfl (h.goOn hp trivial (.inl trivial))
      · exact .keep le_rfl h
    · exact .keep le_rfl (h.goOn hp trivial (.inl trivial))

omit [DecidableEq E] in
theorem Counted.swapped (h : Counted m) {w : W} {f : ℕ} {cb : Bool} (hw : w ∉ m.counted) :
    Counted (m.follow (m.toScheduler.swapped w f cb) (.next w)) := by
  have go : ∀ {pc' : Pc}, ¬pc'.Active → Counting m.activeThreadCount m.counted
      (Function.update m.pc w pc') := fun hn => h.goto (fun ha => absurd ha hn) fun hc =>
    absurd hc hw
  unfold Scheduler.swapped
  split <;> cases cb <;> exact .keep le_rfl (go id)

/-- What a step of the workers preserves. -/
theorem Counted.run (h : Counted m) {i : Scheduler.Step W E} {s : Scheduler W E}
    (hb : ¬m.Blocked i) (hs : Moves m.toScheduler i s) : Counted (m.follow s i) := by
  have free : ∀ {w}, i = .next w → (m.pc w).Decrements → w ∉ m.counted := by
    rintro w rfl hd hc
    exact hb (.inl ⟨hc,hd⟩)
  cases hs with
  | failed | create | tickle | write | drain => exact .keep le_rfl h
  | schedule => exact .keep (push_queue_length ..) h
  | lock hs hp hl =>
    refine .keep le_rfl (h.goto (fun ha => absurd ha id) fun hc => ?_)
    exact absurd hc (free rfl (by rw [hp]; trivial))
  | examine _ hp => exact h.examine hp
  | dispatch _ hp => exact h.dispatch hp
  | enterIdle _ hp => exact .keep le_rfl (h.free hp ⟨id,id⟩ id)
  | stopping hp => exact .keep le_rfl (h.free hp ⟨id,id⟩ id)
  | epollWait hp => exact .keep le_rfl (h.free hp ⟨id,id⟩ id)
  | leaveIdle hp => exact .keep le_rfl (h.free hp ⟨id,id⟩ id)
  | @hold w f cb hp => cases cb <;> exact .keep le_rfl (h.free hp ⟨id,id⟩ id)
  | swapIn hp => exact .keep le_rfl (h.goOn hp trivial (.inl trivial))
  | switch hp => exact .keep le_rfl (h.goOn hp trivial (.inl trivial))
  | leave hp => exact .keep le_rfl (h.goOn hp trivial (.inl trivial))
  | swapOut hp => exact .keep le_rfl (h.goOn hp trivial (.inr trivial))
  | swapped hp => exact h.swapped (free rfl (by rw [hp]; trivial))
  | @repush w f _ hp =>
    exact .keep (push_queue_length _ (.worker w) _) (h.free hp ⟨id,id⟩ id)

theorem Counted.step (h : Counted m) {i : Step W E} {m' : Shutdown W E}
    (hs : m.step i = some m') : Counted m' := by
  cases i with
  | run i =>
    obtain ⟨hb,hs⟩ := Option.ite_none_left_eq_some.mp hs
    obtain ⟨s,ht,rfl⟩ := Option.map_eq_some_iff.mp hs
    exact h.run hb (step_moves ht)
  | decrement w =>
    obtain ⟨⟨hw,hd⟩,hs⟩ := Option.ite_none_right_eq_some.mp hs
    cases hs
    exact h.decrement hw hd
  | autoStop =>
    cases hs
    exact h
  | stopping | tickle =>
    obtain ⟨-,hs⟩ := Option.ite_none_right_eq_some.mp hs
    cases hs
    exact h
  | endIdle w =>
    obtain ⟨⟨hp,-⟩,hs⟩ := Option.ite_none_right_eq_some.mp hs
    cases hs
    exact h.free hp ⟨id,id⟩ id

end counted

/-! ### No fiber in hand once the flags are set -/

section settled
variable {fibers : ℕ → Fiber} {pc : W → Pc}

/-- No worker has a fiber in hand that has yielded with `READY`. -/
def NoReturn (fibers : ℕ → Fiber) (pc : W → Pc) : Prop := ∀ w, ¬(pc w).Returns fibers

theorem NoReturn.goto (h : NoReturn fibers pc) (w : W) {pc' : Pc} (hp : ¬pc'.Returns fibers) :
    NoReturn fibers (Function.update pc w pc') := by
  intro u
  by_cases he : u = w
  · subst he
    simpa using hp
  · simpa [he] using h u

omit [DecidableEq W] in
/-- A fiber changes that does not become `READY`. -/
theorem NoReturn.update (h : NoReturn fibers pc) {f : ℕ} {x : Fiber}
    (hx : x.state = .READY → (fibers f).state = .READY) :
    NoReturn (Function.update fibers f x) pc := by
  have keep : ∀ g, (Function.update fibers f x g).state = .READY → (fibers g).state = .READY := by
    intro g hg
    by_cases he : g = f
    · subst he
      exact hx (by simpa using hg)
    · simpa [he] using hg
  intro u hu
  apply h u
  cases hp : pc u with
  | swapOut g cb => rw [hp] at hu; exact keep g hu
  | swapped g cb => rw [hp] at hu; exact keep g hu
  | repush g => trivial
  | _ => rw [hp] at hu; exact hu

/-- A worker goes on with a fiber that is not `READY` any more, or was not so before. -/
theorem NoReturn.handle (h : NoReturn fibers pc) (w : W) (f : ℕ) {x : Fiber} {pc' : Pc}
    (hx : x.state ≠ .READY) (hp : pc'.Returns (Function.update fibers f x) → 
      (Function.update fibers f x f).state = .READY) :
    NoReturn (Function.update fibers f x) (Function.update pc w pc') := by
  refine (h.update fun hr => absurd hr hx).goto w fun hr => hx ?_
  simpa using hp hr

end settled

/-- The flags of `stop` are complete only when no fiber is in hand. -/
def Settled (m : Shutdown W E) : Prop := m.isStopping = true → NoReturn m.fibers m.pc

section settled
variable {m : Scheduler W E}

omit [DecidableEq E] in
theorem NoReturn.dispatch (h : NoReturn m.fibers m.pc) (w : W) (item : Item) :
    NoReturn (m.dispatch w item).fibers (m.dispatch w item).pc := by
  have hnew : Fiber.new.state ≠ .READY := by decide
  cases item with
  | fiber f =>
    simp only [Scheduler.dispatch]
    split <;> exact h.goto _ id
  | cb =>
    simp only [Scheduler.dispatch]
    split
    · split
      · exact h.handle w _ hnew False.elim
      · exact h
    · exact h.handle w _ hnew False.elim

omit [DecidableEq E] in
theorem NoReturn.swapped (h : NoReturn m.fibers m.pc) {w : W} {f : ℕ} {cb : Bool}
    (hp : m.pc w = .swapped f cb) : NoReturn (m.swapped w f cb).fibers (m.swapped w f cb).pc := by
  have hready : (m.fibers f).state ≠ .READY := by
    have := h w
    rwa [hp] at this
  have hnew : Fiber.new.state ≠ .READY := by decide
  unfold Scheduler.swapped
  split
  · next hr => exact absurd hr hready
  · cases cb <;> [exact h.goto _ id; exact h.handle w f hnew False.elim]
  · cases cb <;> [exact h.goto _ id; exact h.handle w f hnew False.elim]
  all_goals exact h.goto _ id

/-- What a step of the workers does to the fibers in hand. -/
theorem NoReturn.run (h : NoReturn m.fibers m.pc) {i : Scheduler.Step W E} {s : Scheduler W E}
    (hg : ∀ w, i ≠ .leave w .YieldToReady) (hs : Moves m i s) : NoReturn s.fibers s.pc := by
  cases hs with
  | failed | schedule | tickle | write | drain => exact h
  | create => exact h.update fun hr => absurd hr (by decide)
  | lock | enterIdle | stopping | epollWait | leaveIdle | repush => exact h.goto _ id
  | examine =>
    unfold Scheduler.examine
    split
    · exact h.goto _ id
    split
    · exact h.goto _ id
    split <;> exact h.goto _ id
  | dispatch => exact h.dispatch _ _
  | @swapIn w f => exact h.handle w f (by simp) False.elim
  | @switch w f =>
    have hkeep : NoReturn (Function.update m.fibers f { m.fibers f with ctx := .live }) m.pc :=
      h.update id
    exact hkeep.goto w id
  | @leave w l f cb hp =>
    have hl : l.state ≠ .READY := by
      cases l with
      | YieldToReady => exact absurd rfl (hg w)
      | YieldToHold | term | except => decide
    exact h.handle w f hl id
  | @swapOut w f cb hp =>
    have hready : (m.fibers f).state ≠ .READY := by
      have := h w
      rwa [hp] at this
    exact h.handle w f hready id
  | swapped hp => exact h.swapped hp
  | @hold w f cb =>
    cases cb <;> exact h.handle w f (x := ⟨.HOLD,(m.fibers f).ctx⟩) (by simp) False.elim

end settled

section runs
variable {m : Shutdown W E}

omit [DecidableEq E] in
theorem follow_toScheduler (m : Shutdown W E) (s : Scheduler W E) (i : Scheduler.Step W E) :
    (m.follow s i).toScheduler = s ∧ (m.follow s i).isStopping = m.isStopping := by
  cases i with
  | next w =>
    rw [follow]
    split <;> exact ⟨rfl,rfl⟩
  | create | schedule | tickle | write | leave | drain => exact ⟨rfl,rfl⟩

theorem Settled.step (h : Settled m) {i : Step W E} {m' : Shutdown W E} (hg : m.NoneReady i)
    (hs : m.step i = some m') : Settled m' := by
  cases i with
  | run i =>
    obtain ⟨-,hs⟩ := Option.ite_none_left_eq_some.mp hs
    obtain ⟨s,ht,rfl⟩ := Option.map_eq_some_iff.mp hs
    obtain ⟨hsched,hflag⟩ := follow_toScheduler m s i
    intro hstop
    rw [hflag] at hstop
    rw [hsched]
    refine (h hstop).run ?_ (step_moves ht)
    rintro w rfl
    exact absurd hstop (by rw [show m.isStopping = false from hg]; simp)
  | decrement | tickle =>
    obtain ⟨-,hs⟩ := Option.ite_none_right_eq_some.mp hs
    cases hs
    exact h
  | autoStop =>
    cases hs
    exact h
  | stopping =>
    obtain ⟨-,hs⟩ := Option.ite_none_right_eq_some.mp hs
    cases hs
    exact fun _ => hg
  | endIdle w =>
    obtain ⟨-,hs⟩ := Option.ite_none_right_eq_some.mp hs
    cases hs
    exact fun hstop => (h hstop).goto w id

/-- A worker holds work: a task that it has taken and not left again, or a fiber to be put
back on the queue. -/
def HoldsWork (m : Shutdown W E) (w : W) : Prop :=
  (m.pc w).Active ∨ (m.pc w).Returns m.fibers

/-- The count has not wrapped around, and `stopping` answers true only when there is no work,
neither on the queue nor in a worker's hands. -/
structure Sound (m : Shutdown W E) : Prop where
  nonneg : 0 ≤ m.activeThreadCount
  stopping : m.Stopping → m.queue = [] ∧ ∀ w, ¬m.HoldsWork w

/-- While `stop` finds no fiber on its way back to the queue, and none yields with `READY`
after it, a true answer of `stopping` means that all is done. -/
theorem stopping_sound (h : (machine W E).Reaches NoneReady m) : Sound m := by
  have hinv : Counted m ∧ Settled m := by
    refine h.invariant (I := fun m => Counted m ∧ Settled m) ?_ ?_
    · rintro _ rfl
      exact ⟨⟨rfl,fun _ => False.elim,nofun⟩,nofun⟩
    · exact fun _ _ _ hm hg hs => ⟨hm.1.step hs,hm.2.step hg hs⟩
  obtain ⟨hcounted,hsettled⟩ := hinv
  refine ⟨by rw [hcounted.count]; exact Int.natCast_nonneg _,?_⟩
  rintro ⟨-,-,hstop,hqueue,hzero⟩
  have hnone : m.counted = ∅ := by
    rw [hcounted.count, Int.natCast_eq_zero] at hzero
    exact Finset.card_eq_zero.mp hzero
  refine ⟨hqueue,fun w hw => hw.elim (fun ha => ?_) (hsettled hstop w)⟩
  have := hcounted.active w ha
  simp [hnone] at this

/-- A callback runs to its end, `stop` is called, and the idle fiber finds all done. -/
theorem stopping_sound_one : ∃ m : Shutdown (Fin 1) (Fin 1), m.Stopping ∧ Sound m := by
  obtain ⟨m,hm,hstop⟩ := Transition.Machine.exists_reaches (M := machine (Fin 1) (Fin 1))
    (G := NoneReady) rfl
    [.run (.schedule (.caller 0) ⟨.cb,.any⟩),.run (.tickle (.caller 0)),.run (.next 0),
      .run (.next 0),.run (.next 0),.run (.next 0),.run (.next 0),.autoStop,.stopping,
      .run (.leave 0 .term),.run (.next 0),.decrement 0,.run (.next 0)]
    Stopping (by decide) (by decide)
  exact ⟨m,hstop,stopping_sound hm⟩

/-- The callback yields with `READY` instead: between `--m_activeThreadCount` and `schedule`
the test is true. -/
theorem stopping_with_fiber_in_hand : ¬∀ m : Shutdown (Fin 1) (Fin 1),
    (machine (Fin 1) (Fin 1)).Reachable m → Sound m := by
  intro h
  obtain ⟨m,hm,hstop,hwork⟩ := Transition.Machine.exists_reaches
    (M := machine (Fin 1) (Fin 1)) rfl
    [.run (.schedule (.caller 0) ⟨.cb,.any⟩),.run (.tickle (.caller 0)),.run (.next 0),
      .run (.next 0),.run (.next 0),.run (.next 0),.run (.next 0),.autoStop,.stopping,
      .run (.leave 0 .YieldToReady),.run (.next 0),.decrement 0]
    (fun m => m.Stopping ∧ (m.pc 0).Returns m.fibers)
    (Transition.Machine.guarded_true ..) (by decide)
  exact ((h m hm).stopping hstop).2 0 (.inr hwork)

end runs
end Shutdown
end CoroutineWebserve
