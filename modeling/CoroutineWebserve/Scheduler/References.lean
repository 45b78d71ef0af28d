import CoroutineWebserve.Scheduler.Callbacks

/-!
# What a fiber on the queue stands for

A task puts `Fiber::GetThis()` on the queue, or leaves it with a timer or an event that does so
later. The queue element names the fiber alone, and `run` resets its callback fiber for other
tasks. The tasks of every fiber are numbered here, and references carry the number of the task
that took them.
-/
namespace CoroutineWebserve.Scheduler

/-- The fiber of the queue element that a worker has taken and not yet entered. -/
def Pc.carries : Pc → Option ℕ
  | .scanned (some (.fiber f)) | .swapIn f false | .switch f false => some f
  | .top | .scan .. | .scanned none | .scanned (some .cb) | .swapIn _ true | .switch _ true
  | .running .. | .swapOut .. | .swapped .. | .hold .. | .repush _ | .stopping | .epollWait
  | .woken => none

/-- The fiber that a worker has entered and is not yet through with. -/
def Pc.engages : Pc → Option ℕ
  | .running f _ | .swapOut f _ | .swapped f _ | .hold f _ | .repush f => some f
  | .top | .scan .. | .scanned _ | .swapIn .. | .switch .. | .stopping | .epollWait
  | .woken => none

/-- `MainFunc` is through with the fiber's callback. -/
def State.Ended (s : State) : Prop := s = .TERM ∨ s = .EXCEPT

instance (s : State) : Decidable s.Ended := inferInstanceAs (Decidable (_ ∨ _))

theorem Pc.way_busyWith {p : Pc} {f : ℕ} (h : p.way = .fiber f) : p.busyWith = some f := by
  cases p with
  | swapIn g cb | switch g cb => cases cb <;> simp_all [Pc.way, Pc.busyWith]
  | scanned item => rcases item with _ | _ | _ <;> simp_all [Pc.way]
  | _ => simp_all [Pc.way]

theorem Pc.names_of_carries {p : Pc} {f : ℕ} (h : p.carries = some f) : p.names = some f := by
  cases p with
  | swapIn g cb | switch g cb => cases cb <;> simp_all [Pc.carries, Pc.names]
  | scanned item => rcases item with _ | _ | _ <;> simp_all [Pc.carries, Pc.names]
  | _ => simp_all [Pc.carries]

theorem Pc.names_of_engages {p : Pc} {f : ℕ} (h : p.engages = some f) : p.names = some f := by
  cases p <;> simp_all [Pc.engages, Pc.names]

theorem Pc.handles_of_busyWith {p : Pc} {f : ℕ} (h : p.busyWith = some f)
    (hway : p.way ≠ .fiber f) : p.handles = some f := by
  cases p with
  | swapIn _ cb | switch _ cb | running _ cb | swapOut _ cb | swapped _ cb | hold _ cb =>
    cases cb <;> simp_all [Pc.busyWith, Pc.handles, Pc.way]
  | _ => simp_all [Pc.busyWith]

/-- A worker that handles a fiber is on the way with its callback, or brings a queue element, or
has entered the fiber. -/
theorem Pc.of_handles {p : Pc} {f : ℕ} (h : p.handles = some f) :
    p.way = .fiber f ∨ p.carries = some f ∨ p.engages = some f := by
  cases p with
  | switch g cb => cases cb <;> simp_all [Pc.handles, Pc.way, Pc.carries, Pc.engages]
  | _ => simp_all [Pc.handles, Pc.way, Pc.carries, Pc.engages]

end Scheduler

/-- The tasks with what is known of the fibers that hold them. `generation` counts the callbacks
put into a fiber, `current` is the number of the last one, if `reset` has not put `nullptr` in
its place. `m_cb` has the number of the callback in the fiber, `suspended` that of the task whose
registers are saved in `m_ctx`, and `ran` that of the task a worker has entered last. `held` are
the references that have been taken, with the number of the task that was executing in the
fiber, `captured` are the numbers of those on the queue, by the serial number of their element. -/
structure References (W E : Type*) extends Tasks W E where
  generation : ℕ → ℕ
  current : ℕ → Option ℕ
  m_cb : ℕ → Option ℕ
  suspended : ℕ → Option ℕ
  ran : W → Option ℕ
  held : List (ℕ × ℕ)
  captured : ℕ → Option ℕ
  ended : List (ℕ × ℕ)

namespace References
open Scheduler
variable {W E : Type*}

def initial : References W E where
  toTasks := Tasks.initial
  generation _ := 0
  current _ := none
  m_cb _ := none
  suspended _ := none
  ran _ := none
  held := []
  captured _ := none
  ended := []

/-- The task that runs when the fiber's context is loaded: a context that `makecontext` has made
calls `m_cb`. -/
def loaded (m : References W E) (f : ℕ) : Option ℕ :=
  if (m.fibers f).ctx = .fresh then m.m_cb f else m.suspended f

/-- The constructor of `Fiber` or `reset` puts a callback into the fiber. -/
def place (m : References W E) (f : ℕ) : References W E :=
  { m with
    generation := Function.update m.generation f (m.generation f+1)
    current := Function.update m.current f (some (m.generation f))
    m_cb := Function.update m.m_cb f (some (m.generation f)) }

/-- `reset(nullptr)`. -/
def clear (m : References W E) (f : ℕ) : References W E :=
  { m with
    current := Function.update m.current f none
    m_cb := Function.update m.m_cb f none }

inductive Step (W E : Type*)
  | capture (w : W)
  | schedule (a : Actor W E) (f g : ℕ) (thread : Pin W)
  | scheduleCb (a : Actor W E) (thread : Pin W)
  | run (i : Scheduler.Step W E)

variable [DecidableEq W] [DecidableEq E]

/-- What a statement of `run` or of a fiber that leads to `t` does with the tasks of fibers. -/
def follow (m : References W E) (t : Tasks W E) : Scheduler.Step W E → References W E
  | .create =>
    { m.place m.created with
      toTasks := t, held := m.held++[(m.created,m.generation m.created)] }
  | .next w =>
    match m.pc w with
    | .scanned (some .cb) =>
      match t.pc w with
      | .swapIn f _ => { m.place f with toTasks := t }
      | _ => { m with toTasks := t }
    | .switch f _ => { m with toTasks := t, ran := Function.update m.ran w (m.loaded f) }
    | .swapOut f _ =>
      { m with toTasks := t, suspended := Function.update m.suspended f (m.ran w) }
    | .swapped f cb =>
      if cb ∧ (m.fibers f).state.Ended then { m.clear f with toTasks := t }
      else { m with toTasks := t }
    | .repush f =>
      { m with
        toTasks := t
        held := m.held++(m.ran w).toList.map fun g => (f,g)
        captured := Function.update m.captured m.serial (m.ran w) }
    | _ => { m with toTasks := t }
  | .leave w l =>
    match m.pc w with
    | .running f _ =>
      match l with
      | .term =>
        { m with
          toTasks := t
          m_cb := Function.update m.m_cb f none
          ended := m.ended++(m.ran w).toList.map fun g => (f,g) }
      | .except =>
        { m with toTasks := t, ended := m.ended++(m.ran w).toList.map fun g => (f,g) }
      | .YieldToHold | .YieldToReady => { m with toTasks := t }
    | _ => { m with toTasks := t }
  | _ => { m with toTasks := t }

/-- A reference is captured by the task that executes, and put on the queue at any later time,
by any thread that may call `schedule`. -/
def step (m : References W E) : Step W E → Option (References W E)
  | .capture w =>
    match m.pc w with
    | .running f _ =>
      if m.failed then none
      else some { m with held := m.held++(m.ran w).toList.map fun g => (f,g) }
    | _ => none
  | .schedule a f g thread =>
    if m.held.contains (f,g) then
      (m.toTasks.step (.schedule a (.value (some (.fiber f))) thread)).map fun t =>
        { m with toTasks := t, captured := Function.update m.captured m.serial (some g) }
    else none
  | .scheduleCb a thread =>
    (m.toTasks.step (.schedule a (.value (some .cb)) thread)).map fun t => { m with toTasks := t }
  | .run i => (m.toTasks.step (.run i)).map fun t =>
    if t.failed then { m with toTasks := t } else m.follow t i

variable (W E) in
def machine : Transition.Machine (References W E) (Step W E) where
  init m := m = initial
  step := step

/-- A worker that enters a fiber for a queue element loads the task that took the reference, and
that task has not ended; a worker that drops a queue element does so because the task has ended;
a worker that enters its callback fiber starts a callback. -/
structure Resumes (m : References W E) : Prop where
  reference : ∀ w f, m.pc w = .switch f false → ∃ k g, m.hand w = some k ∧
    m.captured k = some g ∧ m.loaded f = some g ∧ (f,g) ∉ m.ended
  dropped : ∀ w f, m.pc w = .scanned (some (.fiber f)) → (m.fibers f).state.Ended →
    ∃ k g, m.hand w = some k ∧ m.captured k = some g ∧ (f,g) ∈ m.ended
  callback : ∀ w f, m.pc w = .switch f true →
    (m.fibers f).ctx = .fresh ∧ ∃ g, m.loaded f = some g ∧ (f,g) ∉ m.ended

/-- `swapIn` finds a task that has not ended, and `reset(nullptr)` a fiber to which no queue
element refers, nor one that a worker has taken. -/
def Unreferenced (m : Scheduler W E) : Pc → Prop
  | .swapIn f _ => ¬(m.fibers f).state.Ended
  | .swapped f true => (m.fibers f).state.Ended →
    (∀ t ∈ m.queue, t.item ≠ .fiber f) ∧ ∀ u, (m.pc u).carries ≠ some f
  | _ => True

/-- References are put on the queue only while their task is the one in the fiber, and no fiber
is taken from under a reference. -/
def Faithful (m : References W E) : Step W E → Prop
  | .schedule _ f g _ => m.current f = some g
  | .run (.next w) => SwapInAlone m.toScheduler (.next w) ∧ Unreferenced m.toScheduler (m.pc w)
  | _ => True

instance [Fintype W] (m : Scheduler W E) : ∀ p, Decidable (Unreferenced m p)
  | .swapIn .. => inferInstanceAs (Decidable (¬_))
  | .swapped _ true => inferInstanceAs (Decidable (_ → _ ∧ _))
  | .top | .scan .. | .scanned _ | .switch .. | .running .. | .swapOut .. | .swapped _ false
  | .hold .. | .repush _ | .stopping | .epollWait | .woken => isTrue trivial

instance [Fintype W] (m : References W E) : ∀ i, Decidable (m.Faithful i)
  | .schedule .. => inferInstanceAs (Decidable (_ = _))
  | .run (.next _) => inferInstanceAs (Decidable (_ ∧ _))
  | .capture _ | .scheduleCb .. | .run .create | .run (.schedule ..) | .run (.tickle _)
  | .run (.write _) | .run (.leave ..) | .run (.drain _) => isTrue trivial

/-! ### Callback fibers -/

section owned
omit [DecidableEq W] [DecidableEq E]

/-- Workers are busy with their own callback fibers, and a callback fiber is entered only by its
owner; one that is not in use is empty. -/
structure Owned (pc : W → Pc) (cb_fiber : W → Option ℕ) (current : ℕ → Option ℕ)
    (fibers : ℕ → Fiber) : Prop where
  own : ∀ w f, (pc w).busyWith = some f → cb_fiber w = some f
  one : ∀ u w f, cb_fiber u = some f → cb_fiber w = some f → u = w
  sole : ∀ u w f, cb_fiber w = some f → (pc u).engages = some f → (pc u).busyWith = some f
  spare : ∀ w f, cb_fiber w = some f → (pc w).busyWith ≠ some f →
    current f = none ∧ (fibers f).state = .INIT

namespace Owned
variable {pc : W → Pc} {cb_fiber : W → Option ℕ} {current : ℕ → Option ℕ} {fibers : ℕ → Fiber}

/-- A worker whose callback fiber is not empty is busy with it. -/
theorem busy (h : Owned pc cb_fiber current fibers) {w : W} {f g : ℕ}
    (hcb : cb_fiber w = some f) (hg : current f = some g) : (pc w).busyWith = some f := by
  by_contra hno
  rw [(h.spare w f hcb hno).1] at hg
  cases hg

variable [DecidableEq W] {w : W} {p : Pc}

/-- A worker goes on, and changes at most a fiber that is in use. -/
theorem goOn (h : Owned pc cb_fiber current fibers) {fibers' : ℕ → Fiber}
    (hb : p.busyWith = (pc w).busyWith)
    (he : ∀ f, p.engages = some f → (pc w).engages = some f ∨ p.busyWith = some f ∨
      ∀ u, cb_fiber u ≠ some f)
    (hf : ∀ f, current f = none → fibers' f = fibers f) :
    Owned (Function.update pc w p) cb_fiber current fibers' := by
  have hbusy : ∀ u, (Function.update pc w p u).busyWith = (pc u).busyWith := by
    intro u
    by_cases huw : u = w
    · rw [huw, Function.update_self, hb]
    · rw [Function.update_of_ne huw]
  refine ⟨fun u f hu => h.own u f (hbusy u ▸ hu),h.one,fun u v f hv hu => ?_,fun u f hu hno => ?_⟩
  · rw [hbusy]
    by_cases huw : u = w
    · subst huw
      rw [Function.update_self] at hu
      rcases he f hu with hold | hnew | hnone
      · exact h.sole u v f hv hold
      · rw [← hb, hnew]
      · exact absurd hv (hnone v)
    · exact h.sole u v f hv (by rwa [Function.update_of_ne huw] at hu)
  · obtain ⟨hcurrent,hstate⟩ := h.spare u f hu (hbusy u ▸ hno)
    exact ⟨hcurrent,by rw [hf f hcurrent, hstate]⟩

/-- A worker gives its callback fiber away. -/
theorem drop (h : Owned pc cb_fiber current fibers) {f : ℕ} {fibers' : ℕ → Fiber}
    (hw : (pc w).busyWith = some f) (hb : p.busyWith = none)
    (he : ∀ g, p.engages = some g → g = f) (hf : ∀ g, current g = none → fibers' g = fibers g) :
    Owned (Function.update pc w p) (Function.update cb_fiber w none) current fibers' := by
  have hcb := h.own w f hw
  have other : ∀ {u g}, Function.update cb_fiber w none u = some g →
      u ≠ w ∧ cb_fiber u = some g ∧ g ≠ f := by
    intro u g hu
    by_cases huw : u = w
    · rw [huw, Function.update_self] at hu
      cases hu
    · rw [Function.update_of_ne huw] at hu
      exact ⟨huw,hu,fun hgf => huw (h.one u w f (hgf ▸ hu) hcb)⟩
  refine ⟨fun u g hu => ?_,fun u v g hu hv => h.one u v g (other hu).2.1 (other hv).2.1,
    fun u v g hv hu => ?_,fun u g hu hno => ?_⟩
  · by_cases huw : u = w
    · rw [huw, Function.update_self, hb] at hu
      cases hu
    · rw [Function.update_of_ne huw] at hu ⊢
      exact h.own u g hu
  · obtain ⟨-,hcbv,hgf⟩ := other hv
    by_cases huw : u = w
    · rw [huw, Function.update_self] at hu
      exact absurd (he g hu) hgf
    · rw [Function.update_of_ne huw] at hu ⊢
      exact h.sole u v g hcbv hu
  · obtain ⟨huw,hcbu,-⟩ := other hu
    rw [Function.update_of_ne huw] at hno
    obtain ⟨hcurrent,hstate⟩ := h.spare u g hcbu hno
    exact ⟨hcurrent,by rw [hf g hcurrent, hstate]⟩

/-- A worker puts the next callback into its callback fiber, or empties it. -/
theorem refill (h : Owned pc cb_fiber current fibers) {f : ℕ} (hcb : cb_fiber w = some f)
    (hb : ∀ g, p.busyWith = some g → g = f) (he : p.engages = none) {c : Option ℕ}
    (hc : p.busyWith = some f ∨ c = none) :
    Owned (Function.update pc w p) cb_fiber (Function.update current f c)
      (Function.update fibers f .new) := by
  refine ⟨fun u g hu => ?_,h.one,fun u v g hv hu => ?_,fun u g hu hno => ?_⟩
  · by_cases huw : u = w
    · rw [huw, Function.update_self] at hu
      rw [huw, hb g hu, hcb]
    · exact h.own u g (by rwa [Function.update_of_ne huw] at hu)
  · by_cases huw : u = w
    · rw [huw, Function.update_self, he] at hu
      cases hu
    · rw [Function.update_of_ne huw] at hu ⊢
      exact h.sole u v g hv hu
  · by_cases huw : u = w
    · subst huw
      obtain rfl : f = g := Option.some.inj (hcb.symm.trans hu)
      rw [Function.update_self] at hno
      rw [Function.update_self, Function.update_self]
      exact ⟨hc.resolve_left hno,rfl⟩
    · have hgf : g ≠ f := fun hgf => huw (h.one u w f (hgf ▸ hu) hcb)
      rw [Function.update_of_ne huw] at hno
      rw [Function.update_of_ne hgf, Function.update_of_ne hgf]
      exact h.spare u g hu hno

omit [DecidableEq W] in
/-- A fiber changes that is nobody's callback fiber. -/
theorem change (h : Owned pc cb_fiber current fibers) {f : ℕ} (hcb : ∀ u, cb_fiber u ≠ some f)
    (c : Option ℕ) (x : Fiber) :
    Owned pc cb_fiber (Function.update current f c) (Function.update fibers f x) := by
  refine ⟨h.own,h.one,h.sole,fun u g hu hno => ?_⟩
  have hgf : g ≠ f := fun hgf => hcb u (hgf ▸ hu)
  rw [Function.update_of_ne hgf, Function.update_of_ne hgf]
  exact h.spare u g hu hno

/-- A worker gets a callback fiber, of which nobody has known. -/
theorem make (h : Owned pc cb_fiber current fibers) {f : ℕ} (hcb : ∀ u, cb_fiber u ≠ some f)
    (hw : cb_fiber w = none) (hn : ∀ u, (pc u).engages ≠ some f) :
    Owned pc (Function.update cb_fiber w (some f)) (Function.update current f none)
      (Function.update fibers f .new) := by
  have other : ∀ {u g}, Function.update cb_fiber w (some f) u = some g →
      u = w ∧ g = f ∨ u ≠ w ∧ cb_fiber u = some g ∧ g ≠ f := by
    intro u g hu
    by_cases huw : u = w
    · rw [huw, Function.update_self] at hu
      exact .inl ⟨huw,(Option.some.inj hu).symm⟩
    · rw [Function.update_of_ne huw] at hu
      exact .inr ⟨huw,hu,fun hgf => hcb u (hgf ▸ hu)⟩
  refine ⟨fun u g hu => ?_,fun u v g hu hv => ?_,fun u v g hv hu => ?_,fun u g hu hno => ?_⟩
  · have hold := h.own u g hu
    rw [Function.update_of_ne, hold]
    rintro rfl
    rw [hw] at hold
    cases hold
  · rcases other hu with ⟨rfl,rfl⟩ | ⟨-,hu,hgf⟩ <;> rcases other hv with ⟨rfl,hgf'⟩ | ⟨-,hv,hgf'⟩
    · rfl
    · exact absurd rfl hgf'
    · exact absurd hgf' hgf
    · exact h.one u v g hu hv
  · rcases other hv with ⟨rfl,rfl⟩ | ⟨-,hv,-⟩
    · exact absurd hu (hn u)
    · exact h.sole u v g hv hu
  · rcases other hu with ⟨rfl,rfl⟩ | ⟨-,hu,hgf⟩
    · rw [Function.update_self, Function.update_self]
      exact ⟨rfl,rfl⟩
    · rw [Function.update_of_ne hgf, Function.update_of_ne hgf]
      exact h.spare u g hu hno

end Owned
end owned

/-! ### The invariant -/

/-- The queue element refers to the task that is in the fiber. -/
def Refers (m : References W E) (k f : ℕ) : Prop :=
  ∃ g, m.captured k = some g ∧ m.current f = some g ∧ (f,g) ∈ m.held

/-- What a worker's place tells of its fiber: the task in it is new to everybody, or is the one
that the worker's queue element refers to, or the one that the worker has entered. -/
structure Standing (m : References W E) (w : W) (p : Pc) : Prop where
  starts : ∀ f, p.way = .fiber f →
    (m.fibers f).ctx = .fresh ∧ ∃ g, m.current f = some g ∧ (f,g) ∉ m.held
  carries : ∀ f, p.carries = some f → ∃ k, m.hand w = some k ∧ m.Refers k f
  engages : ∀ f, p.engages = some f → m.ran w = m.current f ∧ ∃ g, m.current f = some g
  hold : ∀ f cb, p = .hold f cb → ¬(m.fibers f).state.Ended

/-- References on the queue and in the workers' hands stand for the tasks that are in the fibers,
and the contexts of the fibers belong to these. -/
structure Sound (m : References W E) : Prop where
  numbered : Tasks.Numbered m.toTasks
  exist : FibersExist m.toScheduler
  exclusive : Exclusive m.fibers m.pc
  owned : Owned m.pc m.cb_fiber m.current m.fibers
  recent : ∀ f g, m.current f = some g → g < m.generation f
  taken : ∀ f g, (f,g) ∈ m.held → g < m.generation f
  past : ∀ f g, (f,g) ∈ m.ended → g < m.generation f
  finished : ∀ f g, m.current f = some g → ((f,g) ∈ m.ended ↔ (m.fibers f).state.Ended)
  loads : ∀ f, (m.fibers f).ctx ≠ .live → m.loaded f = m.current f
  standing : ∀ w, m.Standing w (m.pc w)
  queued : ∀ e ∈ m.entries, ∀ f, e.2.item = .fiber f → m.Refers e.1 f
  inHand : ∀ w k, m.hand w = some k → k < m.serial

section sound
variable {m m' : References W E}

omit [DecidableEq W] [DecidableEq E] in
/-- Nothing is said of a place without a fiber. -/
theorem Standing.blank {w : W} {p : Pc} (hway : p.way = .none) (hcarries : p.carries = none)
    (hengages : p.engages = none) (hhold : ∀ f cb, p ≠ .hold f cb) : m.Standing w p where
  starts f hf := by
    rw [hway] at hf
    cases hf
  carries f hf := by
    rw [hcarries] at hf
    cases hf
  engages f hf := by
    rw [hengages] at hf
    cases hf
  hold f cb hf := absurd hf (hhold f cb)

omit [DecidableEq W] [DecidableEq E] in
theorem sound_initial : Sound (initial : References W E) where
  numbered := Tasks.numbered_initial
  exist := ⟨nofun,nofun,nofun⟩
  exclusive := ⟨nofun,nofun,fun _ _ => Fiber.new_atRest⟩
  owned := ⟨nofun,nofun,nofun,nofun⟩
  recent := nofun
  taken := nofun
  past := nofun
  finished := nofun
  loads _ _ := rfl
  standing _ := .blank rfl rfl rfl fun f cb hf => by cases hf
  queued := nofun
  inHand := nofun

omit [DecidableEq W] [DecidableEq E] in
theorem Refers.keep {k f : ℕ} (h : m.Refers k f) (hcaptured : m'.captured k = m.captured k)
    (hcurrent : m'.current f = m.current f) (hheld : m.held ⊆ m'.held) : m'.Refers k f := by
  obtain ⟨g,hk,hf,hg⟩ := h
  exact ⟨g,hcaptured ▸ hk,hcurrent ▸ hf,hheld hg⟩

omit [DecidableEq W] [DecidableEq E] in
/-- A worker stays at its place while others move. -/
theorem Standing.keep {w : W} {p : Pc} (h : m.Standing w p)
    (hcurrent : ∀ f, p.way = .fiber f ∨ p.carries = some f ∨ p.engages = some f →
      m'.current f = m.current f)
    (hfiber : ∀ f, (p.way = .fiber f ∨ ∃ cb, p = .hold f cb) → m'.fibers f = m.fibers f)
    (hheld : m.held ⊆ m'.held)
    (hnew : ∀ f g, p.way = .fiber f → (f,g) ∈ m'.held → (f,g) ∈ m.held)
    (hhand : m'.hand w = m.hand w)
    (hcaptured : ∀ k, m.hand w = some k → m'.captured k = m.captured k)
    (hran : m'.ran w = m.ran w) : m'.Standing w p where
  starts f hf := by
    obtain ⟨hctx,g,hg,hno⟩ := h.starts f hf
    refine ⟨hfiber f (.inl hf) ▸ hctx,g,(hcurrent f (.inl hf)).trans hg,fun hmem => ?_⟩
    exact hno (hnew f g hf hmem)
  carries f hf := by
    obtain ⟨k,hk,href⟩ := h.carries f hf
    exact ⟨k,hhand.trans hk,href.keep (hcaptured k hk) (hcurrent f (.inr (.inl hf))) hheld⟩
  engages f hf := by
    rw [hran, hcurrent f (.inr (.inr hf))]
    exact h.engages f hf
  hold f cb hp := by
    rw [hfiber f (.inr ⟨cb,hp⟩)]
    exact h.hold f cb hp

omit [DecidableEq W] [DecidableEq E] in
/-- A worker stays at its place while another one changes a fiber that it is not concerned with. -/
theorem Standing.other {w : W} {p : Pc} {f : ℕ} (h : m.Standing w p)
    (hfree : p.way ≠ .fiber f ∧ p.carries ≠ some f ∧ p.engages ≠ some f)
    (hcurrent : ∀ g, g ≠ f → m'.current g = m.current g)
    (hfiber : ∀ g, g ≠ f → m'.fibers g = m.fibers g) (hheld : m.held ⊆ m'.held)
    (hnew : ∀ g n, g ≠ f → (g,n) ∈ m'.held → (g,n) ∈ m.held) (hhand : m'.hand w = m.hand w)
    (hcaptured : ∀ k, m.hand w = some k → m'.captured k = m.captured k)
    (hran : m'.ran w = m.ran w) : m'.Standing w p := by
  obtain ⟨hway,hcarries,hengages⟩ := hfree
  refine h.keep (fun g hg => hcurrent g ?_) (fun g hg => hfiber g ?_) hheld
    (fun g n hg => hnew g n ?_) hhand hcaptured hran
  · rintro rfl
    rcases hg with hg | hg | hg
    · exact hway hg
    · exact hcarries hg
    · exact hengages hg
  · rintro rfl
    rcases hg with hg | ⟨cb,hg⟩
    · exact hway hg
    · exact hengages (by rw [hg]; rfl)
  · rintro rfl
    exact hway hg

omit [DecidableEq W] [DecidableEq E] in
theorem Sound.lt_serial (h : Sound m) {e : ℕ × Scheduler.Task W} (he : e ∈ m.entries) : e.1 < m.serial := by
  have hpushed : e ∈ m.pushed := h.numbered.perm.mem_iff.mpr (List.mem_append_left _ he)
  have hrange : e.1 ∈ m.pushed.map Prod.fst := List.mem_map_of_mem hpushed
  rw [h.numbered.serials] at hrange
  exact List.mem_range.mp hrange

omit [DecidableEq W] [DecidableEq E] in
/-- A worker is alone with a callback that has not begun. -/
theorem Sound.starts_alone (h : Sound m) {u w : W} {f : ℕ} (hu : (m.pc u).way = .fiber f)
    (hw : (m.pc w).way = .fiber f ∨ (m.pc w).carries = some f ∨ (m.pc w).engages = some f) :
    u = w := by
  have hcb := h.owned.own u f (Pc.way_busyWith hu)
  rcases hw with hw | hw | hw
  · exact h.owned.one u w f hcb (h.owned.own w f (Pc.way_busyWith hw))
  · obtain ⟨-,g,hg,hno⟩ := (h.standing u).starts f hu
    obtain ⟨k,-,g',-,hg',hmem⟩ := (h.standing w).carries f hw
    obtain rfl : g = g' := Option.some.inj (hg.symm.trans hg')
    exact absurd hmem hno
  · exact h.owned.one u w f hcb (h.owned.own w f (h.owned.sole w u f hcb hw))

/-- The fiber is not one that another worker is about to start, or to set to `HOLD`. -/
def Free (m : References W E) (w : W) (f : ℕ) : Prop :=
  ∀ u, u ≠ w → (m.pc u).way ≠ .fiber f ∧ ∀ cb, m.pc u ≠ .hold f cb

omit [DecidableEq W] [DecidableEq E] in
theorem Sound.free (h : Sound m) {w : W} {f : ℕ} (hw : (m.pc w).handles = some f) :
    m.Free w f := by
  refine fun u huw => ⟨fun hu => huw (h.starts_alone hu (Pc.of_handles hw)),fun cb hu => ?_⟩
  exact huw (h.exclusive.one u w f (by rw [hu]; rfl) hw)

omit [DecidableEq W] [DecidableEq E] in
theorem Sound.free_of_swapIn (h : Sound m) {w : W} {f : ℕ} {cb : Bool}
    (hw : m.pc w = .swapIn f cb) (hno : ∀ u, (m.pc u).handles ≠ some f) : m.Free w f := by
  refine fun u huw => ⟨fun hu => huw (h.starts_alone hu ?_),fun c hu => hno u (by rw [hu]; rfl)⟩
  rw [hw]
  cases cb with
  | true => exact .inl rfl
  | false => exact .inr (.inl rfl)

omit [DecidableEq E] in
/-- A worker moves and changes at most the fiber `f`; the task in it stays. -/
theorem Sound.go (h : Sound m) {t : Tasks W E} {ran : W → Option ℕ}
    {suspended m_cb : ℕ → Option ℕ} {ended : List (ℕ × ℕ)} {w : W} {f : ℕ} {p : Pc} {x : Fiber}
    (hnumbered : Tasks.Numbered t) (hexist : FibersExist t.toScheduler)
    (hexclusive : Exclusive t.fibers t.pc) (hentries : t.entries = m.entries)
    (hhand : t.hand = m.hand) (hserial : t.serial = m.serial)
    (hpc : t.pc = Function.update m.pc w p) (hf : t.fibers = Function.update m.fibers f x)
    (hran : ∀ u, u ≠ w → ran u = m.ran u) (howned : Owned t.pc t.cb_fiber m.current t.fibers)
    (hfree : m.Free w f) (hpast : ∀ f g, (f,g) ∈ ended → g < m.generation f)
    (hfinished : ∀ i g, m.current i = some g → ((i,g) ∈ ended ↔ (t.fibers i).state.Ended))
    (hloads : ∀ i, (t.fibers i).ctx ≠ .live →
      (if (t.fibers i).ctx = .fresh then m_cb i else suspended i) = m.current i)
    (hstanding : Standing { m with toTasks := t, ran, suspended, m_cb, ended } w p) :
    Sound { m with toTasks := t, ran, suspended, m_cb, ended } where
  numbered := hnumbered
  exist := hexist
  exclusive := hexclusive
  owned := howned
  recent := h.recent
  taken := h.taken
  past := hpast
  finished := hfinished
  loads := hloads
  standing u := by
    show Standing _ u (t.pc u)
    rw [hpc]
    by_cases huw : u = w
    · subst huw
      rwa [Function.update_self]
    · rw [Function.update_of_ne huw]
      refine (h.standing u).keep (fun _ _ => rfl) (fun g hg => ?_) (List.Subset.refl _)
        (fun _ _ _ hmem => hmem) (congrFun hhand u) (fun _ _ => rfl) (hran u huw)
      show t.fibers g = _
      rw [hf, Function.update_of_ne]
      rintro rfl
      rcases hg with hg | ⟨cb,hg⟩
      · exact (hfree u huw).1 hg
      · exact (hfree u huw).2 cb hg
  queued e he f hi := h.queued e (hentries ▸ he) f hi
  inHand u k hk := by
    show k < t.serial
    rw [hserial]
    exact h.inHand u k (hhand ▸ hk)

omit [DecidableEq W] [DecidableEq E] in
theorem Sound.free_created (h : Sound m) (w : W) : m.Free w m.created := by
  refine fun u _ => ⟨fun hu => ?_,fun cb hu => lt_irrefl _ (h.exist.pc u m.created (by rw [hu]; rfl))⟩
  exact lt_irrefl _ (h.exist.pc u _ (Pc.names_of_busyWith (Pc.way_busyWith hu)))

omit [DecidableEq E] in
/-- A worker moves, and no fiber changes. -/
theorem Sound.pass (h : Sound m) {s : Scheduler W E} {w : W} {p : Pc}
    (hnumbered : Tasks.Numbered { m.toTasks with toScheduler := s }) (hexist : FibersExist s)
    (hexclusive : Exclusive s.fibers s.pc) (hpc : s.pc = Function.update m.pc w p)
    (hf : s.fibers = m.fibers) (howned : Owned s.pc s.cb_fiber m.current m.fibers)
    (hstanding : m.Standing w p) :
    Sound { m with toTasks := { m.toTasks with toScheduler := s } } := by
  have hsame : s.fibers = Function.update m.fibers m.created (m.fibers m.created) := by
    rw [hf, Function.update_eq_self]
  have hfibers : ∀ i, s.fibers i = m.fibers i := congrFun hf
  refine h.go hnumbered hexist hexclusive rfl rfl rfl hpc hsame (fun _ _ => rfl) (hf ▸ howned)
    (h.free_created w) h.past (fun i g hg => ?_) (fun i hctx => ?_) ?_
  · show _ ↔ (s.fibers i).state.Ended
    rw [hfibers]
    exact h.finished i g hg
  · show (if (s.fibers i).ctx = .fresh then m.m_cb i else m.suspended i) = _
    have hctx : (s.fibers i).ctx ≠ .live := hctx
    rw [hfibers] at hctx ⊢
    exact h.loads i hctx
  · exact hstanding.keep (fun _ _ => rfl) (fun i _ => hfibers i) (List.Subset.refl _)
      (fun _ _ _ hmem => hmem) rfl (fun _ _ => rfl) rfl

omit [DecidableEq E] in
/-- A worker moves between places where it has nothing to do with a fiber. -/
theorem Sound.idle (h : Sound m) {s : Scheduler W E} {w : W} {old p : Pc}
    (hnumbered : Tasks.Numbered { m.toTasks with toScheduler := s }) (hexist : FibersExist s)
    (hexclusive : Exclusive s.fibers s.pc) (hw : m.pc w = old)
    (hpc : s.pc = Function.update m.pc w p) (hf : s.fibers = m.fibers)
    (hcb : s.cb_fiber = m.cb_fiber) (hold : old.busyWith = none) (hp : p.busyWith = none)
    (he : p.engages = none) (hstanding : m.Standing w p) :
    Sound { m with toTasks := { m.toTasks with toScheduler := s } } := by
  refine h.pass hnumbered hexist hexclusive hpc hf ?_ hstanding
  rw [hpc, hcb]
  exact h.owned.goOn (by rw [hw, hold, hp]) (fun f hf => by rw [he] at hf; cases hf) fun _ _ => rfl

omit [DecidableEq W] [DecidableEq E] in
/-- No worker moves. -/
theorem Sound.still (h : Sound m) {s : Scheduler W E}
    (hnumbered : Tasks.Numbered { m.toTasks with toScheduler := s }) (hexist : FibersExist s)
    (hexclusive : Exclusive s.fibers s.pc) (hpc : s.pc = m.pc) (hf : s.fibers = m.fibers)
    (hcb : s.cb_fiber = m.cb_fiber) :
    Sound { m with toTasks := { m.toTasks with toScheduler := s } } where
  numbered := hnumbered
  exist := hexist
  exclusive := hexclusive
  owned := by
    show Owned s.pc s.cb_fiber m.current s.fibers
    rw [hpc, hcb, hf]
    exact h.owned
  recent := h.recent
  taken := h.taken
  past := h.past
  finished i g hg := by
    show _ ↔ (s.fibers i).state.Ended
    rw [hf]
    exact h.finished i g hg
  loads i hctx := by
    have hctx : (s.fibers i).ctx ≠ .live := hctx
    show (if (s.fibers i).ctx = .fresh then m.m_cb i else m.suspended i) = _
    rw [hf] at hctx ⊢
    exact h.loads i hctx
  standing u := by
    show Standing _ u (s.pc u)
    rw [hpc]
    exact (h.standing u).keep (fun _ _ => rfl) (fun i _ => congrFun hf i) (List.Subset.refl _)
      (fun _ _ _ hmem => hmem) rfl (fun _ _ => rfl) rfl
  queued := h.queued
  inHand := h.inHand

omit [DecidableEq E] in
/-- A worker takes an element off the queue. -/
theorem Sound.take (h : Sound m) {s : Scheduler W E} {w : W} {i : ℕ} {t : Scheduler.Task W}
    (ht : m.queue[i]? = some t) (hnumbered : Tasks.Numbered (m.toTasks.take s w i))
    (hexist : FibersExist s) (hexclusive : Exclusive s.fibers s.pc)
    (hw : (m.pc w).busyWith = none) (hpc : s.pc = Function.update m.pc w (.scanned (some t.item)))
    (hf : s.fibers = m.fibers) (hcb : s.cb_fiber = m.cb_fiber) :
    Sound { m with toTasks := m.toTasks.take s w i } := by
  obtain ⟨⟨k,t⟩,he,rfl⟩ : ∃ e, m.entries[i]? = some e ∧ e.2 = t := by
    rw [← h.numbered.queue, List.getElem?_map, Option.map_eq_some_iff] at ht
    exact ht
  have hmem : (k,t) ∈ m.entries := List.mem_of_getElem? he
  have hhand : (m.toTasks.take s w i).hand = Function.update m.hand w (some k) := by
    simp [Tasks.take, he]
  refine ⟨hnumbered,hexist,hexclusive,?_,h.recent,h.taken,h.past,fun j g hg => ?_,fun j hctx => ?_,
    fun u => ?_,fun e hmem => h.queued e (List.mem_of_mem_eraseIdx hmem),fun u l hl => ?_⟩
  · show Owned s.pc s.cb_fiber m.current s.fibers
    rw [hpc, hcb, hf]
    exact h.owned.goOn (hw ▸ rfl) (fun _ hg => by cases hg) fun _ _ => rfl
  · show _ ↔ (s.fibers j).state.Ended
    rw [hf]
    exact h.finished j g hg
  · have hctx : (s.fibers j).ctx ≠ .live := hctx
    show (if (s.fibers j).ctx = .fresh then m.m_cb j else m.suspended j) = _
    rw [hf] at hctx ⊢
    exact h.loads j hctx
  · show Standing _ u (s.pc u)
    rw [hpc]
    by_cases huw : u = w
    · subst huw
      rw [Function.update_self]
      refine ⟨fun f hway => ?_,fun f hc => ?_,(fun f hf => by cases hf),
        fun f cb hf => by cases hf⟩
      · cases hi : t.item <;> rw [hi] at hway <;> cases hway
      · have hi : t.item = .fiber f := by
          cases hi : t.item with
          | fiber f' => rw [hi] at hc; cases hc; rfl
          | cb => rw [hi] at hc; cases hc
        refine ⟨k,?_,h.queued (k,t) hmem f hi⟩
        show (m.toTasks.take s u i).hand u = some k
        rw [hhand, Function.update_self]
    · rw [Function.update_of_ne huw]
      refine (h.standing u).keep (fun _ _ => rfl) (fun f _ => congrFun hf f) (List.Subset.refl _)
        (fun _ _ _ hmem => hmem) ?_ (fun _ _ => rfl) rfl
      show (m.toTasks.take s w i).hand u = _
      rw [hhand, Function.update_of_ne huw]
  · have hl : (m.toTasks.take s w i).hand u = some l := hl
    show l < m.serial
    rw [hhand] at hl
    by_cases huw : u = w
    · rw [huw, Function.update_self] at hl
      cases hl
      exact h.lt_serial hmem
    · exact h.inHand u l (by rwa [Function.update_of_ne huw] at hl)

omit [DecidableEq W] [DecidableEq E] in
/-- The next load of a fiber that is new again finds what has been put into it. -/
theorem Sound.loads_new (h : Sound m) {fibers : ℕ → Fiber} {f : ℕ}
    (hf : fibers = Function.update m.fibers f .new) (task : Option ℕ) {g : ℕ}
    (hctx : (fibers g).ctx ≠ .live) :
    (if (fibers g).ctx = .fresh then Function.update m.m_cb f task g else m.suspended g) =
      Function.update m.current f task g := by
  subst hf
  by_cases hgf : g = f
  · subst hgf
    rw [Function.update_self, Function.update_self, Function.update_self]
    rfl
  · rw [Function.update_of_ne hgf] at hctx ⊢
    rw [Function.update_of_ne hgf, Function.update_of_ne hgf]
    exact h.loads g hctx

theorem subset_placed {held placed : List (ℕ × ℕ)} {e : ℕ × ℕ}
    (h : placed = held ∨ placed = held++[e]) : held ⊆ placed := by
  rcases h with rfl | rfl
  · exact List.Subset.refl _
  · exact List.subset_append_left ..

theorem mem_of_mem_placed {held placed : List (ℕ × ℕ)} {e d : ℕ × ℕ}
    (h : placed = held ∨ placed = held++[e]) (hd : d ∈ placed) : d ∈ held ∨ d = e := by
  rcases h with rfl | rfl
  · exact .inl hd
  · exact (List.mem_append.mp hd).imp_right List.mem_singleton.mp

omit [DecidableEq W] [DecidableEq E] in
/-- A callback is put into a fiber that nobody is concerned with. -/
theorem Sound.place (h : Sound m) {t : Tasks W E} {f : ℕ} {held : List (ℕ × ℕ)}
    (hnumbered : Tasks.Numbered t) (hexist : FibersExist t.toScheduler)
    (hexclusive : Exclusive t.fibers t.pc) (hentries : t.entries = m.entries)
    (hhand : t.hand = m.hand) (hserial : t.serial = m.serial)
    (hf : t.fibers = Function.update m.fibers f .new)
    (howned : Owned t.pc t.cb_fiber (Function.update m.current f (some (m.generation f))) t.fibers)
    (hfree : ∀ u, (m.pc u).way ≠ .fiber f ∧ (m.pc u).carries ≠ some f ∧
      (m.pc u).engages ≠ some f)
    (hqueue : ∀ e ∈ m.entries, e.2.item ≠ .fiber f)
    (hheld : held = m.held ∨ held = m.held++[(f,m.generation f)])
    (hpc : ∀ u, t.pc u = m.pc u ∨ t.pc u = .swapIn f true ∧ held = m.held) :
    Sound { m.place f with toTasks := t, held } := by
  have hother : ∀ g, g ≠ f → t.fibers g = m.fibers g := fun g hg => by
    rw [hf, Function.update_of_ne hg]
  have hcurrent : ∀ g, g ≠ f →
      Function.update m.current f (some (m.generation f)) g = m.current g :=
    fun g hg => Function.update_of_ne hg ..
  have hgeneration : ∀ g n, n < m.generation g →
      n < Function.update m.generation f (m.generation f+1) g := by
    intro g n hn
    by_cases hgf : g = f
    · subst hgf
      rw [Function.update_self]
      exact Nat.lt_succ_of_lt hn
    · rwa [Function.update_of_ne hgf]
  have hself : m.generation f < Function.update m.generation f (m.generation f+1) f := by
    rw [Function.update_self]
    exact Nat.lt_succ_self _
  have hsub : m.held ⊆ held := subset_placed hheld
  have hnew : ∀ g n, g ≠ f → (g,n) ∈ held → (g,n) ∈ m.held := fun g n hg hmem =>
    (mem_of_mem_placed hheld hmem).resolve_right fun he => hg (congrArg Prod.fst he)
  refine ⟨hnumbered,hexist,hexclusive,howned,fun g n hn => ?_,fun g n hn => ?_,
    fun g n hn => hgeneration g n (h.past g n hn),fun g n hn => ?_,fun g hctx => ?_,fun u => ?_,
    fun e he g hi => ?_,fun u k hk => ?_⟩
  · have hn : Function.update m.current f (some (m.generation f)) g = some n := hn
    by_cases hgf : g = f
    · subst hgf
      rw [Function.update_self] at hn
      cases hn
      exact hself
    · exact hgeneration g n (h.recent g n (hcurrent g hgf ▸ hn))
  · rcases mem_of_mem_placed hheld hn with hmem | he
    · exact hgeneration g n (h.taken g n hmem)
    · cases he
      exact hself
  · have hn : Function.update m.current f (some (m.generation f)) g = some n := hn
    show (g,n) ∈ m.ended ↔ (t.fibers g).state.Ended
    by_cases hgf : g = f
    · subst hgf
      rw [Function.update_self] at hn
      cases hn
      rw [hf, Function.update_self]
      exact ⟨fun hmem => absurd (h.past g _ hmem) (lt_irrefl _),fun he => by cases he <;> contradiction⟩
    · rw [hother g hgf]
      exact h.finished g n (hcurrent g hgf ▸ hn)
  · exact h.loads_new hf (some (m.generation f)) hctx
  · show Standing _ u (t.pc u)
    rcases hpc u with hu | ⟨hu,rfl⟩
    · rw [hu]
      exact (h.standing u).other (hfree u) hcurrent hother hsub hnew (congrFun hhand u)
        (fun _ _ => rfl) rfl
    · rw [hu]
      refine ⟨fun g hg => ?_,nofun,nofun,nofun⟩
      cases hg
      refine ⟨?_,m.generation f,?_,fun hmem => lt_irrefl _ (h.taken f _ hmem)⟩
      · show (t.fibers f).ctx = _
        rw [hf, Function.update_self]
        rfl
      · exact Function.update_self ..
  · have he : e ∈ m.entries := hentries ▸ he
    have hgf : g ≠ f := fun hgf => hqueue e he (hgf ▸ hi)
    exact (h.queued e he g hi).keep rfl (hcurrent g hgf) hsub
  · show k < t.serial
    rw [hserial]
    exact h.inHand u k (hhand ▸ hk)

omit [DecidableEq E] in
/-- A worker empties its callback fiber, to which nobody refers. -/
theorem Sound.clear (h : Sound m) {t : Tasks W E} {w : W} {f : ℕ}
    (hnumbered : Tasks.Numbered t) (hexist : FibersExist t.toScheduler)
    (hexclusive : Exclusive t.fibers t.pc) (hentries : t.entries = m.entries)
    (hhand : t.hand = m.hand) (hserial : t.serial = m.serial)
    (hw : m.pc w = .swapped f true) (hqueue : ∀ i ∈ m.queue, i.item ≠ .fiber f)
    (hcarries : ∀ u, (m.pc u).carries ≠ some f) (hpc : t.pc = Function.update m.pc w .top)
    (hf : t.fibers = Function.update m.fibers f .new) (hcb : t.cb_fiber = m.cb_fiber) :
    Sound { m.clear f with toTasks := t } := by
  have hown : m.cb_fiber w = some f := h.owned.own w f (by rw [hw]; rfl)
  have hother : ∀ g, g ≠ f → t.fibers g = m.fibers g := fun g hg => by
    rw [hf, Function.update_of_ne hg]
  have hcurrent : ∀ g, g ≠ f → Function.update m.current f none g = m.current g :=
    fun g hg => Function.update_of_ne hg ..
  have hsome : ∀ {g n}, Function.update m.current f none g = some n →
      g ≠ f ∧ m.current g = some n := by
    intro g n hn
    by_cases hgf : g = f
    · rw [hgf, Function.update_self] at hn
      cases hn
    · exact ⟨hgf,hcurrent g hgf ▸ hn⟩
  have hfree := h.free (w := w) (f := f) (by rw [hw]; rfl)
  refine ⟨hnumbered,hexist,hexclusive,?_,fun g n hn => h.recent g n (hsome hn).2,h.taken,h.past,
    fun g n hn => ?_,fun g hctx => ?_,fun u => ?_,fun e he g hi => ?_,fun u k hk => ?_⟩
  · show Owned t.pc t.cb_fiber (Function.update m.current f none) t.fibers
    rw [hpc, hcb, hf]
    exact h.owned.refill hown (fun _ hg => by cases hg) rfl (.inr rfl)
  · show (g,n) ∈ m.ended ↔ (t.fibers g).state.Ended
    rw [hother g (hsome hn).1]
    exact h.finished g n (hsome hn).2
  · exact h.loads_new hf none hctx
  · show Standing _ u (t.pc u)
    rw [hpc]
    by_cases huw : u = w
    · subst huw
      rw [Function.update_self]
      exact .blank rfl rfl rfl (by simp)
    · rw [Function.update_of_ne huw]
      have hengages : (m.pc u).engages ≠ some f := fun hu => huw <| by
        exact h.owned.one u w f (h.owned.own u f (h.owned.sole u w f hown hu)) hown
      exact (h.standing u).other ⟨(hfree u huw).1,hcarries u,hengages⟩ hcurrent hother
        (List.Subset.refl _) (fun _ _ _ hmem => hmem) (congrFun hhand u) (fun _ _ => rfl) rfl
  · have hmem : e ∈ m.entries := hentries ▸ he
    have hgf : g ≠ f := by
      rintro rfl
      refine hqueue e.2 ?_ hi
      rw [← h.numbered.queue]
      exact List.mem_map_of_mem hmem
    exact (h.queued e hmem g hi).keep rfl (hcurrent g hgf) (List.Subset.refl _)
  · show k < t.serial
    rw [hserial]
    exact h.inHand u k (hhand ▸ hk)

omit [DecidableEq W] [DecidableEq E] in
/-- A reference to the task in a fiber is taken. -/
theorem Sound.hold (h : Sound m) {f g : ℕ} (hg : m.current f = some g)
    (hfree : ∀ u, (m.pc u).way ≠ .fiber f) : Sound { m with held := m.held++[(f,g)] } := by
  have hold : ∀ i n, (i,n) ∈ m.held++[(f,g)] → (i,n) ∈ m.held ∨ i = f ∧ n = g := by
    intro i n hmem
    refine (List.mem_append.mp hmem).imp_right fun hs => ?_
    cases List.mem_singleton.mp hs
    exact ⟨rfl,rfl⟩
  refine ⟨h.numbered,h.exist,h.exclusive,h.owned,h.recent,fun i n hmem => ?_,h.past,h.finished,h.loads,
    fun u => ?_,fun e he i hi => ?_,h.inHand⟩
  · rcases hold i n hmem with hmem | ⟨rfl,rfl⟩
    · exact h.taken i n hmem
    · exact h.recent i n hg
  · refine (h.standing u).keep (fun _ _ => rfl) (fun _ _ => rfl) (List.subset_append_left ..)
      (fun i n hi hmem => (hold i n hmem).resolve_right fun hnew => ?_) rfl (fun _ _ => rfl) rfl
    exact hfree u (hnew.1 ▸ hi)
  · exact (h.queued e he i hi).keep rfl rfl (List.subset_append_left ..)

omit [DecidableEq W] [DecidableEq E] in
/-- A task is put on the queue; if it is a fiber, it stands for the task in it. -/
theorem Sound.push (h : Sound m) {t : Tasks W E} {captured : ℕ → Option ℕ}
    {task : Scheduler.Task W} (hnumbered : Tasks.Numbered t) (hexist : FibersExist t.toScheduler)
    (hexclusive : Exclusive t.fibers t.pc) (hentries : t.entries = m.entries++[(m.serial,task)])
    (hhand : t.hand = m.hand) (hserial : t.serial = m.serial+1) (hf : t.fibers = m.fibers)
    (howned : Owned t.pc t.cb_fiber m.current m.fibers)
    (hpc : ∀ u, t.pc u = m.pc u ∨ t.pc u = .top)
    (hcaptured : ∀ k, k < m.serial → captured k = m.captured k)
    (htask : ∀ f, task.item = .fiber f →
      ∃ g, captured m.serial = some g ∧ m.current f = some g ∧ (f,g) ∈ m.held) :
    Sound { m with toTasks := t, captured } := by
  refine ⟨hnumbered,hexist,hexclusive,?_,h.recent,h.taken,h.past,fun g n hn => ?_,fun g hctx => ?_,
    fun u => ?_,fun e he f hi => ?_,fun u k hk => ?_⟩
  · show Owned t.pc t.cb_fiber m.current t.fibers
    rw [hf]
    exact howned
  · show _ ↔ (t.fibers g).state.Ended
    rw [hf]
    exact h.finished g n hn
  · have hctx : (t.fibers g).ctx ≠ .live := hctx
    show (if (t.fibers g).ctx = .fresh then m.m_cb g else m.suspended g) = _
    rw [hf] at hctx ⊢
    exact h.loads g hctx
  · show Standing _ u (t.pc u)
    rcases hpc u with hu | hu
    · rw [hu]
      exact (h.standing u).keep (fun _ _ => rfl) (fun g _ => congrFun hf g) (List.Subset.refl _)
        (fun _ _ _ hmem => hmem) (congrFun hhand u) (fun k hk => hcaptured k (h.inHand u k hk)) rfl
    · rw [hu]
      exact .blank rfl rfl rfl (by simp)
  · have he : e ∈ m.entries++[(m.serial,task)] := hentries ▸ he
    rcases List.mem_append.mp he with he | he
    · exact (h.queued e he f hi).keep (hcaptured e.1 (h.lt_serial he)) rfl (List.Subset.refl _)
    · cases List.mem_singleton.mp he
      exact htask f hi
  · show k < t.serial
    rw [hserial]
    exact Nat.lt_succ_of_lt (h.inHand u k (hhand ▸ hk))

theorem Sound.examine (h : Sound m) {w : W} {i : ℕ} {tickle_me : Bool}
    (hp : m.pc w = .scan i tickle_me)
    (hn : Tasks.Numbered (m.toTasks.follow (m.toScheduler.examine w i tickle_me) (.next w)))
    (hb : FibersExist (m.toScheduler.examine w i tickle_me))
    (hx : Exclusive (m.toScheduler.examine w i tickle_me).fibers
      (m.toScheduler.examine w i tickle_me).pc) :
    Sound (m.follow (m.toTasks.follow (m.toScheduler.examine w i tickle_me) (.next w))
      (.next w)) := by
  have kept : ∀ {s : Scheduler W E} {p : Pc}, s.queue = m.queue → FibersExist s →
      Exclusive s.fibers s.pc → Tasks.Numbered (if s.queue.length < m.queue.length then
        m.toTasks.take s w i else { m.toTasks with toScheduler := s }) →
      s.pc = Function.update m.pc w p → s.fibers = m.fibers → s.cb_fiber = m.cb_fiber →
      p.busyWith = none → p.engages = none → m.Standing w p →
      Sound { m with toTasks := if s.queue.length < m.queue.length then
        m.toTasks.take s w i else { m.toTasks with toScheduler := s } } := by
    intro s p hq hb hx hn hpc hf hcb hbusy he hs
    have hlt : ¬s.queue.length < m.queue.length := by
      rw [hq]
      exact lt_irrefl _
    rw [if_neg hlt] at hn ⊢
    exact h.idle hn hb hx hp hpc hf hcb rfl hbusy he hs
  simp only [Tasks.follow, References.follow, hp] at hn ⊢
  revert hn hb hx
  unfold Scheduler.examine
  split
  · exact fun hb hx hn => kept rfl hb hx hn rfl rfl rfl rfl rfl (.blank rfl rfl rfl (by simp))
  · next t ht =>
    split
    · exact fun hb hx hn => kept rfl hb hx hn rfl rfl rfl rfl rfl (.blank rfl rfl rfl (by simp))
    split
    · exact fun hb hx hn => kept rfl hb hx hn rfl rfl rfl rfl rfl (.blank rfl rfl rfl (by simp))
    · have hi := (List.getElem?_eq_some_iff.mp ht).1
      have hlt : (m.queue.eraseIdx i).length < m.queue.length := by
        rw [List.length_eraseIdx_of_lt hi]
        omega
      intro hb hx hn
      have htake := if_pos hlt ▸ hn
      refine (if_pos hlt).symm ▸ ?_
      exact h.take ht htake hb hx (by rw [hp]; rfl) rfl rfl rfl

omit [DecidableEq W] [DecidableEq E] in
/-- Nobody is concerned with a callback fiber that is not in use. -/
theorem Sound.spare (h : Sound m) {w : W} {f : ℕ} (hcb : m.cb_fiber w = some f)
    (hw : (m.pc w).busyWith = none) :
    (m.fibers f).state = .INIT ∧ (∀ e ∈ m.entries, e.2.item ≠ .fiber f) ∧
      ∀ u, (m.pc u).way ≠ .fiber f ∧ (m.pc u).carries ≠ some f ∧ (m.pc u).engages ≠ some f := by
  obtain ⟨hcurrent,hstate⟩ := h.owned.spare w f hcb (by simp [hw])
  have hno : ∀ g, m.current f ≠ some g := fun g hg => by
    rw [hcurrent] at hg
    cases hg
  refine ⟨hstate,fun e he hi => ?_,fun u => ⟨fun hu => ?_,fun hu => ?_,fun hu => ?_⟩⟩
  · obtain ⟨g,-,hg,-⟩ := h.queued e he f hi
    exact hno g hg
  · obtain ⟨-,g,hg,-⟩ := (h.standing u).starts f hu
    exact hno g hg
  · obtain ⟨-,-,g,-,hg,-⟩ := (h.standing u).carries f hu
    exact hno g hg
  · obtain ⟨-,g,hg⟩ := (h.standing u).engages f hu
    exact hno g hg

omit [DecidableEq W] [DecidableEq E] in
/-- Nobody is concerned with a fiber that does not exist yet. -/
theorem Sound.not_created (h : Sound m) : (∀ e ∈ m.entries, e.2.item ≠ .fiber m.created) ∧
    (∀ w, m.cb_fiber w ≠ some m.created) ∧ ∀ u, (m.pc u).way ≠ .fiber m.created ∧
      (m.pc u).carries ≠ some m.created ∧ (m.pc u).engages ≠ some m.created := by
  have hnames : ∀ u, (m.pc u).names ≠ some m.created := fun u hu =>
    lt_irrefl _ (h.exist.pc u _ hu)
  refine ⟨fun e he hi => ?_,fun w hw => lt_irrefl _ (h.exist.cb_fiber w _ hw),
    fun u => ⟨fun hu => ?_,fun hu => hnames u (Pc.names_of_carries hu),
      fun hu => hnames u (Pc.names_of_engages hu)⟩⟩
  · have hmem : e.2 ∈ m.queue := by
      rw [← h.numbered.queue]
      exact List.mem_map_of_mem he
    have hvalid := h.exist.queue e.2 hmem
    rw [hi] at hvalid
    exact lt_irrefl _ hvalid
  · exact hnames u (Pc.names_of_busyWith (Pc.way_busyWith hu))

omit [DecidableEq E] in
theorem Sound.dispatch (h : Sound m) {w : W} {item : Item} (hp : m.pc w = .scanned (some item))
    (hn : Tasks.Numbered (m.toTasks.follow (m.toScheduler.dispatch w item) (.next w)))
    (hb : FibersExist (m.toScheduler.dispatch w item))
    (hx : Exclusive (m.toScheduler.dispatch w item).fibers (m.toScheduler.dispatch w item).pc) :
    Sound (m.follow (m.toTasks.follow (m.toScheduler.dispatch w item) (.next w)) (.next w)) := by
  cases item with
  | fiber f =>
    simp only [Tasks.follow, References.follow, hp] at hn ⊢
    revert hn hb hx
    simp only [Scheduler.dispatch]
    split
    · exact fun hb hx hn => h.idle hn hb hx hp rfl rfl rfl rfl rfl rfl (.blank rfl rfl rfl (by simp))
    · refine fun hb hx hn => h.idle hn hb hx hp rfl rfl rfl rfl rfl rfl ⟨(fun g hg => by cases hg),
        fun g hg => ?_,(fun g hg => by cases hg),fun g c hg => by cases hg⟩
      exact (h.standing w).carries g (by rw [hp]; exact hg)
  | cb =>
    have hidle : (m.pc w).busyWith = none := by rw [hp]; rfl
    have hpc : ∀ f u, Function.update m.pc w (.swapIn f true) u = m.pc u ∨
        Function.update m.pc w (.swapIn f true) u = .swapIn f true ∧ m.held = m.held := by
      intro f u
      by_cases huw : u = w
      · subst huw
        exact .inr ⟨Function.update_self ..,rfl⟩
      · exact .inl (Function.update_of_ne huw ..)
    cases hcb : m.cb_fiber w with
    | some f =>
      obtain ⟨hstate,hqueue,hfree⟩ := h.spare hcb hidle
      have hres : (m.fibers f).state.Resettable := .inr (.inr hstate)
      simp only [Tasks.follow, References.follow, hp, Scheduler.dispatch, hcb, if_pos hres,
        Scheduler.goto, Function.update_self] at hn hb hx ⊢
      exact h.place hn hb hx rfl rfl rfl rfl
        (h.owned.refill hcb (fun g hg => by cases hg; rfl) rfl (.inl rfl)) hfree hqueue (.inl rfl)
        (hpc f)
    | none =>
      obtain ⟨hqueue,hnone,hfree⟩ := h.not_created
      simp only [Tasks.follow, References.follow, hp, Scheduler.dispatch, hcb,
        Scheduler.goto, Function.update_self] at hn hb hx ⊢
      refine h.place hn hb hx rfl rfl rfl rfl ?_ hfree hqueue (.inl rfl) (hpc m.created)
      have hmade := (h.owned.make hnone hcb fun u => (hfree u).2.2).refill
        (p := .swapIn m.created true) (c := some (m.generation m.created))
        (Function.update_self ..) (fun g hg => by cases hg; rfl) rfl (.inl rfl)
      rwa [Function.update_idem, Function.update_idem] at hmade

omit [DecidableEq W] [DecidableEq E] in
/-- There is a task in the fiber that a worker handles, or is about to enter. -/
theorem Sound.occupied (h : Sound m) {w : W} {f : ℕ}
    (hw : (m.pc w).way = .fiber f ∨ (m.pc w).carries = some f ∨ (m.pc w).engages = some f) :
    ∃ g, m.current f = some g := by
  rcases hw with hw | hw | hw
  · obtain ⟨-,g,hg,-⟩ := (h.standing w).starts f hw
    exact ⟨g,hg⟩
  · obtain ⟨-,-,g,-,hg,-⟩ := (h.standing w).carries f hw
    exact ⟨g,hg⟩
  · exact ((h.standing w).engages f hw).2

omit [DecidableEq W] [DecidableEq E] in
theorem update_of_empty {f g : ℕ} (hf : ∃ n, m.current f = some n) (x : Fiber)
    (hg : m.current g = none) : Function.update m.fibers f x g = m.fibers g := by
  refine Function.update_of_ne ?_ ..
  rintro rfl
  obtain ⟨n,hn⟩ := hf
  rw [hg] at hn
  cases hn

omit [DecidableEq W] [DecidableEq E] in
/-- Whether a task has ended is told by the state of its fiber, also after a step that changes
one fiber. -/
theorem Sound.finished_update (h : Sound m) {f : ℕ} {x : Fiber}
    (hx : ∀ g, m.current f = some g → ((f,g) ∈ m.ended ↔ x.state.Ended)) (i g : ℕ)
    (hg : m.current i = some g) :
    (i,g) ∈ m.ended ↔ (Function.update m.fibers f x i).state.Ended := by
  by_cases hif : i = f
  · subst hif
    rw [Function.update_self]
    exact hx g hg
  · rw [Function.update_of_ne hif]
    exact h.finished i g hg

omit [DecidableEq W] [DecidableEq E] in
theorem Sound.loads_update (h : Sound m) {f : ℕ} {x : Fiber} {m_cb suspended : ℕ → Option ℕ}
    (hm_cb : ∀ i, i ≠ f → m_cb i = m.m_cb i) (hsuspended : ∀ i, i ≠ f → suspended i = m.suspended i)
    (hx : x.ctx ≠ .live → (if x.ctx = .fresh then m_cb f else suspended f) = m.current f) (i : ℕ)
    (hctx : (Function.update m.fibers f x i).ctx ≠ .live) :
    (if (Function.update m.fibers f x i).ctx = .fresh then m_cb i else suspended i) =
      m.current i := by
  by_cases hif : i = f
  · subst hif
    rw [Function.update_self] at hctx ⊢
    exact hx hctx
  · rw [Function.update_of_ne hif] at hctx ⊢
    rw [hm_cb i hif, hsuspended i hif]
    exact h.loads i hctx

omit [DecidableEq E] in
theorem Sound.swapIn (h : Sound m) {w : W} {f : ℕ} {cb : Bool} (hp : m.pc w = .swapIn f cb)
    (halone : ∀ u, (m.pc u).handles ≠ some f) (hended : ¬(m.fibers f).state.Ended)
    (hn : Tasks.Numbered { m.toTasks with
      toScheduler := (m.setState f .EXEC).goto w (.switch f cb) })
    (hb : FibersExist ((m.setState f .EXEC).goto w (.switch f cb)))
    (hx : Exclusive ((m.setState f .EXEC).goto w (.switch f cb)).fibers
      ((m.setState f .EXEC).goto w (.switch f cb)).pc) :
    Sound { m with toTasks := { m.toTasks with
      toScheduler := (m.setState f .EXEC).goto w (.switch f cb) } } := by
  have hfree := h.free_of_swapIn hp halone
  have hstanding := h.standing w
  rw [hp] at hstanding
  have hf : ∃ g, m.current f = some g := by
    refine h.occupied (w := w) ?_
    rw [hp]
    cases cb with
    | true => exact .inl rfl
    | false => exact .inr (.inl rfl)
  have howned : Owned (Function.update m.pc w (.switch f cb)) m.cb_fiber m.current
      (Function.update m.fibers f { m.fibers f with state := .EXEC }) :=
    h.owned.goOn (by rw [hp]; cases cb <;> rfl) nofun fun _ hg => update_of_empty hf _ hg
  refine h.go hn hb hx rfl rfl rfl rfl rfl (fun _ _ => rfl) howned hfree h.past
    (h.finished_update fun g hg => ?_) (h.loads_update (fun _ _ => rfl) (fun _ _ => rfl) (h.loads f)) ?_
  · rw [h.finished f g hg]
    exact ⟨fun he => absurd he hended,fun he => by cases he <;> contradiction⟩
  · refine ⟨fun i hi => ?_,fun i hi => ?_,nofun,nofun⟩
    · have hway : (Pc.swapIn f cb).way = .fiber i := by cases cb <;> exact hi
      obtain rfl : f = i := by cases cb <;> cases hi; rfl
      obtain ⟨hctx,hnew⟩ := hstanding.starts f hway
      refine ⟨?_,hnew⟩
      show (Function.update m.fibers f _ f).ctx = _
      rw [Function.update_self]
      exact hctx
    · exact hstanding.carries i (by cases cb <;> exact hi)

omit [DecidableEq E] in
theorem Sound.switch (h : Sound m) {t : Tasks W E} {w : W} {f : ℕ} {cb : Bool}
    (hp : m.pc w = .switch f cb) (hn : Tasks.Numbered t) (hb : FibersExist t.toScheduler)
    (hx : Exclusive t.fibers t.pc) (hentries : t.entries = m.entries) (hhand : t.hand = m.hand)
    (hserial : t.serial = m.serial)
    (ht : t.toScheduler =
      (m.setFiber f { m.fibers f with ctx := .live }).goto w (.running f cb)) :
    Sound { m with toTasks := t, ran := Function.update m.ran w (m.loaded f) } := by
  have hfits := h.exclusive.fits w f (by rw [hp]; rfl)
  rw [hp] at hfits
  have hw : (m.pc w).way = .fiber f ∨ (m.pc w).carries = some f ∨ (m.pc w).engages = some f :=
    Pc.of_handles (by rw [hp]; rfl)
  have hf := h.occupied hw
  have hsole : ∀ u, m.cb_fiber u = some f → (Pc.running f cb).busyWith = some f := by
    intro u hu
    obtain ⟨g,hg⟩ := hf
    have hbusy := h.owned.busy hu hg
    have huw : u = w := by
      by_cases hway : (m.pc u).way = .fiber f
      · exact h.starts_alone hway hw
      · refine h.exclusive.one u w f ?_ (by rw [hp]; rfl)
        exact Pc.handles_of_busyWith hbusy hway
    subst huw
    rw [hp] at hbusy
    cases cb with
    | true => rfl
    | false => cases hbusy
  have howned : Owned t.pc t.cb_fiber m.current t.fibers := by
    rw [ht]
    refine h.owned.goOn (by rw [hp]; cases cb <;> rfl) (fun g hg => .inr ?_) fun _ hg =>
      update_of_empty hf _ hg
    cases hg
    by_cases hnone : ∀ u, m.cb_fiber u ≠ some f
    · exact .inr hnone
    · obtain ⟨u,hu⟩ := not_forall_not.mp hnone
      exact .inl (hsole u hu)
  refine h.go hn hb hx hentries hhand hserial (by rw [ht]; rfl) (by rw [ht]; rfl)
    (fun _ hu => Function.update_of_ne hu ..) howned (h.free (by rw [hp]; rfl)) h.past
    (fun i g hg => ?_) (fun i => ?_) ?_
  · rw [ht]
    exact h.finished_update (x := { m.fibers f with ctx := .live }) (h.finished f) i g hg
  · rw [ht]
    exact h.loads_update (x := { m.fibers f with ctx := .live }) (fun _ _ => rfl) (fun _ _ => rfl)
      (fun hctx => absurd rfl hctx) i
  · refine ⟨by cases cb <;> nofun,nofun,fun i hi => ?_,nofun⟩
    cases hi
    exact ⟨(Function.update_self ..).trans (h.loads f hfits.2),hf⟩

omit [DecidableEq E] in
theorem Sound.swapOut (h : Sound m) {w : W} {f : ℕ} {cb : Bool} (hp : m.pc w = .swapOut f cb)
    {s : Scheduler W E}
    (hs : s = (m.setFiber f { m.fibers f with ctx := .saved }).goto w (.swapped f cb))
    (hn : Tasks.Numbered { m.toTasks with toScheduler := s }) (hb : FibersExist s)
    (hx : Exclusive s.fibers s.pc) :
    Sound { m with
      toTasks := { m.toTasks with toScheduler := s }
      suspended := Function.update m.suspended f (m.ran w) } := by
  subst hs
  obtain ⟨hran,hf⟩ := (h.standing w).engages f (by rw [hp]; rfl)
  have howned : Owned (Function.update m.pc w (.swapped f cb)) m.cb_fiber m.current
      (Function.update m.fibers f { m.fibers f with ctx := .saved }) :=
    h.owned.goOn (by rw [hp]; cases cb <;> rfl) (fun g hg => .inl (by rw [hp]; exact hg))
      fun _ hg => update_of_empty hf _ hg
  refine h.go hn hb hx rfl rfl rfl rfl rfl (fun _ _ => rfl) howned (h.free (by rw [hp]; rfl))
    h.past (h.finished_update (h.finished f))
    (h.loads_update (fun _ _ => rfl) (fun _ hi => Function.update_of_ne hi ..) fun _ => ?_) ?_
  · rw [if_neg (by simp), Function.update_self, hran]
  · refine ⟨by cases cb <;> nofun,nofun,fun i hi => ?_,nofun⟩
    cases hi
    exact ⟨hran,hf⟩

omit [DecidableEq E] in
/-- A worker goes on with the fiber it has entered, or leaves it, and the fiber stays as it is. -/
theorem Sound.leave (h : Sound m) {s : Scheduler W E} {w : W} {old p : Pc}
    (hn : Tasks.Numbered { m.toTasks with toScheduler := s }) (hb : FibersExist s)
    (hx : Exclusive s.fibers s.pc) (hw : m.pc w = old) (hpc : s.pc = Function.update m.pc w p)
    (hf : s.fibers = m.fibers) (hcb : s.cb_fiber = m.cb_fiber) (hbusy : p.busyWith = old.busyWith)
    (hstarts : p.way = .none) (hcarries : p.carries = none)
    (he : ∀ f, p.engages = some f → old.engages = some f)
    (hhold : ∀ f cb, p = .hold f cb → ¬(m.fibers f).state.Ended) :
    Sound { m with toTasks := { m.toTasks with toScheduler := s } } := by
  refine h.pass hn hb hx hpc hf ?_ ⟨fun f hway => ?_,fun f hc => ?_,fun f hf => ?_,hhold⟩
  · rw [hpc, hcb]
    exact h.owned.goOn (by rw [hw, hbusy]) (fun f hf => .inl (hw ▸ he f hf)) fun _ _ => rfl
  · rw [hstarts] at hway
    cases hway
  · rw [hcarries] at hc
    cases hc
  · exact (h.standing w).engages f (hw ▸ he f hf)

omit [DecidableEq E] in
theorem Sound.swapped (h : Sound m) {w : W} {f : ℕ} {cb : Bool} (hp : m.pc w = .swapped f cb)
    (hg : Unreferenced m.toScheduler (.swapped f cb))
    (hn : Tasks.Numbered (m.toTasks.follow (m.toScheduler.swapped w f cb) (.next w)))
    (hb : FibersExist (m.toScheduler.swapped w f cb))
    (hx : Exclusive (m.toScheduler.swapped w f cb).fibers (m.toScheduler.swapped w f cb).pc) :
    Sound (m.follow (m.toTasks.follow (m.toScheduler.swapped w f cb) (.next w)) (.next w)) := by
  have holds : ¬(m.fibers f).state.Ended → ∀ i c, Pc.hold f cb = .hold i c →
      ¬(m.fibers i).state.Ended := by
    rintro hno i c hic
    cases hic
    exact hno
  cases cb with
  | false =>
    simp only [Tasks.follow, References.follow, hp, Bool.false_eq_true, false_and, if_false]
      at hn ⊢
    revert hn hb hx
    unfold Scheduler.swapped
    cases hs : (m.fibers f).state with
    | READY =>
      exact fun hb hx hn => h.leave hn hb hx hp rfl rfl rfl rfl rfl rfl (fun _ hg => hg)
        (fun i c hi => by cases hi)
    | TERM | EXCEPT =>
      exact fun hb hx hn => h.leave hn hb hx hp rfl rfl rfl rfl rfl rfl
        (fun _ hg => by cases hg) (fun i c hi => by cases hi)
    | INIT | HOLD | EXEC =>
      refine fun hb hx hn => h.leave hn hb hx hp rfl rfl rfl rfl rfl rfl (fun _ hg => hg)
        (holds fun he => ?_)
      rw [hs] at he
      rcases he with he | he <;> cases he
  | true =>
    have hbusy : (m.pc w).busyWith = some f := by rw [hp]; rfl
    by_cases hended : (m.fibers f).state.Ended
    · have hcond : (m.fibers f).state = .TERM ∨ (m.fibers f).state = .EXCEPT := hended
      obtain ⟨hqueue,hcarries⟩ := hg hended
      have hs : m.toScheduler.swapped w f true = (m.setFiber f .new).goto w .top := by
        unfold Scheduler.swapped
        rcases hended with hs | hs <;> rw [hs] <;> rfl
      simp only [Tasks.follow, References.follow, hp, true_and, if_pos hended, if_pos hcond] at hn ⊢
      rw [hs] at hn hb hx ⊢
      exact h.clear hn hb hx rfl rfl rfl hp hqueue hcarries rfl rfl rfl
    · have hcond : ¬((m.fibers f).state = .TERM ∨ (m.fibers f).state = .EXCEPT) := hended
      simp only [Tasks.follow, References.follow, hp, true_and, if_neg hended, if_neg hcond] at hn ⊢
      revert hn hb hx
      unfold Scheduler.swapped
      cases hs : (m.fibers f).state with
      | READY =>
        refine fun hb hx hn => h.pass hn hb hx rfl rfl ?_ ⟨(fun i hi => by cases hi),
          (fun i hi => by cases hi),fun i hi => ?_,fun i c hi => by cases hi⟩
        · exact h.owned.drop hbusy rfl (fun g hg => by cases hg; rfl) fun _ _ => rfl
        · exact (h.standing w).engages i (by rw [hp]; exact hi)
      | TERM => exact absurd (.inl hs) hended
      | EXCEPT => exact absurd (.inr hs) hended
      | INIT | HOLD | EXEC =>
        exact fun hb hx hn => h.leave hn hb hx hp rfl rfl rfl rfl rfl rfl (fun _ hg => hg)
          (holds hended)

omit [DecidableEq E] in
theorem Sound.setHold (h : Sound m) {w : W} {f : ℕ} {cb : Bool} (hp : m.pc w = .hold f cb)
    {s : Scheduler W E}
    (hs : s = ((if cb then m.setCb w none else m.toScheduler).setState f .HOLD).goto w .top)
    (hn : Tasks.Numbered { m.toTasks with toScheduler := s }) (hb : FibersExist s)
    (hx : Exclusive s.fibers s.pc) : Sound { m with toTasks := { m.toTasks with toScheduler := s } } := by
  obtain ⟨-,hf⟩ := (h.standing w).engages f (by rw [hp]; rfl)
  have hno : ¬(m.fibers f).state.Ended := (h.standing w).hold f cb hp
  have hpc : s.pc = Function.update m.pc w .top := by
    rw [hs]
    cases cb <;> rfl
  have hfibers : s.fibers = Function.update m.fibers f { m.fibers f with state := .HOLD } := by
    rw [hs]
    cases cb <;> rfl
  have howned : Owned s.pc s.cb_fiber m.current s.fibers := by
    rw [hpc, hfibers, hs]
    cases cb with
    | true => exact h.owned.drop (by rw [hp]; rfl) rfl nofun fun _ hg => update_of_empty hf _ hg
    | false => exact h.owned.goOn (by rw [hp]; rfl) nofun fun _ hg => update_of_empty hf _ hg
  refine h.go hn hb hx rfl rfl rfl hpc hfibers (fun _ _ => rfl) howned (h.free (by rw [hp]; rfl))
    h.past (fun i g hg => ?_) (fun i => ?_) (.blank rfl rfl rfl (by simp))
  · show _ ↔ (s.fibers i).state.Ended
    rw [hfibers]
    refine h.finished_update (fun g hg => ?_) i g hg
    rw [h.finished f g hg]
    exact ⟨fun he => absurd he hno,fun he => by cases he <;> contradiction⟩
  · show (s.fibers i).ctx ≠ _ → (if (s.fibers i).ctx = _ then _ else _) = _
    rw [hfibers]
    exact h.loads_update (x := { m.fibers f with state := .HOLD }) (fun _ _ => rfl) (fun _ _ => rfl)
      (h.loads f) i

omit [DecidableEq E] in
/-- A task that runs gives up its thread. -/
theorem Sound.giveUp (h : Sound m) {w : W} {f : ℕ} {cb : Bool} {l : Leave}
    (hp : m.pc w = .running f cb)
    (hn : Tasks.Numbered (m.toTasks.follow ((m.setState f l.state).goto w (.swapOut f cb))
      (.leave w l)))
    (hb : FibersExist ((m.setState f l.state).goto w (.swapOut f cb)))
    (hx : Exclusive ((m.setState f l.state).goto w (.swapOut f cb)).fibers
      ((m.setState f l.state).goto w (.swapOut f cb)).pc) :
    Sound (m.follow (m.toTasks.follow ((m.setState f l.state).goto w (.swapOut f cb))
      (.leave w l)) (.leave w l)) := by
  obtain ⟨hran,g,hg⟩ := (h.standing w).engages f (by rw [hp]; rfl)
  obtain ⟨hexec,hlive⟩ : (m.fibers f).state = .EXEC ∧ (m.fibers f).ctx = .live := by
    have hfits := h.exclusive.fits w f (by rw [hp]; rfl)
    rwa [hp] at hfits
  have hrest : ¬(m.fibers f).state.Ended := by
    rw [hexec]
    rintro (he | he) <;> cases he
  have hown : ∀ x, Owned (Function.update m.pc w (.swapOut f cb)) m.cb_fiber m.current
      (Function.update m.fibers f x) := fun x =>
    h.owned.goOn (by rw [hp]; cases cb <;> rfl) (fun i hi => .inl (by rw [hp]; exact hi))
      fun _ hi => update_of_empty ⟨g,hg⟩ _ hi
  have hfree := h.free (w := w) (f := f) (by rw [hp]; rfl)
  have hpast : ∀ i n, (i,n) ∈ m.ended++[(f,g)] → n < m.generation i := by
    intro i n hmem
    rcases List.mem_append.mp hmem with hmem | hmem
    · exact h.past i n hmem
    · cases List.mem_singleton.mp hmem
      exact h.recent f g hg
  have hfinished : ∀ x : Fiber, x.state.Ended → ∀ i n, m.current i = some n →
      ((i,n) ∈ m.ended++[(f,g)] ↔ (Function.update m.fibers f x i).state.Ended) := by
    intro x hxe i n hin
    rw [List.mem_append, List.mem_singleton]
    by_cases hif : i = f
    · subst hif
      obtain rfl : g = n := Option.some.inj (hg.symm.trans hin)
      rw [Function.update_self]
      exact ⟨fun _ => hxe,fun _ => .inr rfl⟩
    · rw [Function.update_of_ne hif, ← h.finished i n hin]
      exact ⟨fun hi => hi.resolve_right fun he => hif (congrArg Prod.fst he),.inl⟩
  have hyield : ∀ x : Fiber, ¬x.state.Ended → ∀ i n, m.current i = some n →
      ((i,n) ∈ m.ended ↔ (Function.update m.fibers f x i).state.Ended) := by
    intro x hx
    refine h.finished_update fun n hn => ?_
    rw [h.finished f n hn]
    exact ⟨fun he => absurd he hrest,fun he => absurd he hx⟩
  have hstanding : ∀ {m' : References W E}, m'.ran = m.ran → m'.current = m.current →
      m'.Standing w (.swapOut f cb) := by
    intro m' hr hc
    refine ⟨by cases cb <;> nofun,nofun,fun i hi => ?_,nofun⟩
    cases hi
    rw [hr, hc]
    exact ⟨hran,g,hg⟩
  have hvacuous : ∀ {x : Fiber} {c : Option ℕ}, x.ctx = .live → x.ctx ≠ .live →
      (if x.ctx = .fresh then c else m.suspended f) = m.current f :=
    fun hx hctx => absurd hx hctx
  have htoList : (m.ran w).toList.map (fun g => (f,g)) = [(f,g)] := by
    rw [hran, hg]
    rfl
  cases l with
  | YieldToHold | YieldToReady =>
    simp only [Tasks.follow, References.follow, hp] at hn ⊢
    exact h.go hn hb hx rfl rfl rfl rfl rfl (fun _ _ => rfl) (hown _) hfree h.past
      (hyield _ (by rintro (he | he) <;> cases he))
      (h.loads_update (fun _ _ => rfl) (fun _ _ => rfl) (hvacuous hlive)) (hstanding rfl rfl)
  | term =>
    simp only [Tasks.follow, References.follow, hp, htoList] at hn ⊢
    exact h.go hn hb hx rfl rfl rfl rfl rfl (fun _ _ => rfl) (hown _) hfree hpast
      (hfinished _ (.inl rfl))
      (h.loads_update (fun _ hi => Function.update_of_ne hi ..) (fun _ _ => rfl) (hvacuous hlive))
      (hstanding rfl rfl)
  | except =>
    simp only [Tasks.follow, References.follow, hp, htoList] at hn ⊢
    exact h.go hn hb hx rfl rfl rfl rfl rfl (fun _ _ => rfl) (hown _) hfree hpast
      (hfinished _ (.inr rfl))
      (h.loads_update (fun _ _ => rfl) (fun _ _ => rfl) (hvacuous hlive)) (hstanding rfl rfl)

theorem Sound.repush (h : Sound m) {w : W} {f : ℕ} (hp : m.pc w = .repush f)
    {t : Tasks W E} (hn : Tasks.Numbered t) (hb : FibersExist t.toScheduler)
    (hx : Exclusive t.fibers t.pc)
    (ht : t = { m.toTasks.record ⟨.fiber f,.any⟩ with
      toScheduler := (m.toScheduler.push (.worker w) ⟨.fiber f,.any⟩).goto w .top }) :
    Sound { m with
      toTasks := t
      held := m.held++(m.ran w).toList.map fun g => (f,g)
      captured := Function.update m.captured m.serial (m.ran w) } := by
  subst ht
  obtain ⟨hran,g,hg⟩ := (h.standing w).engages f (by rw [hp]; rfl)
  have hfree : ∀ u, (m.pc u).way ≠ .fiber f := fun u hu => by
    obtain rfl := h.starts_alone hu (.inr (.inr (by rw [hp]; rfl)) : (m.pc w).way = _ ∨ _)
    rw [hp] at hu
    cases hu
  have hgo : Owned (Function.update m.pc w .top) m.cb_fiber m.current m.fibers :=
    h.owned.goOn (by rw [hp]; rfl) nofun fun _ _ => rfl
  have htoList : (m.ran w).toList.map (fun g => (f,g)) = [(f,g)] := by
    rw [hran, hg]
    rfl
  rw [htoList]
  refine (h.hold hg hfree).push hn hb hx rfl rfl rfl rfl hgo (fun u => ?_)
    (fun k hk => Function.update_of_ne (Nat.ne_of_lt hk) ..) fun i hi => ?_
  · by_cases huw : u = w
    · subst huw
      exact .inr (Function.update_self ..)
    · exact .inl (Function.update_of_ne huw ..)
  · cases hi
    exact ⟨g,by rw [Function.update_self, hran, hg],hg,List.mem_append_right _ (List.mem_singleton_self _)⟩

/-- What a statement of the workers preserves. -/
theorem Sound.run (h : Sound m) {i : Scheduler.Step W E} {s : Scheduler W E}
    (hi : ∀ a t, i ≠ .schedule a t) (hf : s.failed = false) (hs : Moves m.toScheduler i s)
    (hg : m.Faithful (.run i)) : Sound (m.follow (m.toTasks.follow s i) i) := by
  have hn := h.numbered.run hi hf hs
  have hb := h.exist.step hs
  have halone : SwapInAlone m.toScheduler i := by
    cases i with
    | next w => exact hg.1
    | _ => trivial
  have hx := h.exclusive.step h.exist halone hs
  cases hs with
  | failed => cases hf
  | tickle | write | drain => exact h.still hn hb hx rfl rfl rfl
  | @schedule a t => exact absurd rfl (hi a t)
  | create =>
    obtain ⟨hqueue,hnone,hfree⟩ := h.not_created
    exact h.place hn hb hx rfl rfl rfl rfl (h.owned.change hnone _ _) hfree hqueue (.inr rfl)
      fun u => .inl rfl
  | lock _ hp | enterIdle _ hp | stopping hp | epollWait hp | leaveIdle hp =>
    simp only [Tasks.follow, References.follow, hp] at hn ⊢
    exact h.idle hn hb hx hp rfl rfl rfl rfl rfl rfl (.blank rfl rfl rfl (by simp))
  | examine _ hp => exact h.examine hp hn hb hx
  | dispatch _ hp => exact h.dispatch hp hn hb hx
  | @swapIn w f cb hp he =>
    obtain ⟨hfree,hended⟩ := hg
    rw [SwapInAlone, hp] at hfree
    rw [hp] at hended
    simp only [Tasks.follow, References.follow, hp] at hn ⊢
    exact h.swapIn hp (hfree he) hended hn hb hx
  | @switch w f cb hp =>
    simp only [Tasks.follow, References.follow, hp] at hn ⊢
    refine h.switch hp hn hb hx ?_ ?_ ?_ rfl <;> (unfold Tasks.start; split <;> rfl)
  | swapOut hp =>
    simp only [Tasks.follow, References.follow, hp] at hn ⊢
    exact h.swapOut hp rfl hn hb hx
  | swapped hp =>
    have hempty := hg.2
    rw [hp] at hempty
    exact h.swapped hp hempty hn hb hx
  | hold hp =>
    simp only [Tasks.follow, References.follow, hp] at hn ⊢
    exact h.setHold hp rfl hn hb hx
  | repush _ hp =>
    simp only [Tasks.follow, References.follow, hp] at hn ⊢
    exact h.repush hp hn hb hx rfl
  | leave hp => exact h.giveUp hp hn hb hx

theorem Sound.schedule (h : Sound m) {a : Actor W E} {item : Item} {thread : Pin W}
    {t : Tasks W E} {captured : ℕ → Option ℕ}
    (ht : m.toTasks.step (.schedule a (.value (some item)) thread) = some t)
    (hcaptured : ∀ k, k < m.serial → captured k = m.captured k)
    (htask : ∀ f, item = .fiber f →
      ∃ g, captured m.serial = some g ∧ m.current f = some g ∧ (f,g) ∈ m.held) :
    Sound { m with toTasks := t, captured } := by
  have hn := h.numbered.step ht
  obtain ⟨⟨-,hitem⟩,ht⟩ := Option.ite_none_right_eq_some.mp ht
  cases ht
  have hentries : (m.toTasks.record ⟨item,thread⟩).entries =
      m.entries++[(m.serial,⟨item,thread⟩)] := rfl
  exact h.push hn (h.exist.push (hitem item rfl)) h.exclusive hentries rfl rfl rfl h.owned
    (fun _ => .inl rfl) hcaptured htask

theorem Sound.step (h : Sound m) {i : Step W E} (hg : m.Faithful i) (hs : m.step i = some m') :
    Sound m' := by
  cases i with
  | capture w =>
    simp only [References.step] at hs
    split at hs
    · next f cb hp =>
      obtain ⟨-,hs⟩ := Option.ite_none_left_eq_some.mp hs
      cases hs
      obtain ⟨hran,g,hcurrent⟩ := (h.standing w).engages f (by rw [hp]; rfl)
      rw [hran, hcurrent]
      refine h.hold hcurrent fun u hu => ?_
      obtain rfl := h.starts_alone hu (.inr (.inr (by rw [hp]; rfl)) : (m.pc w).way = _ ∨ _)
      rw [hp] at hu
      cases hu
    · cases hs
  | schedule a f g thread =>
    obtain ⟨hheld,hs⟩ := Option.ite_none_right_eq_some.mp hs
    obtain ⟨t,ht,rfl⟩ := Option.map_eq_some_iff.mp hs
    refine h.schedule ht (fun k hk => Function.update_of_ne (Nat.ne_of_lt hk) ..) fun i hi => ?_
    cases hi
    exact ⟨g,Function.update_self ..,hg,List.contains_iff_mem.mp hheld⟩
  | scheduleCb a thread =>
    obtain ⟨t,ht,rfl⟩ := Option.map_eq_some_iff.mp hs
    exact h.schedule ht (fun _ _ => rfl) nofun
  | run i =>
    obtain ⟨t,ht,rfl⟩ := Option.map_eq_some_iff.mp hs
    obtain ⟨hi,s,hstep,rfl⟩ := Tasks.step_run ht
    have hmoves := step_moves hstep
    by_cases hf : s.failed = true
    · have hm : m.failed = false := by
        unfold Scheduler.step at hstep
        split at hstep
        · cases hstep
        · next hm => simpa using hm
      have hn := h.numbered.step ht
      have hfailed : ({ m.toTasks with toScheduler := s } : Tasks W E).failed = true := hf
      rw [if_pos hf] at hn ⊢
      rw [if_pos hfailed]
      obtain rfl := Tasks.eq_fail_of_failed hm hf hmoves
      exact h.still hn h.exist h.exclusive rfl rfl rfl
    · have hfollow : (m.toTasks.follow s i).failed = s.failed := by
        rw [(Tasks.follow_toScheduler m.toTasks s i).1]
      rw [if_neg hf, hfollow, if_neg hf]
      exact h.run hi (by simpa using hf) hmoves hg

omit [DecidableEq W] [DecidableEq E] in
theorem Sound.resumes (h : Sound m) : Resumes m where
  reference w f hp := by
    obtain ⟨k,hk,g,hcaptured,hcurrent,-⟩ := (h.standing w).carries f (by rw [hp]; rfl)
    have hfits := h.exclusive.fits w f (by rw [hp]; rfl)
    rw [hp] at hfits
    refine ⟨k,g,hk,hcaptured,(h.loads f hfits.2).trans hcurrent,fun hended => ?_⟩
    rw [h.finished f g hcurrent, hfits.1] at hended
    rcases hended with he | he <;> cases he
  dropped w f hp hended := by
    obtain ⟨k,hk,g,hcaptured,hcurrent,-⟩ := (h.standing w).carries f (by rw [hp]; rfl)
    exact ⟨k,g,hk,hcaptured,(h.finished f g hcurrent).mpr hended⟩
  callback w f hp := by
    obtain ⟨hctx,g,hcurrent,-⟩ := (h.standing w).starts f (by rw [hp]; rfl)
    have hfits := h.exclusive.fits w f (by rw [hp]; rfl)
    rw [hp] at hfits
    refine ⟨hctx,g,(h.loads f hfits.2).trans hcurrent,fun hended => ?_⟩
    rw [h.finished f g hcurrent, hfits.1] at hended
    rcases hended with he | he <;> cases he

/-- While references are put on the queue for tasks that are still in their fibers, `reset(nullptr)`
finds no reference to its fiber, and `swapIn` is called for tasks that have not ended and that
all other workers have left, every queue element resumes the task that took the reference, or
is dropped when that task has ended. -/
theorem resumes_of_faithful {m : References W E} (h : (machine W E).Reaches Faithful m) : Resumes m := by
  have hsound : Sound m := h.invariant (fun _ hi => hi ▸ sound_initial)
    fun _ _ _ hm hg hs => hm.step hg (hs : References.step _ _ = _)
  exact hsound.resumes

end sound

/-- A callback schedules its fiber and yields, and is resumed. -/
theorem resumes_yield : ∃ m : References (Fin 1) (Fin 1), m.pc 0 = .switch 0 false ∧ Resumes m := by
  obtain ⟨m,hm,hp⟩ := Transition.Machine.exists_reaches
    (M := machine (Fin 1) (Fin 1)) (G := Faithful) rfl
    [.scheduleCb (.caller 0) .any,.run (.tickle (.caller 0)),.run (.next 0),.run (.next 0),
      .run (.next 0),.run (.next 0),.run (.next 0),.capture 0,
      .schedule (.worker 0) 0 0 .any,.run (.tickle (.worker 0)),.run (.leave 0 .YieldToHold),
      .run (.next 0),.run (.next 0),.run (.next 0),.run (.next 0),.run (.next 0),.run (.next 0),
      .run (.next 0)]
    (fun m => m.pc 0 = .switch 0 false) (by decide) (by decide)
  exact ⟨m,hp,resumes_of_faithful hm⟩

/-- A callback schedules its fiber and ends; the worker resets the fiber, and resumes it for the
queue element, which starts an empty function. -/
theorem not_resumes : ¬∀ m : References (Fin 1) (Fin 1),
    (machine (Fin 1) (Fin 1)).Reachable m → Resumes m := by
  intro h
  obtain ⟨m,hm,hp,hloaded⟩ := Transition.Machine.exists_reaches
    (M := machine (Fin 1) (Fin 1)) rfl
    [.scheduleCb (.caller 0) .any,.run (.tickle (.caller 0)),.run (.next 0),.run (.next 0),
      .run (.next 0),.run (.next 0),.run (.next 0),.capture 0,
      .schedule (.worker 0) 0 0 .any,.run (.tickle (.worker 0)),.run (.leave 0 .term),
      .run (.next 0),.run (.next 0),.run (.next 0),.run (.next 0),.run (.next 0),.run (.next 0)]
    (fun m => m.pc 0 = .switch 0 false ∧ m.loaded 0 = none)
    (Transition.Machine.guarded_true ..) (by decide)
  obtain ⟨k,g,-,-,hg,-⟩ := (h m hm).reference 0 0 hp
  rw [hloaded] at hg
  cases hg

end References
end CoroutineWebserve
