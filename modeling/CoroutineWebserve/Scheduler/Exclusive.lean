import CoroutineWebserve.Scheduler.Model
import Mathlib.Data.Fintype.Basic

/-!
# One thread at a time for a fiber

A worker handles a fiber from the moment `swapIn` marks it `EXEC` until `run` is through
with its state. If `swapIn` is only called on fibers that no other worker handles, then
every fiber runs on one thread, from a saved context, with state `EXEC`.
-/
namespace CoroutineWebserve.Scheduler
variable {W E : Type*} [DecidableEq W]

/-- The fiber a worker handles at this place of `run`. -/
def Pc.handles : Pc → Option ℕ
  | .switch f _ | .running f _ | .swapOut f _ | .swapped f _ | .hold f _ => some f
  | .top | .scan .. | .scanned _ | .swapIn .. | .repush _ | .stopping | .epollWait
  | .woken => none

/-- The fiber a worker mentions at this place of `run`. -/
def Pc.names : Pc → Option ℕ
  | .switch f _ | .running f _ | .swapOut f _ | .swapped f _ | .hold f _ | .swapIn f _
  | .repush f | .scanned (some (.fiber f)) => some f
  | .top | .scan .. | .scanned (some .cb) | .scanned none | .stopping | .epollWait
  | .woken => none

theorem Pc.names_of_handles {pc : Pc} {f : ℕ} (h : pc.handles = some f) : pc.names = some f := by
  cases pc <;> simp_all [handles, names]

/-- What a fiber looks like that is handled at a place of `run`; one that is not handled is
`atRest`. -/
def Fiber.AtRest (x : Fiber) : Prop := x.state ≠ .EXEC ∧ x.ctx ≠ .live

def Pc.Fits (x : Fiber) : Pc → Prop
  | .switch .. => x.state = .EXEC ∧ x.ctx ≠ .live
  | .running .. => x.state = .EXEC ∧ x.ctx = .live
  | .swapOut .. => x.state ≠ .EXEC
  | .swapped .. | .hold .. | .top | .scan .. | .scanned _ | .swapIn .. | .repush _ | .stopping
  | .epollWait | .woken => x.AtRest

theorem Fiber.new_atRest : Fiber.new.AtRest := by simp [Fiber.AtRest, Fiber.new]

/-- A fiber that is reset fits wherever it is handled outside of its execution. -/
theorem Pc.fits_new {pc : Pc} {x : Fiber} (h : pc.Fits x) (hr : x.state.Resettable) :
    pc.Fits .new := by
  have hne : x.state ≠ .EXEC := by
    rcases hr with hr | hr | hr <;> simp [hr]
  cases pc <;> simp_all [Pc.Fits, Fiber.AtRest, Fiber.new]

/-! ### Numbers of fibers -/

/-- Only fibers that exist are mentioned. -/
structure Bounded (created : ℕ) (pc : W → Pc) (cb_fiber : W → Option ℕ)
    (queue : List (Task W)) : Prop where
  pc : ∀ w f, (pc w).names = some f → f < created
  cb_fiber : ∀ w f, cb_fiber w = some f → f < created
  queue : ∀ t ∈ queue, t.item.Valid created

theorem Item.Valid.mono {item : Item} {k l : ℕ} (h : item.Valid k) (hkl : k ≤ l) :
    item.Valid l := by
  cases item with
  | fiber f => exact Nat.lt_of_lt_of_le h hkl
  | cb => trivial

namespace Bounded
variable {created : ℕ} {pc : W → Pc} {cb_fiber : W → Option ℕ} {queue : List (Task W)}

theorem goto (h : Bounded created pc cb_fiber queue) (w : W) {pc' : Pc}
    (hpc : ∀ f, pc'.names = some f → f < created) :
    Bounded created (Function.update pc w pc') cb_fiber queue := by
  refine ⟨fun u f hu => ?_,h.cb_fiber,h.queue⟩
  by_cases he : u = w
  · subst he
    exact hpc f (by simpa using hu)
  · exact h.pc u f (by simpa [he] using hu)

/-- A worker goes on with the fiber it mentions. -/
theorem goOn (h : Bounded created pc cb_fiber queue) {w : W} {old pc' : Pc} (hw : pc w = old)
    (hpc : pc'.names = old.names) : Bounded created (Function.update pc w pc') cb_fiber queue :=
  h.goto w fun f hf => h.pc w f (by rw [hw, ← hpc, hf])

/-- A worker goes where it mentions no fiber. -/
theorem drop (h : Bounded created pc cb_fiber queue) (w : W) {pc' : Pc}
    (hpc : pc'.names = none) : Bounded created (Function.update pc w pc') cb_fiber queue :=
  h.goto w fun f hf => by simp [hpc] at hf

theorem setCb (h : Bounded created pc cb_fiber queue) (w : W) {o : Option ℕ}
    (ho : ∀ f, o = some f → f < created) :
    Bounded created pc (Function.update cb_fiber w o) queue := by
  refine ⟨h.pc,fun u f hu => ?_,h.queue⟩
  by_cases he : u = w
  · subst he
    exact ho f (by simpa using hu)
  · exact h.cb_fiber u f (by simpa [he] using hu)

omit [DecidableEq W] in
theorem create (h : Bounded created pc cb_fiber queue) :
    Bounded (created+1) pc cb_fiber queue :=
  ⟨fun w f hf => Nat.lt_succ_of_lt (h.pc w f hf),
    fun w f hf => Nat.lt_succ_of_lt (h.cb_fiber w f hf),
    fun t ht => (h.queue t ht).mono (Nat.le_succ _)⟩

omit [DecidableEq W] in
theorem push (h : Bounded created pc cb_fiber queue) {t : Task W} (ht : t.item.Valid created) :
    Bounded created pc cb_fiber (queue++[t]) := by
  refine ⟨h.pc,h.cb_fiber,fun u hu => ?_⟩
  rcases List.mem_append.mp hu with hu | hu
  · exact h.queue u hu
  · exact List.mem_singleton.mp hu ▸ ht

end Bounded

abbrev FibersExist (m : Scheduler W E) : Prop := Bounded m.created m.pc m.cb_fiber m.queue

namespace FibersExist
variable [DecidableEq E] {m : Scheduler W E}

theorem examine (h : FibersExist m) (w : W) (i : ℕ) (tickle_me : Bool) :
    FibersExist (m.examine w i tickle_me) := by
  unfold Scheduler.examine
  split
  · exact h.drop w rfl
  · next t ht =>
    split
    · exact h.drop w rfl
    split
    · exact h.drop w rfl
    · have ht := h.queue t (List.mem_of_getElem? ht)
      have hnames : ∀ f, (Pc.scanned (some t.item)).names = some f → f < m.created := by
        intro f hf
        cases hi : t.item with
        | fiber g =>
          obtain rfl : g = f := by simpa [hi, Pc.names] using hf
          rwa [hi] at ht
        | cb => simp [hi, Pc.names] at hf
      have hg := h.goto w hnames
      exact ⟨hg.pc,hg.cb_fiber,fun u hu => h.queue u (List.mem_of_mem_eraseIdx hu)⟩

omit [DecidableEq E] in
theorem dispatch (h : FibersExist m) {w : W} {item : Item} (hw : m.pc w = .scanned (some item)) :
    FibersExist (m.dispatch w item) := by
  cases item with
  | fiber f =>
    simp only [Scheduler.dispatch]
    split
    · exact h.drop w rfl
    · exact h.goOn hw rfl
  | cb =>
    simp only [Scheduler.dispatch]
    split
    · next f hf =>
      split
      · exact h.goto w fun g hg => by cases hg; exact h.cb_fiber w f hf
      · exact h
    · exact (h.create.setCb w fun f hf => by cases hf; exact Nat.lt_succ_self _).goto w
        fun f hf => by cases hf; exact Nat.lt_succ_self _

omit [DecidableEq E] in
theorem swapped (h : FibersExist m) {w : W} {f : ℕ} {cb : Bool} (hw : m.pc w = .swapped f cb) :
    FibersExist (m.swapped w f cb) := by
  unfold Scheduler.swapped
  split
  · cases cb
    · exact h.goOn hw rfl
    · exact (h.setCb w (by simp)).goOn hw rfl
  · cases cb <;> exact h.drop w rfl
  · cases cb <;> exact h.drop w rfl
  all_goals exact h.goOn hw rfl

theorem step (h : FibersExist m) {i : Step W E} {m' : Scheduler W E} (hs : Moves m i m') :
    FibersExist m' := by
  cases hs with
  | failed | tickle | write | drain => exact h
  | create => exact h.create
  | schedule _ _ _ hv => exact h.push hv
  | lock | enterIdle | leaveIdle | stopping | epollWait => exact h.drop _ rfl
  | examine => exact h.examine _ _ _
  | dispatch _ hp => exact h.dispatch hp
  | swapIn hp | switch hp | swapOut hp | leave hp => exact h.goOn hp rfl
  | swapped hp => exact h.swapped hp
  | @hold w f cb hp => cases cb <;> [exact h.drop w rfl; exact (h.setCb w (by simp)).drop w rfl]
  | @repush w f hs hp hl =>
    have hf : f < m.created := h.pc w f (by rw [hp]; rfl)
    exact (h.push (t := ⟨.fiber f,.any⟩) hf).drop w rfl

end FibersExist

/-! ### Exclusion -/

/-- Handled fibers are handled once and fit their place, the others are at rest. -/
structure Exclusive (fibers : ℕ → Fiber) (pc : W → Pc) : Prop where
  one : ∀ u w f, (pc u).handles = some f → (pc w).handles = some f → u = w
  fits : ∀ w f, (pc w).handles = some f → (pc w).Fits (fibers f)
  rest : ∀ f, (∀ w, (pc w).handles ≠ some f) → (fibers f).AtRest

namespace Exclusive
variable {fibers : ℕ → Fiber} {pc : W → Pc}

/-- A worker moves between places where it handles nothing. -/
theorem goto (h : Exclusive fibers pc) {w : W} {pc' : Pc} (hold : (pc w).handles = none)
    (hnew : pc'.handles = none) : Exclusive fibers (Function.update pc w pc') := by
  have same : ∀ u, (Function.update pc w pc' u).handles = (pc u).handles := fun u => by
    by_cases he : u = w
    · subst he; simp [hold, hnew]
    · simp [he]
  refine ⟨fun u v f hu hv => h.one u v f (same u ▸ hu) (same v ▸ hv),fun u f hu => ?_,
    fun f hf => h.rest f fun u => same u ▸ hf u⟩
  have hne : u ≠ w := by
    rintro rfl
    simp [hnew] at hu
  simpa [hne] using h.fits u f (same u ▸ hu)

/-- A worker starts, goes on or stops handling a fiber that no other worker handles. -/
theorem handle (h : Exclusive fibers pc) {w : W} {f : ℕ} {pc' : Pc} {x : Fiber}
    (hfree : ∀ u, u ≠ w → (pc u).handles ≠ some f)
    (hold : ∀ g, (pc w).handles = some g → g = f) (hnew : ∀ g, pc'.handles = some g → g = f)
    (hfits : pc'.handles = some f → pc'.Fits x) (hrest : pc'.handles ≠ some f → x.AtRest) :
    Exclusive (Function.update fibers f x) (Function.update pc w pc') := by
  have other : ∀ u g, u ≠ w → (pc u).handles = some g → g ≠ f := fun u g hu hg he =>
    hfree u hu (he ▸ hg)
  refine ⟨fun u v g hu hv => ?_,fun u g hu => ?_,fun g hg => ?_⟩
  · by_cases heu : u = w <;> by_cases hev : v = w
    · rw [heu, hev]
    · subst heu
      simp only [Function.update_self, Function.update_of_ne hev] at hu hv
      exact absurd (hnew g hu) (other v g hev hv)
    · subst hev
      simp only [Function.update_self, Function.update_of_ne heu] at hu hv
      exact absurd (hnew g hv) (other u g heu hu)
    · simp only [Function.update_of_ne heu, Function.update_of_ne hev] at hu hv
      exact h.one u v g hu hv
  · by_cases he : u = w
    · subst he
      rw [Function.update_self] at hu ⊢
      obtain rfl := hnew g hu
      rw [Function.update_self]
      exact hfits hu
    · rw [Function.update_of_ne he] at hu ⊢
      rw [Function.update_of_ne (other u g he hu)]
      exact h.fits u g hu
  · by_cases he : g = f
    · subst he
      rw [Function.update_self]
      exact hrest (by simpa using hg w)
    · rw [Function.update_of_ne he]
      refine h.rest g fun u hu => ?_
      by_cases heu : u = w
      · subst heu; exact he (hold g hu)
      · exact hg u (by simpa [heu] using hu)

omit [DecidableEq W] in
/-- The fiber a worker handles already is handled by no other. -/
theorem alone (h : Exclusive fibers pc) {w : W} {f : ℕ} (hw : (pc w).handles = some f) :
    ∀ u, u ≠ w → (pc u).handles ≠ some f := fun u hu he => hu (h.one u w f he hw)

/-- A worker goes on with the fiber it handles, or lets go of it. -/
theorem goOn (h : Exclusive fibers pc) {w : W} {f : ℕ} {old pc' : Pc} {x : Fiber}
    (hw : pc w = old) (hold : old.handles = some f) (hnew : ∀ g, pc'.handles = some g → g = f)
    (hfits : pc'.Fits x) (hrest : pc'.handles ≠ some f → x.AtRest) :
    Exclusive (Function.update fibers f x) (Function.update pc w pc') :=
  h.handle (h.alone (hw ▸ hold)) (fun g hg => by rw [hw, hold] at hg; cases hg; rfl) hnew
    (fun _ => hfits) hrest

omit [DecidableEq W] in
/-- A reset changes a fiber that may be reset, whoever else handles it. -/
theorem reset (h : Exclusive fibers pc) {f : ℕ} (hr : (fibers f).state.Resettable) :
    Exclusive (Function.update fibers f .new) pc := by
  refine ⟨h.one,fun w g hw => ?_,fun g hg => ?_⟩
  · by_cases he : g = f
    · subst he
      rw [Function.update_self]
      exact Pc.fits_new (h.fits w g hw) hr
    · rw [Function.update_of_ne he]
      exact h.fits w g hw
  · by_cases he : g = f
    · subst he
      rw [Function.update_self]
      exact Fiber.new_atRest
    · rw [Function.update_of_ne he]
      exact h.rest g hg

omit [DecidableEq W] in
/-- A fiber that nobody handles is made anew. -/
theorem create (h : Exclusive fibers pc) {f : ℕ} (hf : ∀ w, (pc w).handles ≠ some f) :
    Exclusive (Function.update fibers f .new) pc := by
  refine ⟨h.one,fun w g hw => ?_,fun g hg => ?_⟩
  · have hne : g ≠ f := by rintro rfl; exact hf w hw
    rw [Function.update_of_ne hne]
    exact h.fits w g hw
  · by_cases he : g = f
    · subst he
      rw [Function.update_self]
      exact Fiber.new_atRest
    · rw [Function.update_of_ne he]
      exact h.rest g hg

/-- A worker goes on or lets go without changing the fiber. -/
theorem pass (h : Exclusive fibers pc) {w : W} {f : ℕ} {old pc' : Pc} (hw : pc w = old)
    (hold : old.handles = some f) (hnew : ∀ g, pc'.handles = some g → g = f)
    (hfits : pc'.Fits (fibers f)) (hrest : (fibers f).AtRest) :
    Exclusive fibers (Function.update pc w pc') := by
  have hg := h.goOn hw hold hnew hfits fun _ => hrest
  rwa [Function.update_eq_self] at hg

end Exclusive

/-- `swapIn` is called on a fiber that no worker handles, or its assertion fails. -/
def EntersAlone (fibers : ℕ → Fiber) (pc : W → Pc) : Pc → Prop
  | .swapIn f _ => (fibers f).state ≠ .EXEC → ∀ u, (pc u).handles ≠ some f
  | _ => True

/-- Every call of `swapIn` is made on a fiber with which every other worker is through. -/
def SwapInAlone (m : Scheduler W E) : Step W E → Prop
  | .next w => EntersAlone m.fibers m.pc (m.pc w)
  | _ => True

instance [Fintype W] (fibers : ℕ → Fiber) (pc : W → Pc) : ∀ p, Decidable (EntersAlone fibers pc p)
  | .swapIn .. => inferInstanceAs (Decidable (_ → ∀ _, _))
  | .top | .scan .. | .scanned _ | .switch .. | .running .. | .swapOut .. | .swapped .. | .hold ..
  | .repush _ | .stopping | .epollWait | .woken => isTrue trivial

instance [Fintype W] (m : Scheduler W E) : ∀ i, Decidable (SwapInAlone m i)
  | .next w => inferInstanceAs (Decidable (EntersAlone m.fibers m.pc (m.pc w)))
  | .create | .schedule .. | .tickle _ | .write _ | .leave .. | .drain _ => isTrue trivial

theorem Leave.state_ne_exec (l : Leave) : l.state ≠ .EXEC := by cases l <;> decide

namespace Exclusive
variable [DecidableEq E] {m : Scheduler W E}

theorem examine (h : Exclusive m.fibers m.pc) {w : W} {i : ℕ} {tickle_me : Bool}
    (hp : m.pc w = .scan i tickle_me) :
    Exclusive (m.examine w i tickle_me).fibers (m.examine w i tickle_me).pc := by
  have hnone : (m.pc w).handles = none := by rw [hp]; rfl
  unfold Scheduler.examine
  split
  · exact h.goto hnone rfl
  · split
    · exact h.goto hnone rfl
    split
    · exact h.goto hnone rfl
    · exact h.goto hnone rfl

omit [DecidableEq E] in
theorem dispatch (h : Exclusive m.fibers m.pc) (hb : FibersExist m) {w : W} {item : Item}
    (hp : m.pc w = .scanned (some item)) :
    Exclusive (m.dispatch w item).fibers (m.dispatch w item).pc := by
  have hnone : (m.pc w).handles = none := by rw [hp]; rfl
  cases item with
  | fiber f =>
    simp only [Scheduler.dispatch]
    split <;> exact h.goto hnone rfl
  | cb =>
    simp only [Scheduler.dispatch]
    split
    · split
      · next hr => exact (h.reset hr).goto hnone rfl
      · exact h
    · have hfree : ∀ u, (m.pc u).handles ≠ some m.created := fun u hu =>
        lt_irrefl _ (hb.pc u _ (Pc.names_of_handles hu))
      exact (h.create hfree).goto hnone rfl

omit [DecidableEq E] in
theorem swapped (h : Exclusive m.fibers m.pc) {w : W} {f : ℕ} {cb : Bool}
    (hp : m.pc w = .swapped f cb) :
    Exclusive (m.swapped w f cb).fibers (m.swapped w f cb).pc := by
  have hrest : (m.fibers f).AtRest := by
    have hf := h.fits w f (by rw [hp]; rfl)
    rwa [hp] at hf
  unfold Scheduler.swapped
  split
  · cases cb <;> exact h.pass hp rfl (fun g hg => by cases hg) hrest hrest
  · cases cb
    · exact h.pass hp rfl (fun g hg => by cases hg) hrest hrest
    · exact h.goOn hp rfl (fun g hg => by cases hg) Fiber.new_atRest fun _ => Fiber.new_atRest
  · cases cb
    · exact h.pass hp rfl (fun g hg => by cases hg) hrest hrest
    · exact h.goOn hp rfl (fun g hg => by cases hg) Fiber.new_atRest fun _ => Fiber.new_atRest
  all_goals exact h.pass hp rfl (fun g hg => by cases hg; rfl) hrest hrest

/-- What a guarded step preserves. -/
theorem step (h : Exclusive m.fibers m.pc) (hb : FibersExist m) {i : Step W E}
    {m' : Scheduler W E} (hg : SwapInAlone m i) (hs : Moves m i m') :
    Exclusive m'.fibers m'.pc := by
  have fits : ∀ {w f pc}, m.pc w = pc → pc.handles = some f → pc.Fits (m.fibers f) :=
    fun hp hf => hp ▸ h.fits _ _ (hp ▸ hf)
  cases hs with
  | failed | tickle | write | drain | schedule => exact h
  | create => exact h.create fun u hu => lt_irrefl _ (hb.pc u _ (Pc.names_of_handles hu))
  | lock _ hp | enterIdle _ hp => exact h.goto (by rw [hp]; rfl) rfl
  | stopping hp | epollWait hp | leaveIdle hp => exact h.goto (by rw [hp]; rfl) rfl
  | repush _ hp _ => exact h.goto (by rw [hp]; rfl) rfl
  | examine _ hp => exact h.examine hp
  | dispatch _ hp => exact h.dispatch hb hp
  | @swapIn w f cb hp he =>
    -- nobody handles the fiber, so it is at rest
    have hfree : ∀ u, (m.pc u).handles ≠ some f := by
      rw [SwapInAlone, hp] at hg
      exact hg he
    refine h.handle (fun u _ => hfree u) (fun g hg => by rw [hp] at hg; cases hg)
      (fun g hg => by cases hg; rfl) (fun _ => ⟨rfl,(h.rest f hfree).2⟩) fun hne => absurd rfl hne
  | switch hp =>
    exact h.goOn hp rfl (fun g hg => by cases hg; rfl) ⟨(fits hp rfl).1,rfl⟩ fun hne =>
      absurd rfl hne
  | @leave w l f cb hp =>
    exact h.goOn hp rfl (fun g hg => by cases hg; rfl) l.state_ne_exec fun hne => absurd rfl hne
  | swapOut hp =>
    exact h.goOn hp rfl (fun g hg => by cases hg; rfl) ⟨fits hp rfl,by simp⟩ fun hne =>
      absurd rfl hne
  | swapped hp => exact h.swapped hp
  | @hold w f cb hp =>
    have hrest : Fiber.AtRest { m.fibers f with state := .HOLD } := ⟨by simp,(fits hp rfl).2⟩
    cases cb <;> exact h.goOn hp rfl (fun g hg => by cases hg) hrest fun _ => hrest

end Exclusive

/-! ### The property -/

/-- Between the assignment of `EXEC` in `swapIn` and its return. -/
def Pc.InSwapIn (pc : Pc) (f : ℕ) : Prop :=
  ∃ cb, pc = .switch f cb ∨ pc = .running f cb ∨ pc = .swapOut f cb

/-- Contexts are loaded only when they have been saved, `swapIn` runs a fiber on one thread
at a time, and a fiber that runs has the state `EXEC` until it gives up its thread. -/
structure RunsOnce (m : Scheduler W E) : Prop where
  saved : ∀ w f cb, m.pc w = .switch f cb → (m.fibers f).ctx ≠ .live
  one : ∀ u w f, (m.pc u).InSwapIn f → (m.pc w).InSwapIn f → u = w
  exec : ∀ w f cb, m.pc w = .running f cb → (m.fibers f).state = .EXEC

omit [DecidableEq W] in
theorem Exclusive.runsOnce {m : Scheduler W E} (h : Exclusive m.fibers m.pc) : RunsOnce m := by
  have handled : ∀ {pc : Pc} {f}, pc.InSwapIn f → pc.handles = some f := by
    rintro _ f ⟨cb,rfl | rfl | rfl⟩ <;> rfl
  refine ⟨fun w f cb hp => ?_,fun u w f hu hw => h.one u w f (handled hu) (handled hw),
    fun w f cb hp => ?_⟩
  · have hf := h.fits w f (by rw [hp]; rfl)
    rw [hp] at hf
    exact hf.2
  · have hf := h.fits w f (by rw [hp]; rfl)
    rw [hp] at hf
    exact hf.1

/-- While every `swapIn` finds its fiber left by all other workers, a fiber runs on at most
one thread at a time. -/
theorem fiber_runs_once [DecidableEq E] {m : Scheduler W E}
    (h : (machine W E).Reaches SwapInAlone m) : RunsOnce m := by
  have hinv : FibersExist m ∧ Exclusive m.fibers m.pc := by
    refine h.invariant (I := fun m => FibersExist m ∧ Exclusive m.fibers m.pc) ?_ ?_
    · rintro _ rfl
      exact ⟨⟨fun _ _ hf => (by cases hf),fun _ _ hf => (by cases hf),fun _ ht => (by cases ht)⟩,
        ⟨fun _ _ _ hf => (by cases hf),fun _ _ hf => (by cases hf),fun _ _ => Fiber.new_atRest⟩⟩
    · intro m i m' hm hg hs
      exact ⟨hm.1.step (step_moves hs),hm.2.step hm.1 hg (step_moves hs)⟩
  exact hinv.2.runsOnce

/-- A fiber is scheduled and worker 0 runs it. -/
def runFiber : List (Step (Fin 2) (Fin 1)) :=
  [.create,.schedule (.caller (.last 0)) ⟨.fiber 0,.any⟩,.tickle (.caller (.last 0)),.next 0,
    .next 0,.next 0,.next 0,.next 0]

theorem fiber_runs_once_twice : ∃ m : Scheduler (Fin 2) (Fin 1),
    m.pc 1 = .running 0 false ∧ RunsOnce m := by
  obtain ⟨m,hm,hp⟩ := Transition.Machine.exists_reaches (M := machine (Fin 2) (Fin 1))
    (G := SwapInAlone) rfl
    (runFiber++[.schedule (.caller 0) ⟨.fiber 0,.any⟩,.tickle (.caller 0),.leave 0 .YieldToHold,
      .next 0,.next 0,.next 0,.next 1,.next 1,.next 1,.next 1,.next 1])
    (fun m => m.pc 1 = .running 0 false) (by decide) (by decide)
  exact ⟨m,hp,fiber_runs_once hm⟩

/-- A fiber is scheduled while it runs, and `YieldToHold` has set its state but not saved its
context: the other worker takes it and is about to load the context. -/
theorem fiber_loaded_live : ¬∀ m : Scheduler (Fin 2) (Fin 1),
    (machine (Fin 2) (Fin 1)).Reachable m → RunsOnce m := by
  intro h
  obtain ⟨m,hm,hp,hc⟩ := Transition.Machine.exists_reaches (M := machine (Fin 2) (Fin 1)) rfl
    (runFiber++[.schedule (.caller 0) ⟨.fiber 0,.any⟩,.tickle (.caller 0),.leave 0 .YieldToHold,
      .next 1,.next 1,.next 1,.next 1])
    (fun m => m.pc 1 = .switch 0 false ∧ (m.fibers 0).ctx = .live)
    (Transition.Machine.guarded_true ..) (by decide)
  exact (h m hm).saved 1 0 false hp hc

end CoroutineWebserve.Scheduler
