import CoroutineWebserve.Scheduler.Exclusive
import Mathlib.Data.Fintype.Sum

/-!
# Wake-ups of idle workers

A worker that has found nothing to take blocks in `epoll_wait`. While the queue is not
empty, something has to be on its way to it: a byte in the pipe, a call of `tickle`, or a
worker whose scan is not behind it. Only a call of `tickle` that counts no idle worker can
break this.
-/
namespace CoroutineWebserve.Scheduler
variable {W E : Type*}

instance [Fintype W] [Fintype E] : Fintype (Actor W E) :=
  .ofEquiv (W ⊕ E) ⟨Sum.elim .worker .caller,fun | .worker w => .inl w | .caller e => .inr e,
    fun a => by cases a <;> rfl,fun a => by cases a <;> rfl⟩

/-- The worker's scan is not behind it: it will look at the queue before it blocks. -/
def Pc.Scans : Pc → Prop
  | .scanned none | .stopping | .epollWait => False
  | .top | .scan .. | .scanned (some _) | .swapIn .. | .switch .. | .running .. | .swapOut ..
  | .swapped .. | .hold .. | .repush _ | .woken => True

instance : ∀ pc : Pc, Decidable pc.Scans
  | .scanned none | .stopping | .epollWait => isFalse id
  | .top | .scan .. | .scanned (some _) | .swapIn .. | .switch .. | .running .. | .swapOut ..
  | .swapped .. | .hold .. | .repush _ | .woken => isTrue trivial

/-- The fiber that a worker executes. -/
def Pc.runs : Pc → Option ℕ
  | .switch f _ | .running f _ => some f
  | .top | .scan .. | .scanned _ | .swapIn .. | .swapOut .. | .swapped .. | .hold ..
  | .repush _ | .stopping | .epollWait | .woken => none

theorem Pc.scans_of_runs {pc : Pc} {f : ℕ} (h : pc.runs = some f) : pc.Scans := by
  cases pc <;> simp_all [Pc.runs, Pc.Scans]

/-- Something is on its way, unless the queue is empty. -/
def Alert (m : Scheduler W E) : Prop :=
  m.queue = [] ∨ 0 < m.pipe ∨ (∃ a, m.stage a ≠ .done) ∨ ∃ w, (m.pc w).Scans

instance [Fintype W] [Fintype E] (m : Scheduler W E) : Decidable (Alert m) :=
  inferInstanceAs (Decidable (_ ∨ _ ∨ _ ∨ _))

theorem Alert.of_scans {m : Scheduler W E} {w : W} (h : (m.pc w).Scans) : Alert m :=
  .inr (.inr (.inr ⟨w,h⟩))

/-- A worker that has moved to a place before its next scan. -/
theorem Alert.of_moved [DecidableEq W] {m : Scheduler W E} {pc : W → Pc} {w : W} {pc' : Pc}
    (h : m.pc = Function.update pc w pc') (hs : pc'.Scans) : Alert m :=
  .of_scans (w := w) (by rwa [h, Function.update_self])

/-- A worker moves that is not before a scan. -/
theorem Alert.goto_idle [DecidableEq W] {m : Scheduler W E} {w : W} (h : Alert m)
    (hw : ¬(m.pc w).Scans) (pc' : Pc) : Alert (m.goto w pc') := by
  refine h.imp_right (.imp_right (.imp_right fun ⟨u,hu⟩ => ⟨u,?_⟩))
  have hne : u ≠ w := by rintro rfl; exact hw hu
  simpa [Scheduler.goto, hne] using hu

theorem Alert.of_stage {m : Scheduler W E} {a : Actor W E} (h : m.stage a ≠ .done) : Alert m :=
  .inr (.inr (.inl ⟨a,h⟩))

/-- A fiber with the state `EXEC` is executed by a worker. -/
def Executed (fibers : ℕ → Fiber) (pc : W → Pc) : Prop :=
  ∀ f, (fibers f).state = .EXEC → ∃ w, (pc w).runs = some f

/-- Scans are made under the mutex, and what a scan has passed over is another thread's or
is executed by a worker that scans later. -/
structure Scanning (lock : Option W) (pc : W → Pc) : Prop where
  locked : ∀ w i tickle_me, pc w = .scan i tickle_me → lock = some w
  passed : ∀ w i tickle_me, pc w = .scan i tickle_me → 0 < i →
    tickle_me = true ∨ ∃ u, u ≠ w ∧ (pc u).Scans

section lemmas
variable [DecidableEq W] {fibers : ℕ → Fiber} {pc : W → Pc} {lock : Option W}

theorem Executed.goto (h : Executed fibers pc) {w : W} (hw : (pc w).runs = none) (pc' : Pc) :
    Executed fibers (Function.update pc w pc') := by
  intro f hf
  obtain ⟨u,hu⟩ := h f hf
  have hne : u ≠ w := by rintro rfl; simp [hw] at hu
  exact ⟨u,by simpa [hne] using hu⟩

/-- The fiber of a worker that moves on is marked otherwise, or the worker executes it. -/
theorem Executed.handle (h : Executed fibers pc) {w : W} {f : ℕ} {x : Fiber} {pc' : Pc}
    (hw : ∀ g, (pc w).runs = some g → g = f) (hx : x.state = .EXEC → pc'.runs = some f) :
    Executed (Function.update fibers f x) (Function.update pc w pc') := by
  intro g hg
  by_cases he : g = f
  · subst he
    rw [Function.update_self] at hg
    exact ⟨w,by rw [Function.update_self]; exact hx hg⟩
  · rw [Function.update_of_ne he] at hg
    obtain ⟨u,hu⟩ := h g hg
    have hne : u ≠ w := by rintro rfl; exact he (hw g hu)
    exact ⟨u,by rwa [Function.update_of_ne hne]⟩

omit [DecidableEq W] in
theorem Executed.set (h : Executed fibers pc) {f : ℕ} {x : Fiber} (hx : x.state ≠ .EXEC) :
    Executed (Function.update fibers f x) pc := by
  intro g hg
  by_cases he : g = f
  · subst he
    rw [Function.update_self] at hg
    exact absurd hg hx
  · rw [Function.update_of_ne he] at hg
    exact h g hg

omit [DecidableEq W] in
theorem Executed.keep (h : Executed fibers pc) {f : ℕ} {x : Fiber}
    (hx : x.state = (fibers f).state) : Executed (Function.update fibers f x) pc := by
  intro g hg
  refine h g ?_
  by_cases he : g = f
  · subst he
    rwa [Function.update_self, hx] at hg
  · rwa [Function.update_of_ne he] at hg

/-- A worker moves to a place that is no scan and before its next one if it was so before. -/
theorem Scanning.goto (h : Scanning lock pc) {w : W} {pc' : Pc}
    (hnew : ∀ i tickle_me, pc' ≠ .scan i tickle_me) (hs : (pc w).Scans → pc'.Scans) :
    Scanning lock (Function.update pc w pc') := by
  have other : ∀ {v i tickle_me}, Function.update pc w pc' v = .scan i tickle_me →
      pc v = .scan i tickle_me := by
    intro v i tickle_me hv
    by_cases he : v = w
    · subst he
      exact absurd (by simpa using hv) (hnew i tickle_me)
    · simpa [he] using hv
  refine ⟨fun v i t hv => h.locked v i t (other hv),fun v i t hv hi => ?_⟩
  refine (h.passed v i t (other hv) hi).imp_right fun ⟨u,hne,hu⟩ => ⟨u,hne,?_⟩
  by_cases he : u = w
  · subst he
    simpa using hs hu
  · simpa [he] using hu

omit [DecidableEq W] in
theorem Scanning.of_free (h : ∀ w i tickle_me, pc w ≠ .scan i tickle_me) : Scanning lock pc :=
  ⟨fun w i t hw => absurd hw (h w i t),fun w i t hw => absurd hw (h w i t)⟩

omit [DecidableEq W] in
/-- No worker scans while the mutex is free. -/
theorem Scanning.free (h : Scanning none pc) (w : W) (i : ℕ) (tickle_me : Bool) :
    pc w ≠ .scan i tickle_me := fun hw => by cases h.locked w i tickle_me hw

/-- The worker that holds the mutex is the only one that scans. -/
theorem Scanning.leave (h : Scanning lock pc) {w : W} {i : ℕ} {tickle_me : Bool}
    (hw : pc w = .scan i tickle_me) {pc' : Pc} (hnew : ∀ i tickle_me, pc' ≠ .scan i tickle_me) :
    Scanning none (Function.update pc w pc') := by
  refine .of_free fun v j t hv => ?_
  by_cases he : v = w
  · subst he
    exact hnew j t (by simpa using hv)
  · have hv : pc v = .scan j t := by simpa [he] using hv
    exact he (Option.some.inj ((h.locked v j t hv).symm.trans (h.locked w i tickle_me hw)))

/-- The worker that holds the mutex goes on with its scan. -/
theorem Scanning.goOn (h : Scanning lock pc) {w : W} {i j : ℕ} {t t' : Bool}
    (hw : pc w = .scan i t) (hp : t' = true ∨ ∃ u, u ≠ w ∧ (pc u).Scans) :
    Scanning lock (Function.update pc w (.scan j t')) := by
  have only : ∀ {v k r}, Function.update pc w (.scan j t') v = .scan k r → v = w := by
    intro v k r hv
    by_contra he
    have hv : pc v = .scan k r := by simpa [he] using hv
    exact he (Option.some.inj ((h.locked v k r hv).symm.trans (h.locked w i t hw)))
  refine ⟨fun v k r hv => only hv ▸ h.locked w i t hw,fun v k r hv _ => ?_⟩
  obtain rfl := only hv
  obtain ⟨-,rfl⟩ : j = k ∧ t' = r := by simpa using hv
  exact hp.imp_right fun ⟨u,hne,hu⟩ => ⟨u,hne,by simpa [hne] using hu⟩

end lemmas

/-! ### The invariant -/

/-- What holds in every state: alertness, and what the scans rest on. -/
structure Watched (m : Scheduler W E) : Prop where
  alert : Alert m
  executed : Executed m.fibers m.pc
  scanning : Scanning m.lock m.pc

variable [DecidableEq W] [DecidableEq E]

/-- A call of `tickle` that counts no idle worker leaves something on its way. -/
def TickleCovered (m : Scheduler W E) : Step W E → Prop
  | .tickle a => m.idleThreadCount = 0 → Alert (m.setStage a .done)
  | _ => True

instance [Fintype W] [Fintype E] (m : Scheduler W E) : ∀ i, Decidable (TickleCovered m i)
  | .tickle _ => inferInstanceAs (Decidable (_ → _))
  | .create | .schedule .. | .write _ | .next _ | .leave .. | .drain _ => isTrue trivial

namespace Watched
variable {m : Scheduler W E}

theorem push_alert (h : Alert m) (a : Actor W E) (t : Task W) : Alert (m.push a t) := by
  by_cases hq : m.queue = []
  · exact .of_stage (a := a) (by simp [Scheduler.push, Scheduler.setStage, hq])
  · rcases h with he | hp | ⟨b,hb⟩ | ⟨w,hw⟩
    · exact absurd he hq
    · exact .inr (.inl hp)
    · refine .of_stage (a := b) ?_
      by_cases hab : b = a
      · subst hab
        simpa [Scheduler.push, Scheduler.setStage, hq] using hb
      · simpa [Scheduler.push, Scheduler.setStage, hab] using hb
    · exact .of_scans hw

/-- A scan that ends without a task has passed over everything in the queue. -/
theorem examine (h : Watched m) {w : W} {i : ℕ} {tickle_me : Bool}
    (hp : m.pc w = .scan i tickle_me) : Watched (m.examine w i tickle_me) := by
  have hrun : (m.pc w).runs = none := by rw [hp]; rfl
  unfold Scheduler.examine
  split
  · next hnone =>
    refine ⟨?_,h.executed.goto hrun _,h.scanning.leave hp (by simp)⟩
    by_cases hq : m.queue = []
    · exact .inl hq
    · have hpos := List.length_pos_iff.mpr hq
      have hi : 0 < i := hpos.trans_le (List.getElem?_eq_none_iff.mp hnone)
      rcases h.scanning.passed w i tickle_me hp hi with rfl | ⟨u,hne,hu⟩
      · exact .of_stage (a := .worker w) (by simp [endScan, setStage])
      · exact .of_scans (w := u) (by simpa [endScan, setStage, Scheduler.goto, hne] using hu)
  · next t ht =>
    split
    · exact ⟨.of_moved rfl (by trivial),h.executed.goto hrun _,h.scanning.goOn hp (.inl rfl)⟩
    split
    · next hex =>
      refine ⟨.of_moved rfl (by trivial),h.executed.goto hrun _,h.scanning.goOn hp (.inr ?_)⟩
      -- the fiber is executed by a worker, and that one scans later
      cases hi : t.item with
      | fiber f =>
        rw [hi] at hex
        obtain ⟨u,hu⟩ := h.executed f hex
        refine ⟨u,?_,Pc.scans_of_runs hu⟩
        rintro rfl
        simp [hrun] at hu
      | cb => simp [hi, Item.Executing] at hex
    · exact ⟨.of_moved rfl (by trivial),h.executed.goto hrun _,h.scanning.leave hp (by simp)⟩

omit [DecidableEq E] in
/-- A worker that handles a task moves to a place before its next scan. -/
theorem move (h : Watched m) {w : W} {pc' : Pc} {fibers : ℕ → Fiber}
    (hex : Executed fibers (Function.update m.pc w pc'))
    (hnew : ∀ i tickle_me, pc' ≠ .scan i tickle_me) (hs : pc'.Scans) (created : ℕ)
    (cb_fiber : W → Option ℕ) :
    Watched { m with fibers, created, cb_fiber, pc := Function.update m.pc w pc' } where
  alert := .of_moved rfl hs
  executed := hex
  scanning := h.scanning.goto hnew fun _ => hs

omit [DecidableEq E] in
theorem dispatch (h : Watched m) {w : W} {item : Item} (hp : m.pc w = .scanned (some item)) :
    Watched (m.dispatch w item) := by
  have hrun : (m.pc w).runs = none := by rw [hp]; rfl
  have hnew : Fiber.new.state ≠ .EXEC := by decide
  cases item with
  | fiber f =>
    simp only [Scheduler.dispatch]
    split
    · exact h.move (h.executed.goto hrun _) (by simp) (by trivial) _ _
    · exact h.move (h.executed.goto hrun _) (by simp) (by trivial) _ _
  | cb =>
    simp only [Scheduler.dispatch]
    split
    · split
      · exact h.move ((h.executed.set hnew).goto hrun _) (by simp) (by trivial) _ _
      · exact ⟨h.alert,h.executed,h.scanning⟩
    · exact h.move ((h.executed.set hnew).goto hrun _) (by simp) (by trivial) _ _

omit [DecidableEq E] in
theorem swapped (h : Watched m) {w : W} {f : ℕ} {cb : Bool} (hp : m.pc w = .swapped f cb) :
    Watched (m.swapped w f cb) := by
  have hrun : (m.pc w).runs = none := by rw [hp]; rfl
  have hnew : Fiber.new.state ≠ .EXEC := by decide
  unfold Scheduler.swapped
  split
  · cases cb <;> exact h.move (h.executed.goto hrun _) (by simp) (by trivial) _ _
  · cases cb
    · exact h.move (h.executed.goto hrun _) (by simp) (by trivial) _ _
    · exact h.move ((h.executed.set hnew).goto hrun _) (by simp) (by trivial) _ _
  · cases cb
    · exact h.move (h.executed.goto hrun _) (by simp) (by trivial) _ _
    · exact h.move ((h.executed.set hnew).goto hrun _) (by simp) (by trivial) _ _
  all_goals exact h.move (h.executed.goto hrun _) (by simp) (by trivial) _ _

/-- What a step preserves that covers the calls of `tickle`. -/
theorem step (h : Watched m) {i : Step W E} {m' : Scheduler W E} (hg : TickleCovered m i)
    (hs : Moves m i m') : Watched m' := by
  have idle : ∀ {w pc}, m.pc w = pc → pc.runs = none → (m.pc w).runs = none :=
    fun hp hn => hp ▸ hn
  cases hs with
  | failed => exact ⟨h.alert,h.executed,h.scanning⟩
  | create => exact ⟨h.alert,h.executed.set (by decide),h.scanning⟩
  | schedule => exact ⟨push_alert h.alert _ _,h.executed,h.scanning⟩
  | @tickle a hs =>
    refine ⟨?_,h.executed,h.scanning⟩
    by_cases hi : m.idleThreadCount = 0
    · simpa [hi] using hg hi
    · exact .of_stage (a := a) (by simp [setStage, Nat.pos_of_ne_zero hi])
  | write => exact ⟨.inr (.inl (Nat.succ_pos _)),h.executed,h.scanning⟩
  | @lock w hs hp hl =>
    refine ⟨.of_moved rfl (by trivial),h.executed.goto (idle hp rfl) _,?_⟩
    have hfree := (hl ▸ h.scanning : Scanning none m.pc).free
    have hfirst : ∀ v i t, Function.update m.pc w (.scan 0 false) v = .scan i t →
        v = w ∧ i = 0 := by
      intro v i t hv
      by_cases he : v = w
      · subst he
        obtain ⟨rfl,-⟩ : 0 = i ∧ false = t := by simpa using hv
        exact ⟨rfl,rfl⟩
      · exact absurd (by simpa [he] using hv) (hfree v i t)
    refine ⟨fun v i t hv => ?_,fun v i t hv hi => ?_⟩
    · rw [(hfirst v i t hv).1]
    · exact absurd (hfirst v i t hv).2 (Nat.ne_of_gt hi)
  | examine _ hp => exact h.examine hp
  | dispatch _ hp => exact h.dispatch hp
  | @enterIdle w hs hp =>
    have hno : ¬(m.pc w).Scans := by rw [hp]; exact id
    refine ⟨?_,h.executed.goto (idle hp rfl) _,h.scanning.goto (by simp) fun hc => absurd hc hno⟩
    exact h.alert.goto_idle hno _
  | swapIn hp =>
    refine h.move (h.executed.handle (fun g hg => ?_) fun _ => rfl) (by simp) (by trivial) _ _
    rw [idle hp rfl] at hg
    cases hg
  | switch hp =>
    refine h.move (h.executed.handle (fun g hg => ?_) fun _ => rfl) (by simp) (by trivial) _ _
    rw [hp] at hg
    cases hg
    rfl
  | @leave w l f cb hp =>
    refine h.move (h.executed.handle (f := f) (fun g hg => ?_) fun hx => ?_) (by simp)
      (by trivial) _ _
    · rw [hp] at hg
      cases hg
      rfl
    · exact absurd hx l.state_ne_exec
  | @swapOut w f cb hp =>
    have hk : Executed (Function.update m.fibers f { m.fibers f with ctx := .saved }) m.pc :=
      h.executed.keep rfl
    exact h.move (hk.goto (idle hp rfl) (.swapped f cb)) (by simp) (by trivial) _ _
  | swapped hp => exact h.swapped hp
  | @hold w f cb hp =>
    have hx : (Fiber.mk .HOLD (m.fibers f).ctx).state ≠ .EXEC := by simp
    cases cb <;> exact h.move ((h.executed.set hx).goto (idle hp rfl) _) (by simp) (by trivial) _ _
  | repush hs hp hl =>
    exact ⟨.of_moved rfl (by trivial),h.executed.goto (idle hp rfl) _,
      h.scanning.goto (by simp) fun _ => by trivial⟩
  | @stopping w hp =>
    have hno : ¬(m.pc w).Scans := by rw [hp]; exact id
    exact ⟨h.alert.goto_idle hno _,h.executed.goto (idle hp rfl) _,
      h.scanning.goto (by simp) fun hc => absurd hc hno⟩
  | epollWait hp => exact h.move (h.executed.goto (idle hp rfl) _) (by simp) (by trivial) _ _
  | leaveIdle hp =>
    exact ⟨.of_moved rfl (by trivial),h.executed.goto (idle hp rfl) _,
      h.scanning.goto (by simp) fun _ => by trivial⟩
  | @drain w hp =>
    exact ⟨.of_scans (w := w) (by simp [hp, Pc.Scans]),h.executed,h.scanning⟩

end Watched

omit [DecidableEq W] [DecidableEq E] in
theorem watched_initial : Watched (initial : Scheduler W E) where
  alert := .inl rfl
  executed f hf := by cases hf
  scanning := ⟨fun _ _ _ hp => (by cases hp),fun _ _ _ hp => (by cases hp)⟩

/-- The worker may take the task: it is not pinned to another thread, and its fiber is not
executing. -/
def MayTake (m : Scheduler W E) (w : W) (t : Task W) : Prop :=
  t.Here w ∧ ¬t.item.Executing m.fibers

/-- All workers block, the pipe is empty, no thread is between its push and its `tickle`, and
a task waits that a worker may take. -/
def LostWakeUp (m : Scheduler W E) : Prop :=
  (∀ w, m.pc w = .epollWait) ∧ m.pipe = 0 ∧ (∀ a, m.stage a = .done) ∧
    ∃ t ∈ m.queue, ∃ w, MayTake m w t

/-- While every call of `tickle` that counts no idle worker is covered, no wake-up is lost. -/
theorem no_lost_wake_up {m : Scheduler W E} (h : (machine W E).Reaches TickleCovered m) :
    ¬LostWakeUp m := by
  have hw : Watched m := h.invariant (fun _ hi => hi ▸ watched_initial)
    fun _ _ _ hm hg hs => hm.step hg (step_moves hs)
  rintro ⟨hblocked,hpipe,hstage,t,ht,-⟩
  rcases hw.alert with hq | hp | ⟨a,ha⟩ | ⟨w,hs⟩
  · simp [hq] at ht
  · omega
  · exact ha (hstage a)
  · simp [hblocked w, Pc.Scans] at hs

/-- A worker blocks, a task is scheduled and wakes it up. -/
theorem no_lost_wake_up_blocked : ∃ m : Scheduler (Fin 1) (Fin 1),
    (m.pc 0 = .epollWait ∧ m.queue = [⟨.cb,.any⟩] ∧ m.pipe = 1) ∧ ¬LostWakeUp m := by
  obtain ⟨m,hm,hp⟩ := Transition.Machine.exists_reaches (M := machine (Fin 1) (Fin 1))
    (G := TickleCovered) rfl
    [.next 0,.next 0,.next 0,.next 0,.schedule (.caller 0) ⟨.cb,.any⟩,.tickle (.caller 0),
      .write (.caller 0)]
    (fun m => m.pc 0 = .epollWait ∧ m.queue = [⟨.cb,.any⟩] ∧ m.pipe = 1) (by decide) (by decide)
  exact ⟨m,hp,no_lost_wake_up hm⟩

/-- A task is scheduled after the scan of the only worker and before it counts itself idle:
`tickle` writes nothing, and the worker blocks. -/
theorem lost_wake_up : ¬∀ m : Scheduler (Fin 1) (Fin 1),
    (machine (Fin 1) (Fin 1)).Reachable m → ¬LostWakeUp m := by
  intro h
  obtain ⟨m,hm,hp,hq,hpipe,hc,hw⟩ := Transition.Machine.exists_reaches
    (M := machine (Fin 1) (Fin 1)) rfl
    [.next 0,.next 0,.schedule (.caller 0) ⟨.cb,.any⟩,.tickle (.caller 0),.next 0,.next 0]
    (fun m => m.pc 0 = .epollWait ∧ m.queue = [⟨.cb,.any⟩] ∧ m.pipe = 0 ∧
      m.stage (.caller 0) = .done ∧ m.stage (.worker 0) = .done)
    (Transition.Machine.guarded_true ..) (by decide)
  refine h m hm ⟨fun w => ?_,hpipe,fun a => ?_,⟨.cb,.any⟩,by simp [hq],0,.inl rfl,id⟩
  · rw [Subsingleton.elim w 0, hp]
  · cases a with
    | worker w => rw [Subsingleton.elim w 0, hw]
    | caller e => rw [Subsingleton.elim e 0, hc]

end CoroutineWebserve.Scheduler
