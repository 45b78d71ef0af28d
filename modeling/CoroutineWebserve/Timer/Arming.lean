import CoroutineWebserve.Timer.Expired

/-!
# The times at which timers were armed

`reset` counts from the time at which a timer was armed, which it takes from `m_next` and `m_ms`.
Beside a manager stands the time at which each of its timers was armed last: when it was added,
refreshed, reset from now or delivered.
-/
namespace CoroutineWebserve.TimerManager
variable {F : Type*} {m m' : TimerManager F} {x y : ℕ} {timer : Timer F}

/-- A manager and when each timer was armed. -/
structure Armed (F : Type*) where
  manager : TimerManager F
  armed : ℕ → UInt64

/-- The call that leads from `m` to `m'` has delivered the timer. -/
def Delivers (m m' : TimerManager F) (x : ℕ) : Prop :=
  m.history.countP (·.delivers x) < m'.history.countP (·.delivers x)

instance (m m' : TimerManager F) (x : ℕ) : Decidable (Delivers m m' x) :=
  inferInstanceAs (Decidable (_ < _))

namespace Armed

/-- When the timers were armed behind a step to `m'`. -/
def rearm (a : Armed F) (m' : TimerManager F) : Step F → ℕ → UInt64
  | .addTimer _ _ _ now _ => Function.update a.armed a.manager.heap.length now
  | .refresh x now => if x ∈ a.manager.timers then Function.update a.armed x now else a.armed
  | .reset x _ from_now now =>
    if x ∈ a.manager.timers ∧ from_now then Function.update a.armed x now else a.armed
  | .listExpiredCb now_ms _ => fun x => if Delivers a.manager m' x then now_ms else a.armed x
  | .cancel _ | .getNextTimer => a.armed

def step (a : Armed F) (i : Step F) : Option (Armed F) :=
  (a.manager.step i).map fun m' => ⟨m',a.rearm m' i⟩

def machine (F : Type*) : Transition.Machine (Armed F) (Step F) where
  init a := ∃ now, a.manager = initial now
  step := step

/-- The managers are those that the manager's own steps reach. -/
theorem manager_reachable_iff :
    (TimerManager.machine F).Reachable m ↔ ∃ a, (machine F).Reachable a ∧ a.manager = m := by
  refine Transition.Machine.reachable_iff_exists Armed.manager (fun m => ?_)
    (fun a i a' hi => ⟨i,?_⟩) fun a i m' hi => ⟨i,_,congrArg (Option.map _) hi,rfl⟩
  · constructor
    · rintro ⟨now,rfl⟩
      exact ⟨⟨_,fun _ => 0⟩,⟨now,rfl⟩,rfl⟩
    · rintro ⟨a,ha,rfl⟩
      exact ha
  · obtain ⟨m',hm,rfl⟩ := Option.map_eq_some_iff.mp hi
    exact hm

end Armed

/-- The deadline of a timer that is alive is a period behind the time at which it was armed. -/
def OnTime (m : TimerManager F) (armed : ℕ → UInt64) : Prop :=
  ∀ x timer, m.heap[x]? = some timer → timer.cb.isSome → timer.next = armed x+timer.ms

/-! ### The operations -/

variable {armed : ℕ → UInt64}

theorem OnTime.add (h : OnTime m armed) (timer : Timer F) {now : UInt64}
    (hnext : timer.next = now+timer.ms) (hheap : m'.heap = m.heap++[timer]) :
    OnTime m' (Function.update armed m.heap.length now) := by
  intro y t ht hcb
  rw [hheap, List.getElem?_append] at ht
  split_ifs at ht with hy
  · rw [Function.update_of_ne hy.ne]
    exact h y t ht hcb
  · obtain ⟨hlt,rfl⟩ := List.getElem?_eq_some_iff.mp ht
    rw [List.length_singleton] at hlt
    obtain rfl : y = m.heap.length := by omega
    rw [Function.update_self, List.getElem_singleton]
    exact hnext

/-- One timer is armed. -/
theorem OnTime.arm (h : OnTime m armed) (hx : m.heap[x]? = some timer) (timer' : Timer F)
    {now : UInt64} (hnext : timer'.cb.isSome → timer'.next = now+timer'.ms)
    (hheap : m'.heap = (m.setTimer x timer').heap) :
    OnTime m' (Function.update armed x now) := by
  intro y t ht hcb
  rw [hheap, getElem?_setTimer hx] at ht
  split_ifs at ht with hxy
  · cases ht
    rw [← hxy, Function.update_self]
    exact hnext hcb
  · rw [Function.update_of_ne (Ne.symm hxy)]
    exact h y t ht hcb

theorem OnTime.same (h : OnTime m armed) (hheap : m'.heap = m.heap) : OnTime m' armed := by
  intro y t ht
  rw [hheap] at ht
  exact h y t ht

/-- Whatever the clock reads, the call runs the loop over some timers from the set. -/
theorem exists_delivered (h : Lined m []) (now_ms : UInt64) (addr : ℕ) :
    ∃ taken timers, Delivered now_ms taken { m with timers } (m.listExpiredCb now_ms addr) := by
  have hnone : ∀ previouseTime, Delivered now_ms [] m { m with previouseTime } :=
    fun _ => ⟨fun _ => rfl,fun _ => by simp,rfl,⟨h.sorted,h.addr,h.known⟩⟩
  unfold listExpiredCb
  split
  · exact ⟨[],m.timers,hnone m.previouseTime⟩
  · dsimp only
    split_ifs
    · exact ⟨[],m.timers,hnone now_ms⟩
    · have hloop := foldl_deliver now_ms (h.take now_ms addr now_ms)
      exact ⟨_,_,hloop.heap,hloop.timers,hloop.history,hloop.lined⟩

theorem Delivered.delivers_iff {now_ms : UInt64} {taken : List ℕ}
    (h : Delivered now_ms taken m m') : Delivers m m' x ↔ x ∈ taken := by
  have hcount : m'.history.countP (·.delivers x) =
      taken.count x+m.history.countP (·.delivers x) := by
    rw [h.history, List.countP_append, List.countP_reverse, List.countP_map]
    rfl
  rw [Delivers, hcount, Nat.lt_add_left_iff_pos, List.count_pos_iff]

theorem OnTime.listExpiredCb (h : OnTime m armed) (hm : Lined m []) (now_ms : UInt64)
    (addr : ℕ) : OnTime (m.listExpiredCb now_ms addr) fun x =>
      if Delivers m (m.listExpiredCb now_ms addr) x then now_ms else armed x := by
  obtain ⟨taken,timers,hloop⟩ := exists_delivered hm now_ms addr
  intro y t ht hcb
  have hdelivers : Delivers m (m.listExpiredCb now_ms addr) y ↔ y ∈ taken := hloop.delivers_iff
  rw [hloop.heap] at ht
  dsimp only
  by_cases hy : y ∈ taken
  · rw [if_pos (hdelivers.mpr hy)]
    rw [if_pos hy] at ht
    obtain ⟨timer,-,rfl⟩ := Option.map_eq_some_iff.mp ht
    unfold delivered at hcb ⊢
    split_ifs at hcb ⊢
    · rfl
    · cases hcb
  · rw [if_neg (mt hdelivers.mp hy)]
    rw [if_neg hy] at ht
    exact h y t ht hcb

theorem OnTime.cancel (h : OnTime m armed) (hm : Inv m []) {r : Bool × TimerManager F}
    (hr : m.cancel x = some r) : OnTime r.2 armed := by
  cases hx : m.heap[x]? with
  | none =>
    rw [TimerManager.cancel, hx] at hr
    cases hr
  | some timer =>
    rw [hm.cancel_eq hx] at hr
    cases hr
    dsimp only
    split_ifs
    · rw [← Function.update_eq_self x armed]
      exact h.arm hx { timer with cb := none } (fun hcb => absurd hcb Bool.false_ne_true) rfl
    · exact h

theorem OnTime.refresh (h : OnTime m armed) (hm : Inv m []) (now : UInt64)
    {r : Bool × TimerManager F} (hr : m.refresh x now = some r) :
    OnTime r.2 (if x ∈ m.timers then Function.update armed x now else armed) := by
  cases hx : m.heap[x]? with
  | none =>
    rw [TimerManager.refresh, hx] at hr
    cases hr
  | some timer =>
    rw [hm.refresh_eq hx] at hr
    cases hr
    dsimp only
    by_cases hcb : timer.cb.isSome
    · rw [if_pos hcb, if_pos (hm.mem_timers hx hcb)]
      exact h.arm hx { timer with next := now+timer.ms } (fun _ => rfl) rfl
    · rw [if_neg hcb, if_neg (mt (hm.mem_iff hx).mp hcb)]
      exact h

theorem OnTime.reset (h : OnTime m armed) (hm : Inv m []) (ms : UInt64) (from_now : Bool)
    (now : UInt64) {r : Bool × TimerManager F} (hr : m.reset x ms from_now now = some r) :
    OnTime r.2 (if x ∈ m.timers ∧ from_now then Function.update armed x now else armed) := by
  cases hx : m.heap[x]? with
  | none =>
    rw [TimerManager.reset, hx] at hr
    cases hr
  | some timer =>
    rw [hm.reset_eq hx] at hr
    cases hr
    by_cases hsame : ms = timer.ms ∧ from_now = false
    · rw [if_pos hsame, if_neg (by simp [hsame.2])]
      exact h
    · rw [if_neg hsame]
      dsimp only
      by_cases hcb : timer.cb.isSome
      · rw [if_pos hcb, if_congr (and_iff_right ((hm.mem_iff hx).mpr hcb)) rfl rfl]
        cases from_now with
        | true => exact h.arm hx _ (fun _ => rfl) (heap_addLocked ..)
        | false =>
          rw [if_neg Bool.false_ne_true, ← Function.update_eq_self x armed]
          refine h.arm hx _ (fun _ => ?_) (heap_addLocked ..)
          change timer.next-timer.ms+ms = armed x+ms
          rw [h x timer hx hcb, UInt64.add_sub_cancel]
      · rw [if_neg hcb, if_neg (fun hmem => hcb ((hm.mem_iff hx).mp hmem.1))]
        exact h

/-! ### Runs -/

namespace Armed
variable {a : Armed F}

/-- The invariant of every run. -/
structure Good (a : Armed F) : Prop where
  inv : Inv a.manager []
  onTime : OnTime a.manager a.armed

theorem Good.step (h : Good a) {i : Step F} {a' : Armed F} (hi : a.step i = some a') :
    Good a' := by
  obtain ⟨m',hm',rfl⟩ := Option.map_eq_some_iff.mp hi
  refine ⟨h.inv.step hm',?_⟩
  change OnTime m' (a.rearm m' i)
  cases i with
  | addTimer ms cb recurring now addr =>
    rw [TimerManager.step] at hm'
    split_ifs at hm'
    cases hm'
    exact h.onTime.add ⟨addr,recurring,ms,now+ms,some cb⟩ rfl (heap_addLocked ..)
  | cancel x =>
    obtain ⟨r,hr,rfl⟩ := Option.map_eq_some_iff.mp hm'
    exact (h.onTime.cancel h.inv hr).same rfl
  | refresh x now =>
    obtain ⟨r,hr,rfl⟩ := Option.map_eq_some_iff.mp hm'
    exact h.onTime.refresh h.inv now hr
  | reset x ms from_now now =>
    obtain ⟨r,hr,rfl⟩ := Option.map_eq_some_iff.mp hm'
    exact h.onTime.reset h.inv ms from_now now hr
  | listExpiredCb now_ms addr =>
    cases hm'
    exact h.onTime.listExpiredCb h.inv.ordered.lined now_ms addr
  | getNextTimer =>
    cases hm'
    exact h.onTime.same rfl

theorem good (h : (machine F).Reachable a) : Good a := by
  refine h.invariant ?_ fun _ _ _ ha _ hi => ha.step hi
  rintro a ⟨now,hinit⟩
  refine ⟨hinit ▸ Inv.initial now,?_⟩
  rw [hinit]
  exact nofun

/-- What `refresh` returns and does. -/
def Refreshes (a : Armed F) (x : ℕ) (timer : Timer F) (now : UInt64) : Prop :=
  ∃ r, a.manager.refresh x now = some r ∧ (r.1 = true ↔ x ∈ a.manager.timers) ∧
    (r.1 = false → r.2 = a.manager) ∧
    (r.1 = true → x ∈ r.2.timers ∧ r.2.heap[x]? = some { timer with next := now+timer.ms })

/-- What `reset` is to return and do. -/
def Resets (a : Armed F) (x : ℕ) (timer : Timer F) (ms : UInt64) (from_now : Bool)
    (now : UInt64) : Prop :=
  ∃ r, a.manager.reset x ms from_now now = some r ∧ (r.1 = true ↔ x ∈ a.manager.timers) ∧
    (r.1 = false → r.2 = a.manager) ∧
    (r.1 = true → x ∈ r.2.timers ∧ r.2.heap[x]? = some { timer with
      ms, next := (if from_now then now else a.armed x)+ms })

/-- A timer that has been taken out of the set and changed. -/
theorem getElem?_armed (hx : m.heap[x]? = some timer) (timer' : Timer F) :
    ((m.erase x).setTimer x timer').heap[x]? = some timer' :=
  (getElem?_setTimer (m := m.erase x) hx x).trans (if_pos rfl)

theorem refreshes (h : Good a) (hx : a.manager.heap[x]? = some timer) (now : UInt64) :
    a.Refreshes x timer now := by
  refine ⟨_,h.inv.refresh_eq hx now,(h.inv.mem_iff hx).symm,fun hfalse => ?_,fun htrue => ?_⟩
  · exact if_neg (Bool.eq_false_iff.mp hfalse)
  · have hcb : timer.cb.isSome := htrue
    have hinv := h.inv.refresh now (h.inv.refresh_eq hx now)
    dsimp only at hinv ⊢
    rw [if_pos hcb] at hinv ⊢
    have hcell := getElem?_armed hx { timer with next := now+timer.ms }
    exact ⟨(hinv.mem_iff hcell).mpr hcb,hcell⟩

/-- The early exit of `reset` does not look whether the timer is in the set; but for that it acts
on live timers only, and on the deadline that the time of arming gives. -/
theorem resets_iff (h : (machine F).Reachable a) (hx : a.manager.heap[x]? = some timer)
    (ms : UInt64) (from_now : Bool) (now : UInt64) :
    a.Resets x timer ms from_now now ∧ a.Refreshes x timer now ↔
      x ∈ a.manager.timers ∨ ms ≠ timer.ms ∨ from_now = true := by
  have hgood := good h
  rw [and_iff_left (refreshes hgood hx now), Resets, hgood.inv.reset_eq hx]
  by_cases hsame : ms = timer.ms ∧ from_now = false
  · obtain ⟨rfl,rfl⟩ := hsame
    rw [if_pos ⟨rfl,rfl⟩]
    constructor
    · rintro ⟨r,hr,hmem,-⟩
      cases hr
      exact .inl (hmem.mp rfl)
    · intro hcond
      have hmem : x ∈ a.manager.timers := by simpa using hcond
      have hnext := hgood.onTime x timer hx ((hgood.inv.mem_iff hx).mp hmem)
      refine ⟨_,rfl,iff_of_true rfl hmem,nofun,fun _ => ⟨hmem,?_⟩⟩
      rw [if_neg Bool.false_ne_true, ← hnext]
      exact hx
  · rw [if_neg hsame]
    have hcond : ms ≠ timer.ms ∨ from_now = true := by
      by_contra hnot
      obtain ⟨hms,hnow⟩ := not_or.mp hnot
      exact hsame ⟨not_not.mp hms,Bool.eq_false_iff.mpr hnow⟩
    refine iff_of_true ⟨_,rfl,(hgood.inv.mem_iff hx).symm,fun hfalse => ?_,fun htrue => ?_⟩
      (.inr hcond)
    · exact if_neg (Bool.eq_false_iff.mp hfalse)
    · have hcb : timer.cb.isSome := htrue
      have hinv := hgood.inv.reset ms from_now now (hgood.inv.reset_eq hx ms from_now now)
      have hstart : timer.next-timer.ms = a.armed x := by
        rw [hgood.onTime x timer hx hcb, UInt64.add_sub_cancel]
      rw [if_neg hsame] at hinv
      dsimp only at hinv ⊢
      rw [if_pos hcb, hstart] at hinv ⊢
      have hcell : (((a.manager.erase x).setTimer x { timer with
          ms, next := (if from_now then now else a.armed x)+ms }).addLocked x).heap[x]? =
            some { timer with ms, next := (if from_now then now else a.armed x)+ms } := by
        rw [heap_addLocked]
        exact getElem?_armed hx _
      exact ⟨(hinv.mem_iff hcell).mpr hcb,hcell⟩

/-- A timer is delivered anew, and its period is changed from the time of the delivery. -/
theorem resets_recurring : ∃ a : Armed ℕ, (machine ℕ).Reachable a ∧ a.armed 0 = 12 ∧
    (a.Resets 0 ⟨64,true,10,22,some 7⟩ 3 false 15 ∧ a.Refreshes 0 ⟨64,true,10,22,some 7⟩ 15 ↔
      0 ∈ a.manager.timers ∨ (3 : UInt64) ≠ 10 ∨ false = true) := by
  obtain ⟨a,ha,harmed,hcell⟩ := Transition.Machine.exists_reaches (M := machine ℕ)
    (G := fun _ _ => True) (s := ⟨initial 0,fun _ => 0⟩) ⟨0,rfl⟩
    [.addTimer 10 7 true 1 64,.listExpiredCb 12 96]
    (fun a => a.armed 0 = 12 ∧ a.manager.heap[0]? = some ⟨64,true,10,22,some 7⟩)
    (Transition.Machine.guarded_true ..) (by decide)
  exact ⟨a,ha,harmed,resets_iff ha hcell 3 false 15⟩

/-- `reset` returns `true` for a timer that has been cancelled. -/
theorem not_resets_cancelled : ∃ a : Armed ℕ, (machine ℕ).Reachable a ∧
    a.manager.heap[0]? = some ⟨64,false,10,10,none⟩ ∧ 0 ∉ a.manager.timers ∧
    ¬(a.Resets 0 ⟨64,false,10,10,none⟩ 10 false 5 ∧ a.Refreshes 0 ⟨64,false,10,10,none⟩ 5) := by
  obtain ⟨a,ha,hcell,hmem,hreset⟩ := Transition.Machine.exists_reaches (M := machine ℕ)
    (G := fun _ _ => True) (s := ⟨initial 0,fun _ => 0⟩) ⟨0,rfl⟩
    [.addTimer 10 7 false 0 64,.cancel 0]
    (fun a => a.manager.heap[0]? = some ⟨64,false,10,10,none⟩ ∧ 0 ∉ a.manager.timers ∧
      (a.manager.reset 0 10 false 5).map Prod.fst = some true)
    (Transition.Machine.guarded_true ..) (by decide)
  refine ⟨a,ha,hcell,hmem,?_⟩
  rintro ⟨⟨r,hr,hiff,-⟩,-⟩
  rw [hr, Option.map_some, Option.some_inj] at hreset
  exact hmem (hiff.mp hreset)

end Armed
end CoroutineWebserve.TimerManager
