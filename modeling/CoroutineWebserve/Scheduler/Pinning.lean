import CoroutineWebserve.Scheduler.Model
import Mathlib.Data.Fintype.Basic

/-!
# Fibers that belong to a thread

The thread that a fiber is scheduled with stands in the element of the queue and is gone when a
worker takes the element.
-/
namespace CoroutineWebserve

/-- Beside the scheduler stands the thread that each fiber was scheduled with last. -/
structure Pinning (W E : Type*) extends Scheduler W E where
  pin : ℕ → Scheduler.Pin W

namespace Scheduler

/-- The fiber that a worker has taken from the queue and not resumed yet. -/
def Pc.takes : Pc → Option ℕ
  | .scanned (some (.fiber f)) | .swapIn f _ => some f
  | _ => none

/-- The fiber that a worker is about to schedule again. -/
def Pc.repushes : Pc → Option ℕ
  | .repush f => some f
  | _ => none

end Scheduler

namespace Pinning
open Scheduler
variable {W E : Type*}

def initial : Pinning W E where
  toScheduler := Scheduler.initial
  pin _ := .any

/-- An event or the timer of a hooked call schedules the fiber that waits, on any thread. -/
inductive Step (W E : Type*)
  | run (i : Scheduler.Step W E)
  | wake (a : Actor W E) (f : ℕ)

/-- The fiber of a callback is scheduled with no thread. -/
def repin (s : Pinning W E) : Scheduler.Step W E → ℕ → Pin W
  | .schedule _ ⟨.fiber f,thread⟩ => Function.update s.pin f thread
  | .next w =>
    if s.pc w = .scanned (some .cb) then
      Function.update s.pin ((s.cb_fiber w).getD s.created) .any
    else s.pin
  | _ => s.pin

/-- A fiber is resumed by the thread it belongs to. -/
def KeepsPins (s : Pinning W E) : Prop :=
  ∀ w f cb, s.pc w = .swapIn f cb → s.pin f = .any ∨ s.pin f = .worker w

/-- No thread is about to resume the fiber but this one. -/
def Agrees (s : Pinning W E) (f : ℕ) (thread : Pin W) : Prop :=
  (∀ t ∈ s.queue, t.item = .fiber f → t.thread = thread) ∧
    ∀ w, (s.pc w).takes = some f → thread = .worker w

/-- A fiber is not bound to a thread while another one may resume it, and what belongs to a thread
is not scheduled by `run` or by an event or a timer. -/
def Guard (s : Pinning W E) : Step W E → Prop
  | .run (.schedule _ ⟨.fiber f,thread⟩) => thread = .any ∨ s.Agrees f thread
  | .run (.next w) => ∀ f ∈ (s.pc w).repushes, s.pin f = .any
  | .wake _ f => s.pin f = .any
  | _ => True

instance [DecidableEq W] [Fintype W] (s : Pinning W E) (f : ℕ) (thread : Pin W) :
    Decidable (s.Agrees f thread) :=
  inferInstanceAs (Decidable (_ ∧ _))

instance [DecidableEq W] [Fintype W] (s : Pinning W E) : DecidablePred s.Guard
  | .run (.schedule _ ⟨.fiber _,_⟩) => inferInstanceAs (Decidable (_ ∨ _))
  | .run (.next _) => inferInstanceAs (Decidable (∀ _ ∈ _, _))
  | .wake .. => inferInstanceAs (Decidable (_ = _))
  | .run (.schedule _ ⟨.cb,_⟩) | .run .create | .run (.tickle _) | .run (.write _)
  | .run (.leave ..) | .run (.drain _) => isTrue trivial

section Machine
variable [DecidableEq W] [DecidableEq E]

def step (s : Pinning W E) : Step W E → Option (Pinning W E)
  | .run i => (Scheduler.step s.toScheduler i).map fun m => ⟨m,s.repin i⟩
  | .wake a f => (Scheduler.step s.toScheduler (.schedule a ⟨.fiber f,.any⟩)).map (⟨·,s.pin⟩)

variable (W E) in
def machine : Transition.Machine (Pinning W E) (Step W E) where
  init s := s = initial
  step := step

/-- The schedulers are those that the scheduler's own steps reach. -/
theorem scheduler_reachable_iff {m : Scheduler W E} : (Scheduler.machine W E).Reachable m ↔
    ∃ s, (machine W E).Reachable s ∧ s.toScheduler = m := by
  refine Transition.Machine.reachable_iff_exists Pinning.toScheduler (fun m => ?_)
    (fun s i s' hi => ?_) fun s i m' hi => ⟨.run i,_,congrArg (Option.map _) hi,rfl⟩
  · constructor
    · rintro rfl
      exact ⟨initial,rfl,rfl⟩
    · rintro ⟨_,rfl,rfl⟩
      rfl
  · cases i with
    | run i =>
      obtain ⟨m,hm,rfl⟩ := Option.map_eq_some_iff.mp hi
      exact ⟨i,hm⟩
    | wake a f =>
      obtain ⟨m,hm,rfl⟩ := Option.map_eq_some_iff.mp hi
      exact ⟨.schedule a ⟨.fiber f,.any⟩,hm⟩

end Machine

/-! ### Elements of the queue and the threads in them -/

/-- What is in the queue and what a worker has taken from it is for the thread of the fiber. -/
structure Kept (pin : ℕ → Pin W) (queue : List (Scheduler.Task W)) (pc : W → Pc) : Prop where
  queued : ∀ t ∈ queue, ∀ f, t.item = .fiber f → pin f = .any ∨ t.thread = pin f
  taken : ∀ w f, (pc w).takes = some f → pin f = .any ∨ pin f = .worker w

namespace Kept

variable {pin : ℕ → Pin W} {queue : List (Scheduler.Task W)} {pc : W → Pc}

theorem push (h : Kept pin queue pc) {t : Scheduler.Task W}
    (ht : ∀ f, t.item = .fiber f → pin f = .any ∨ t.thread = pin f) :
    Kept pin (queue++[t]) pc where
  queued u hu := by
    rcases List.mem_append.mp hu with hu | hu
    · exact h.queued u hu
    · rw [List.mem_singleton.mp hu]
      exact ht
  taken := h.taken

/-- The fiber belongs to another thread from now on. -/
theorem bind (h : Kept pin queue pc) {f : ℕ} {thread : Pin W}
    (hqueue : ∀ t ∈ queue, t.item = .fiber f → thread = .any ∨ t.thread = thread)
    (hpc : ∀ w, (pc w).takes = some f → thread = .any ∨ thread = .worker w) :
    Kept (Function.update pin f thread) queue pc where
  queued t ht :=
    (Function.forall_update_iff pin fun g p => t.item = .fiber g → p = .any ∨ t.thread = p).mpr
      ⟨hqueue t ht,fun g _ => h.queued t ht g⟩
  taken w :=
    (Function.forall_update_iff pin fun g p => (pc w).takes = some g → p = .any ∨ p = .worker w).mpr
      ⟨hpc w,fun g _ => h.taken w g⟩

theorem unpin (h : Kept pin queue pc) (f : ℕ) : Kept (Function.update pin f .any) queue pc :=
  h.bind (fun _ _ _ => .inl rfl) fun _ _ => .inl rfl

variable {s : Pinning W E}

/-- What is in the queue agrees with the threads of the fibers after the step too. -/
theorem repin (h : Kept s.pin s.queue s.pc) {i : Scheduler.Step W E} (hg : s.Guard (.run i)) :
    Kept (s.repin i) s.queue s.pc := by
  cases i with
  | schedule a t =>
    obtain ⟨item,thread⟩ := t
    cases item with
    | cb => exact h
    | fiber f =>
      rcases hg with rfl | ha
      · exact h.unpin f
      · exact h.bind (fun t ht hf => .inr (ha.1 t ht hf)) fun w hf => .inr (ha.2 w hf)
  | next w =>
    rw [Pinning.repin]
    split_ifs
    · exact h.unpin _
    · exact h
  | create | tickle | write | leave | drain => exact h

theorem schedule (h : Kept s.pin s.queue s.pc) {a : Actor W E} {t : Scheduler.Task W}
    (hg : s.Guard (.run (.schedule a t))) :
    Kept (s.repin (.schedule a t)) (s.queue++[t]) s.pc := by
  refine (h.repin hg).push fun f hf => ?_
  obtain ⟨item,thread⟩ := t
  cases hf
  rw [Pinning.repin, Function.update_self]
  exact .inr rfl

variable [DecidableEq W]

theorem goto (h : Kept pin queue pc) {w : W} {pc' : Pc}
    (hpc : ∀ f, pc'.takes = some f → pin f = .any ∨ pin f = .worker w) :
    Kept pin queue (Function.update pc w pc') where
  queued := h.queued
  taken :=
    (Function.forall_update_iff pc fun v q =>
      ∀ f, q.takes = some f → pin f = .any ∨ pin f = .worker v).mpr ⟨hpc,fun v _ => h.taken v⟩

/-- The worker has no fiber now that it will resume. -/
theorem drop (h : Kept pin queue pc) (w : W) {pc' : Pc} (hpc : pc'.takes = none) :
    Kept pin queue (Function.update pc w pc') :=
  h.goto fun f hf => by
    rw [hpc] at hf
    cases hf

/-- A worker takes an element that is for its thread. -/
theorem take (h : Kept pin queue pc) {i : ℕ} {t : Scheduler.Task W} (ht : queue[i]? = some t)
    {w : W} (hw : t.Here w) :
    Kept pin (queue.eraseIdx i) (Function.update pc w (.scanned (some t.item))) := by
  have herase : Kept pin (queue.eraseIdx i) pc :=
    ⟨fun u hu => h.queued u (List.mem_of_mem_eraseIdx hu),h.taken⟩
  refine herase.goto fun f hf => ?_
  have hitem : t.item = .fiber f := by
    cases hcase : t.item with
    | fiber g =>
      rw [hcase] at hf
      cases hf
      rfl
    | cb =>
      rw [hcase] at hf
      cases hf
  rcases h.queued t (List.mem_of_getElem? ht) f hitem with hpin | hpin
  · exact .inl hpin
  · rw [← hpin]
    exact hw

variable {m : Scheduler W E}

theorem swapped (h : Kept pin m.queue m.pc) (w : W) (f : ℕ) (cb : Bool) :
    Kept pin (m.swapped w f cb).queue (m.swapped w f cb).pc := by
  unfold Scheduler.swapped
  cases (m.fibers f).state <;> cases cb <;> exact h.drop w rfl

theorem dispatch (h : Kept s.pin s.queue s.pc) {w : W} {item : Item}
    (hp : s.pc w = .scanned (some item)) :
    Kept (s.repin (.next w)) (s.toScheduler.dispatch w item).queue
      (s.toScheduler.dispatch w item).pc := by
  rw [Pinning.repin, hp]
  cases item with
  | fiber f =>
    rw [if_neg (by simp)]
    unfold Scheduler.dispatch
    dsimp only
    split_ifs
    · exact h.drop w rfl
    · refine h.goto fun g hg => h.taken w g ?_
      rw [hp]
      exact hg
  | cb =>
    rw [if_pos rfl]
    unfold Scheduler.dispatch
    cases s.cb_fiber w with
    | some f =>
      dsimp only
      split_ifs
      · refine (h.unpin f).goto fun g hg => ?_
        cases hg
        exact .inl (Function.update_self ..)
      · exact h.unpin f
    | none =>
      refine (h.unpin s.created).goto fun g hg => ?_
      cases hg
      exact .inl (Function.update_self ..)

variable [DecidableEq E]

theorem examine (h : Kept pin m.queue m.pc) (w : W) (i : ℕ) (tickle_me : Bool) :
    Kept pin (m.examine w i tickle_me).queue (m.examine w i tickle_me).pc := by
  unfold Scheduler.examine
  cases ht : m.queue[i]? with
  | none => exact h.goto nofun
  | some t =>
    dsimp only
    split_ifs with hhere
    · exact h.drop w rfl
    · exact h.take ht hhere
    · exact h.drop w rfl

theorem run (h : Kept s.pin s.queue s.pc) {i : Scheduler.Step W E} (hg : s.Guard (.run i))
    {m : Scheduler W E} (hm : Moves s.toScheduler i m) : Kept (s.repin i) m.queue m.pc := by
  -- Only the start of a callback changes a thread behind `run`.
  have hrepin := h.repin hg
  cases hm with
  | failed => exact hrepin
  | create => exact hrepin
  | schedule => exact h.schedule hg
  | tickle => exact hrepin
  | write => exact hrepin
  | drain => exact hrepin
  | leave hp => exact hrepin.drop _ rfl
  | lock => exact hrepin.drop _ rfl
  | examine => exact examine hrepin ..
  | dispatch _ hp => exact h.dispatch hp
  | enterIdle => exact hrepin.drop _ rfl
  | @swapIn w f cb hp => exact hrepin.drop _ rfl
  | switch => exact hrepin.drop _ rfl
  | swapOut => exact hrepin.drop _ rfl
  | swapped => exact swapped hrepin ..
  | @hold w f cb =>
    cases cb <;> exact hrepin.drop w rfl
  | @repush w f _ hp =>
    rw [Pinning.repin, hp, if_neg (by simp)]
    refine (h.push fun g hgf => ?_).drop w rfl
    cases hgf
    exact .inl (hg f (by rw [hp]; rfl))
  | stopping => exact hrepin.drop _ rfl
  | epollWait => exact hrepin.drop _ rfl
  | leaveIdle => exact hrepin.drop _ rfl

theorem step (h : Kept s.pin s.queue s.pc) {i : Step W E} (hg : s.Guard i) {s' : Pinning W E}
    (hs : s.step i = some s') : Kept s'.pin s'.queue s'.pc := by
  cases i with
  | run i =>
    obtain ⟨m,hm,rfl⟩ := Option.map_eq_some_iff.mp hs
    exact h.run hg (step_moves hm)
  | wake a f =>
    obtain ⟨m,hm,rfl⟩ := Option.map_eq_some_iff.mp hs
    cases step_moves hm with
    | failed => exact h
    | schedule =>
      refine h.push fun g hgf => ?_
      cases hgf
      exact .inl hg

end Kept

variable [DecidableEq W] [DecidableEq E]

/-- While the guard holds, a fiber is resumed by the thread it belongs to. -/
theorem keepsPins {s : Pinning W E} (h : (machine W E).Reaches Guard s) : s.KeepsPins := by
  have hkept : Kept s.pin s.queue s.pc := by
    refine h.invariant (I := fun s => Kept s.pin s.queue s.pc) ?_
      fun _ _ _ hs hg he => hs.step hg he
    rintro _ rfl
    exact ⟨fun _ ht => absurd ht List.not_mem_nil,fun _ _ hf => by cases hf⟩
  intro w f cb hp
  exact hkept.taken w f (by rw [hp]; rfl)

/-- Of two workers, a fiber is scheduled for `true`, which is about to resume it. -/
def pinFiber : List (Step Bool Unit) :=
  [.run .create,.run (.schedule (.caller ()) ⟨.fiber 0,.worker true⟩),
    .run (.tickle (.caller ())),.run (.next true),.run (.next true),.run (.next true)]

theorem keepsPins_two : ∃ s : Pinning Bool Unit,
    s.pc true = .swapIn 0 false ∧ s.pin 0 = .worker true ∧ s.KeepsPins := by
  obtain ⟨s,hs,hp,hpin⟩ := Transition.Machine.exists_reaches (M := machine Bool Unit)
    (G := Guard) (s := initial) rfl pinFiber
    (fun s => s.pc true = .swapIn 0 false ∧ s.pin 0 = .worker true) (by decide) (by decide)
  exact ⟨s,hp,hpin,keepsPins hs⟩

/-- The fiber calls `YieldToReady`, and the other worker resumes it. -/
theorem not_keepsPins_yieldToReady : ¬∀ s : Pinning Bool Unit,
    (machine Bool Unit).Reachable s → s.KeepsPins := by
  intro h
  obtain ⟨s,hs,hp,hpin⟩ := Transition.Machine.exists_reaches (M := machine Bool Unit)
    (s := initial) rfl
    (pinFiber++[.run (.next true),.run (.next true),.run (.leave true .YieldToReady),
      .run (.next true),.run (.next true),.run (.next true),.run (.next false),.run (.next false),
      .run (.next false)])
    (fun s => s.pc false = .swapIn 0 false ∧ s.pin 0 = .worker true)
    (Transition.Machine.guarded_true ..) (by decide)
  have hkept := h s hs false 0 false hp
  rw [hpin] at hkept
  exact absurd hkept (by decide)

end Pinning
end CoroutineWebserve
