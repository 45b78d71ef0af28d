import CoroutineWebserve.Fibers.Machine

/-!
# `stop` on the thread that owns the scheduler

The switches between the stacks of the thread, its scheduler and its callbacks amount to turns of
a queue: each callback goes on where it gave up control, in the order in which it was scheduled,
and `stop` returns when no task is left.
-/
namespace CoroutineWebserve.Fibers
open Scheduler (State)
open Relation (ReflTransGen)

variable {N S : Type*}

/-- The fibers that a task refers to. -/
def Task.refs : Task N S → List Name
  | .cb _ => []
  | .fiber f => [f]

/-- How `run` came to switch to a fiber: a task named it, and `cb_fiber` is kept beside it, or the
fiber is `cb_fiber` itself. -/
inductive Via
  | fiber (cb_fiber : Option Name)
  | cb

namespace Via

/-- Where `run` goes on. -/
def code (f : Name) : Via → Code N S
  | fiber cb_fiber => .swappedFiber cb_fiber f
  | cb => .swappedCb f

/-- The fiber that `run` keeps for a callback to come. -/
def kept : Via → List Name
  | fiber cb_fiber => cb_fiber.toList
  | cb => []

end Via

namespace Thread

/-! ### What the stacks hold -/

/-- The fiber was left where the program is to go on. -/
def Waits (m : Thread N S) (f : Name) (p : Program N S) : Prop :=
  (m.fibers f).ctx = some (.inside f false (.user p)) ∧
    ((m.fibers f).state = .HOLD ∨ (m.fibers f).state = .READY)

/-- A task stands for a program. -/
def Means (m : Thread N S) : Task N S → Program N S → Prop
  | .cb q, p => q = p
  | .fiber f, p => m.Waits f p

/-- The fibers that the queue and the callbacks refer to. -/
def refs (m : Thread N S) : List Name :=
  m.m_fibers.flatMap Task.refs++m.parked.map Prod.snd

/-- The thread stands for a pool. No fiber is referred to twice, nor is one of those that `run`
itself has, which are `own`. -/
structure Holds (m : Thread N S) (own : List Name) (a : Pool N S) : Prop where
  queue : List.Forall₂ m.Means m.m_fibers a.queue
  parked : List.Forall₂ (fun x y => x.1 = y.1 ∧ m.Waits x.2 y.2) m.parked a.parked
  nodup : (own++m.refs).Nodup
  made : ∀ f ∈ own++m.refs, ∃ i < m.created, f = .callback i
  shared : m.shared = a.shared
  flags : m.m_autoStop = true ∧ m.m_stopping = true
  idle : m.fibers .idle = Fiber.new .idle
  thread : (m.fibers .thread).ctx = some .called

namespace Holds
variable {m m' : Thread N S} {own : List Name} {a : Pool N S} {f : Name} {p : Program N S}

/-- Only what `run` has, its own fiber and the place of the thread have changed. -/
theorem frame (h : m.Holds own a) (hfibers : ∀ g, g ≠ .root → g ∉ own → m'.fibers g = m.fibers g)
    (hrest : m' = { m with
      fibers := m'.fibers, stack := m'.stack, t_fiber := m'.t_fiber
      m_activeThreadCount := m'.m_activeThreadCount }) : m'.Holds own a := by
  have hrefs : ∀ g ∈ m.refs, m'.fibers g = m.fibers g := by
    intro g hg
    obtain ⟨i,-,rfl⟩ := h.made g (List.mem_append_right _ hg)
    exact hfibers _ nofun fun hown => (List.disjoint_of_nodup_append h.nodup) hown hg
  have hfixed : ∀ g, (∀ i, g ≠ .callback i) → g ≠ .root → m'.fibers g = m.fibers g := by
    intro g hne hroot
    refine hfibers g hroot fun hown => ?_
    obtain ⟨i,-,rfl⟩ := h.made g (List.mem_append_left _ hown)
    exact hne i rfl
  rw [hrest]
  refine ⟨?_,?_,h.nodup,h.made,h.shared,h.flags,?_,?_⟩
  · have hqueue : ∀ t ∈ m.m_fibers, ∀ g ∈ t.refs, m'.fibers g = m.fibers g := fun t ht g hg =>
      hrefs g (List.mem_append_left _ (List.mem_flatMap.mpr ⟨t,ht,hg⟩))
    refine ((List.forall₂_and_left ..).mpr ⟨hqueue,h.queue⟩).imp fun t p htp => ?_
    cases t with
    | cb q => exact htp.2
    | fiber g =>
      rw [Means, Waits, htp.1 g (List.mem_singleton_self g)]
      exact htp.2
  · have hparked : ∀ x ∈ m.parked, m'.fibers x.2 = m.fibers x.2 := fun x hx =>
      hrefs x.2 (List.mem_append_right _ (List.mem_map_of_mem hx))
    refine ((List.forall₂_and_left ..).mpr ⟨hparked,h.parked⟩).imp fun x y hxy => ?_
    rw [Waits, hxy.1]
    exact hxy.2
  · exact (hfixed .idle nofun nofun).trans h.idle
  · exact (congrArg Fiber.ctx (hfixed .thread nofun nofun)).trans h.thread

theorem drop (h : m.Holds (f :: own) a) : m.Holds own a :=
  ⟨h.queue,h.parked,(List.nodup_cons.mp h.nodup).2,fun g hg => h.made g (List.mem_cons_of_mem _ hg),
    h.shared,h.flags,h.idle,h.thread⟩

/-- A fiber that `run` has comes to be referred to. -/
theorem give (h : m.Holds (f :: own) a) {q : List (Task N S)} {l : List (N × Name)}
    {b : Pool N S} (hperm : ({ m with m_fibers := q, parked := l }.refs).Perm (f :: m.refs))
    (hqueue : List.Forall₂ m.Means q b.queue)
    (hparked : List.Forall₂ (fun x y => x.1 = y.1 ∧ m.Waits x.2 y.2) l b.parked)
    (hshared : b.shared = a.shared) : { m with m_fibers := q, parked := l }.Holds own b := by
  have hall : (own++{ m with m_fibers := q, parked := l }.refs).Perm (f :: own++m.refs) :=
    (hperm.append_left own).trans List.perm_middle
  exact ⟨hqueue,hparked,hall.nodup_iff.mpr h.nodup,fun g hg => h.made g (hall.mem_iff.mp hg),
    h.shared.trans hshared.symm,h.flags,h.idle,h.thread⟩

theorem push (h : m.Holds (f :: own) a) (hf : m.Waits f p) :
    (m.schedule (.fiber f)).Holds own (a.push p) := by
  refine h.give ?_ (List.rel_append h.queue (.cons hf .nil)) h.parked rfl
  simp only [refs, List.flatMap_append, List.append_assoc]
  exact List.perm_middle

theorem park (h : m.Holds (f :: own) a) (n : N) (hf : m.Waits f p) :
    { m with parked := m.parked++[(n,f)] }.Holds own { a with parked := a.parked++[(n,p)] } := by
  refine h.give ?_ h.queue (List.rel_append h.parked (.cons ⟨rfl,hf⟩ .nil)) rfl
  simp only [refs, List.map_append, ← List.append_assoc]
  exact List.perm_append_singleton f _

theorem schedule (h : m.Holds own a) (q : Program N S) :
    (m.schedule (.cb q)).Holds own (a.push q) := by
  have hrefs : (m.schedule (.cb q)).refs = m.refs := by
    simp [refs, Thread.schedule, Task.refs]
  exact ⟨List.rel_append h.queue (.cons rfl .nil),h.parked,hrefs ▸ h.nodup,
    fun g hg => h.made g (hrefs ▸ hg),h.shared,h.flags,h.idle,h.thread⟩

theorem wake [DecidableEq N] (h : m.Holds own a) (n : N) : (m.wake n).Holds own (a.wake n) := by
  rw [Thread.wake, Pool.wake]
  rcases takeFirst_rel (n := n) h.parked with ⟨hl,hk⟩ | ⟨f,l,p,k,hl,hk,hfp,hrest⟩
  · rw [hl, hk]
    exact h
  · rw [hl, hk]
    have hperm : ({ m with parked := l }.schedule (.fiber f)).refs.Perm m.refs := by
      have hparked : (m.parked.map Prod.snd).Perm (f :: l.map Prod.snd) :=
        (takeFirst_perm hl).map Prod.snd
      simp only [refs, Thread.schedule, List.flatMap_append, List.append_assoc]
      exact (hparked.append_left _).symm
    have hall := hperm.append_left own
    exact ⟨List.rel_append h.queue (.cons hfp .nil),hrest,hall.nodup_iff.mpr h.nodup,
      fun g hg => h.made g (hall.mem_iff.mp hg),h.shared,h.flags,h.idle,h.thread⟩

/-- `run` takes a callback from the queue. -/
theorem takeCb (h : m.Holds own a) {q : Program N S} {l : List (Task N S)}
    {rest : List (Program N S)} (hl : m.m_fibers = .cb q :: l)
    (hrest : List.Forall₂ m.Means l rest) :
    { m with m_fibers := l }.Holds own { a with queue := rest } := by
  have hrefs : { m with m_fibers := l }.refs = m.refs := by simp [refs, hl, Task.refs]
  exact ⟨hrest,h.parked,hrefs ▸ h.nodup,fun g hg => h.made g (hrefs ▸ hg),h.shared,h.flags,h.idle,
    h.thread⟩

/-- `run` takes a fiber from the queue. -/
theorem takeFiber (h : m.Holds own a) {l : List (Task N S)} {rest : List (Program N S)}
    (hl : m.m_fibers = .fiber f :: l) (hrest : List.Forall₂ m.Means l rest) :
    { m with m_fibers := l }.Holds (f :: own) { a with queue := rest } := by
  have hperm : (f :: own++{ m with m_fibers := l }.refs).Perm (own++m.refs) := by
    simp only [refs, hl, List.flatMap_cons, Task.refs, List.cons_append]
    exact List.perm_middle.symm
  exact ⟨hrest,h.parked,hperm.nodup_iff.mpr h.nodup,fun g hg => h.made g (hperm.mem_iff.mp hg),
    h.shared,h.flags,h.idle,h.thread⟩

/-- `run` makes a fiber. -/
theorem create (h : m.Holds [] a) (x : Fiber N S) :
    { m.modify (.callback m.created) fun _ => x with created := m.created+1 }.Holds
      [.callback m.created] a := by
  have hnew : .callback m.created ∉ m.refs := by
    intro hmem
    obtain ⟨i,hi,heq⟩ := h.made _ hmem
    cases heq
    exact lt_irrefl _ hi
  have hown : { m with created := m.created+1 }.Holds [.callback m.created] a := by
    refine ⟨h.queue,h.parked,List.nodup_cons.mpr ⟨hnew,h.nodup⟩,fun g hg => ?_,h.shared,h.flags,
      h.idle,h.thread⟩
    rcases List.mem_cons.mp hg with rfl | hg
    · exact ⟨_,Nat.lt_succ_self _,rfl⟩
    · obtain ⟨i,hi,heq⟩ := h.made g hg
      exact ⟨i,Nat.lt_succ_of_lt hi,heq⟩
  exact hown.frame (fun g _ hg => Function.update_of_ne (List.ne_of_not_mem_cons hg) ..) rfl

end Holds

/-! ### Switches -/

/-- The thread behind a switch from `f` to the scheduler, which goes on at `s`. -/
def leave (m : Thread N S) (f : Name) (x : Fiber N S) (s : Stack N S) : Thread N S where
  fibers := Function.update (Function.update m.fibers f x) .root
    { m.fibers .root with ctx := none }
  created := m.created
  t_fiber := .root
  stack := s
  m_fibers := m.m_fibers
  m_activeThreadCount := m.m_activeThreadCount
  m_autoStop := m.m_autoStop
  m_stopping := m.m_stopping
  parked := m.parked
  shared := m.shared

/-- The thread where the fiber of the scheduler has ended and switched back. -/
def left (m : Thread N S) (here : Stack N S) : Thread N S where
  fibers := Function.update (Function.update m.fibers .root ⟨.TERM,some here,none⟩) .thread
    { m.fibers .thread with ctx := none }
  created := m.created
  t_fiber := .thread
  stack := .called
  m_fibers := m.m_fibers
  m_activeThreadCount := m.m_activeThreadCount
  m_autoStop := m.m_autoStop
  m_stopping := m.m_stopping
  parked := m.parked
  shared := m.shared

/-- The thread where `run` has taken a task, which leaves these. -/
def taken (m : Thread N S) (l : List (Task N S)) : Thread N S :=
  { m with m_fibers := l, m_activeThreadCount := m.m_activeThreadCount+1 }

/-- The thread behind a switch from the scheduler, which is at `here`, to `f`, which goes on
at `s`. -/
def enter (m : Thread N S) (f : Name) (here s : Stack N S) : Thread N S where
  fibers := Function.update (Function.update m.fibers .root
    { m.fibers .root with ctx := some here }) f ⟨.EXEC,none,(m.fibers f).cb⟩
  created := m.created
  t_fiber := f
  stack := s
  m_fibers := m.m_fibers
  m_activeThreadCount := m.m_activeThreadCount
  m_autoStop := m.m_autoStop
  m_stopping := m.m_stopping
  parked := m.parked
  shared := m.shared

/-- The thread behind a callback that has given up control before `next`. -/
def yielded (m : Thread N S) (f : Name) (via : Via) (st : State) (next : Program N S) :
    Thread N S :=
  m.leave f { m.fibers f with state := st, ctx := some (.inside f false (.user next)) }
    (.inside .root true (via.code f))

section Switch
variable {m : Thread N S} {f : Name} {here s : Stack N S}

theorem swapOut_modify (hf : f ≠ .root) (hroot : (m.fibers .root).ctx = some s)
    (g : Fiber N S → Fiber N S) : (m.modify f g).swapOut f here =
      some (m.leave f { g (m.fibers f) with ctx := some here } s) := by
  simp [swapOut, swapcontext, modify, leave, hroot, Function.update_of_ne hf.symm]

theorem yieldTo_eq (hf : f ≠ .root) (hroot : (m.fibers .root).ctx = some s) (ht : m.t_fiber = f)
    (hexec : (m.fibers f).state = .EXEC) (st : State) : m.yieldTo st here =
      some (m.leave f { m.fibers f with state := st, ctx := some here } s) := by
  rw [yieldTo, ht, if_pos hexec, setState, swapOut_modify hf hroot]

theorem finish_done (hf : f ≠ .root) (hroot : (m.fibers .root).ctx = some s) :
    m.finish f false false =
      some (m.leave f ⟨.TERM,some (.inside f false .neverReach),none⟩ s) :=
  swapOut_modify hf hroot fun x => { x with cb := none, state := .TERM }

theorem finish_eq (hf : f ≠ .root) (hroot : (m.fibers .root).ctx = some s) (threw : Bool) :
    ∃ x : Fiber N S, (x.state = .TERM ∨ x.state = .EXCEPT) ∧
      m.finish f false threw = some (m.leave f x s) := by
  cases threw with
  | false => exact ⟨_,.inl rfl,finish_done hf hroot⟩
  | true => exact ⟨_,.inr rfl,swapOut_modify hf hroot fun x => { x with state := .EXCEPT }⟩

/-- The fiber of the scheduler ends. -/
theorem back_eq (hthread : (m.fibers .thread).ctx = some .called) :
    m.finish .root true false = some (m.left (.inside .root true .neverReach)) := by
  simp [finish, back, swapcontext, modify, left, hthread]

theorem leave_fiber (hf : f ≠ .root) (x : Fiber N S) : (m.leave f x s).fibers f = x := by
  simp [leave, Function.update_of_ne hf]

theorem leave_other {g : Name} (hg : g ≠ .root) (hne : g ≠ f) (x : Fiber N S) :
    (m.leave f x s).fibers g = m.fibers g := by
  simp [leave, Function.update_of_ne hg, Function.update_of_ne hne]

theorem swapIn_eq (hf : f ≠ .root) (hctx : (m.fibers f).ctx = some s)
    (hexec : (m.fibers f).state ≠ .EXEC) : m.swapIn f here = some (m.enter f here s) := by
  simp only [swapIn, if_pos hexec, swapcontext, setState, modify, Function.update_of_ne hf,
    Function.update_of_ne hf.symm, Function.update_self, hctx, Option.map_some]
  rw [Function.update_comm hf.symm, Function.update_idem, Function.update_comm hf]
  rfl

theorem enter_fiber : (m.enter f here s).fibers f = ⟨.EXEC,none,(m.fibers f).cb⟩ :=
  Function.update_self ..

theorem enter_root (hf : f ≠ .root) : ((m.enter f here s).fibers .root).ctx = some here := by
  simp [enter, Function.update_of_ne hf.symm]

theorem enter_other {g : Name} (hg : g ≠ .root) (hne : g ≠ f) :
    (m.enter f here s).fibers g = m.fibers g := by
  simp [enter, Function.update_of_ne hg, Function.update_of_ne hne]

end Switch

/-! ### The places of a run -/

/-- `run` is at the head of its loop. -/
structure AtLoop (m : Thread N S) (cb_fiber : Option Name) (a : Pool N S) : Prop where
  holds : m.Holds cb_fiber.toList a
  stack : m.stack = .inside .root true (.loop cb_fiber)
  active : m.m_activeThreadCount = 0
  spare : ∀ g ∈ cb_fiber.toList, (m.fibers g).state = .INIT

/-- A callback goes on. -/
structure Running (m : Thread N S) (f : Name) (via : Via) (p : Program N S) (a : Pool N S) :
    Prop where
  holds : m.Holds (f :: via.kept) a
  stack : m.stack = .inside f false (.user p)
  t_fiber : m.t_fiber = f
  state : (m.fibers f).state = .EXEC
  root : (m.fibers .root).ctx = some (.inside .root true (via.code f))
  active : m.m_activeThreadCount = 1
  spare : ∀ g ∈ via.kept, (m.fibers g).state = .INIT

/-- A callback has switched back. -/
structure Switched (m : Thread N S) (f : Name) (via : Via) (own : List Name) (a : Pool N S) :
    Prop where
  holds : m.Holds own a
  stack : m.stack = .inside .root true (via.code f)
  active : m.m_activeThreadCount = 1
  spare : ∀ g ∈ via.kept, (m.fibers g).state = .INIT

theorem Holds.ne_root {m : Thread N S} {own : List Name} {a : Pool N S} {f : Name}
    (h : m.Holds own a) (hf : f ∈ own) : f ≠ .root := by
  obtain ⟨i,-,rfl⟩ := h.made f (List.mem_append_left _ hf)
  exact nofun

theorem Running.ne_root {m : Thread N S} {f : Name} {via : Via} {p : Program N S} {a : Pool N S}
    (h : m.Running f via p a) : f ≠ .root := h.holds.ne_root List.mem_cons_self

theorem Running.leave {m : Thread N S} {f : Name} {via : Via} {p : Program N S} {a : Pool N S}
    (h : m.Running f via p a) (x : Fiber N S) :
    (m.leave f x (.inside .root true (via.code f))).Switched f via (f :: via.kept) a := by
  have hnot : ∀ g ∈ via.kept, g ≠ f := by
    rintro g hg rfl
    exact (List.nodup_cons.mp h.holds.nodup).1 (List.mem_append_left _ hg)
  refine ⟨h.holds.frame (fun g hroot hown => ?_) rfl,rfl,h.active,fun g hg => ?_⟩
  · exact leave_other hroot (List.ne_of_not_mem_cons hown) x
  · rw [leave_other (h.holds.ne_root (List.mem_cons_of_mem _ hg)) (hnot g hg)]
    exact h.spare g hg

namespace Switched
variable [DecidableEq N] {m : Thread N S} {f : Name} {via : Via} {own : List Name} {a : Pool N S}

/-- A callback that has ended leaves its fiber for another one, if `run` made it for a callback. -/
theorem ended (h : m.Switched f via (f :: via.kept) a)
    (hstate : (m.fibers f).state = .TERM ∨ (m.fibers f).state = .EXCEPT) :
    ∃ m' cb_fiber, m.step = some m' ∧ m'.AtLoop cb_fiber a := by
  have hswapped : m.swapped f = { m with m_activeThreadCount := 0 } := by
    rcases hstate with hs | hs <;> simp [swapped, hs, h.active]
  cases via with
  | fiber cb_fiber =>
    refine ⟨{ m.swapped f with stack := .inside .root true (.loop cb_fiber) },cb_fiber,?_,?_⟩
    · rw [step, h.stack]
      rfl
    · rw [hswapped]
      exact ⟨h.holds.drop.frame (fun _ _ _ => rfl) rfl,rfl,rfl,h.spare⟩
  | cb =>
    have hreset : (m.swapped f).reset f none =
        some ((m.swapped f).modify f fun _ => ⟨.INIT,some (.start false),none⟩) := by
      rw [reset, hswapped, if_pos (hstate.imp_right .inl)]
    refine ⟨{ (m.swapped f).modify f fun _ => ⟨.INIT,some (.start false),none⟩ with
      stack := .inside .root true (.loop (some f)) },some f,?_,?_⟩
    · rw [step, h.stack]
      simp only [Via.code, swappedCb, if_pos hstate, hreset, Option.map_some]
    · rw [hswapped]
      refine ⟨h.holds.frame (fun g _ hg => ?_) rfl,rfl,rfl,fun g hg => ?_⟩
      · exact Function.update_of_ne (List.ne_of_not_mem_cons hg) ..
      · obtain rfl := List.mem_singleton.mp hg
        simp [modify]

/-- A callback that has not ended takes its fiber with it. -/
theorem went (h : m.Switched f via own a) (hstate : (m.fibers f).state ≠ .TERM)
    (hstate' : (m.fibers f).state ≠ .EXCEPT) {b : Pool N S}
    (hholds : (m.swapped f).Holds via.kept b) (hfibers : (m.swapped f).fibers = m.fibers)
    (hactive : (m.swapped f).m_activeThreadCount = 0) :
    ∃ m' cb_fiber, m.step = some m' ∧ m'.AtLoop cb_fiber b := by
  cases via with
  | fiber cb_fiber =>
    refine ⟨{ m.swapped f with stack := .inside .root true (.loop cb_fiber) },cb_fiber,?_,?_⟩
    · rw [step, h.stack]
      rfl
    · refine ⟨hholds.frame (fun _ _ _ => rfl) rfl,rfl,hactive,fun g hg => ?_⟩
      exact (congrArg (fun fibers => (fibers g).state) hfibers).trans (h.spare g hg)
  | cb =>
    refine ⟨{ m.swapped f with stack := .inside .root true (.loop none) },none,?_,?_⟩
    · rw [step, h.stack]
      simp only [Via.code, swappedCb, if_neg (not_or.mpr ⟨hstate,hstate'⟩), Option.map_some]
    · exact ⟨hholds.frame (fun _ _ _ => rfl) rfl,rfl,hactive,fun g hg => nomatch hg⟩

theorem ready {p : Program N S} (h : m.Switched f via (f :: via.kept) a)
    (hstate : (m.fibers f).state = .READY) (hf : m.Waits f p) :
    ∃ m' cb_fiber, m.step = some m' ∧ m'.AtLoop cb_fiber (a.push p) := by
  have hswapped : m.swapped f = { m with m_activeThreadCount := 0 }.schedule (.fiber f) := by
    simp [swapped, hstate, h.active]
  refine h.went (by rw [hstate]; decide) (by rw [hstate]; decide) ?_ (by rw [hswapped]; rfl)
    (by rw [hswapped]; rfl)
  rw [hswapped]
  exact (h.holds.push hf).frame (fun _ _ _ => rfl) rfl

theorem held (h : m.Switched f via via.kept a) (hstate : (m.fibers f).state = .HOLD) :
    ∃ m' cb_fiber, m.step = some m' ∧ m'.AtLoop cb_fiber a := by
  have hself : m.setState f .HOLD = m := by
    have hfiber : { m.fibers f with state := .HOLD } = m.fibers f := by rw [← hstate]
    rw [setState, modify, hfiber, Function.update_eq_self]
  have hswapped : m.swapped f = { m with m_activeThreadCount := 0 } := by
    simp only [swapped, hstate, h.active]
    exact congrArg (fun m : Thread N S => { m with m_activeThreadCount := 0 }) hself
  refine h.went (by rw [hstate]; decide) (by rw [hstate]; decide) ?_ (by rw [hswapped])
    (by rw [hswapped])
  rw [hswapped]
  exact h.holds.frame (fun _ _ _ => rfl) rfl

end Switched
/-! ### Turns -/

section Turn
variable [DecidableEq N] {m : Thread N S} {f : Name} {via : Via} {a : Pool N S}

theorem Running.step_eq {p : Program N S} (h : m.Running f via p a) :
    m.step = m.user f false p := by rw [step, h.stack]

omit [DecidableEq N] in
theorem Running.yielded {p : Program N S} (h : m.Running f via p a) (st : State)
    (next : Program N S) :
    (m.yielded f via st next).Switched f via (f :: via.kept) a ∧
      ((m.yielded f via st next).fibers f).state = st ∧
      (st = .HOLD ∨ st = .READY → (m.yielded f via st next).Waits f next) := by
  have hfiber : (m.yielded f via st next).fibers f = _ := leave_fiber h.ne_root _
  exact ⟨h.leave _,by rw [hfiber],fun hst => by rw [Waits, hfiber]; exact ⟨rfl,hst⟩⟩

/-- A callback runs to its end or to the place where it gives up control. -/
theorem Running.run {p : Program N S} (h : m.Running f via p a) :
    ∃ m' cb_fiber, m.Steps m' ∧ m'.AtLoop cb_fiber (a.resume p) := by
  induction p generalizing m a with
  | done =>
    obtain ⟨x,hx,hfinish⟩ := finish_eq h.ne_root h.root false
    obtain ⟨m',c,hswitch,hloop⟩ := (h.leave x).ended (by rw [leave_fiber h.ne_root]; exact hx)
    exact ⟨m',c,.head (h.step_eq.trans hfinish) (.single hswitch),hloop⟩
  | throw =>
    obtain ⟨x,hx,hfinish⟩ := finish_eq h.ne_root h.root true
    obtain ⟨m',c,hswitch,hloop⟩ := (h.leave x).ended (by rw [leave_fiber h.ne_root]; exact hx)
    exact ⟨m',c,.head (h.step_eq.trans hfinish) (.single hswitch),hloop⟩
  | act g next ih =>
    have hrun : Running { m with
        shared := g m.shared, stack := .inside f false (.user (next m.shared)) } f via
        (next m.shared) { a with shared := g m.shared } :=
      ⟨{ h.holds with shared := rfl },rfl,h.t_fiber,h.state,h.root,h.active,h.spare⟩
    obtain ⟨m',c,hsteps,hloop⟩ := ih m.shared hrun
    rw [Pool.resume, ← h.holds.shared]
    exact ⟨m',c,.head h.step_eq hsteps,hloop⟩
  | schedule cb next _ ih =>
    have hrun : Running { m.schedule (.cb cb) with stack := .inside f false (.user next) } f via
        next (a.push cb) :=
      ⟨(h.holds.schedule cb).frame (fun _ _ _ => rfl) rfl,rfl,h.t_fiber,h.state,h.root,h.active,
        h.spare⟩
    obtain ⟨m',c,hsteps,hloop⟩ := ih hrun
    exact ⟨m',c,.head h.step_eq hsteps,hloop⟩
  | yieldToReady next _ =>
    have hyield : m.step = some (m.yielded f via .READY next) :=
      h.step_eq.trans (yieldTo_eq h.ne_root h.root h.t_fiber h.state .READY)
    obtain ⟨hswitched,hstate,hwaits⟩ := h.yielded .READY next
    obtain ⟨m',c,hswitch,hloop⟩ := hswitched.ready hstate (hwaits (.inr rfl))
    exact ⟨m',c,.head hyield (.single hswitch),hloop⟩
  | reschedule next _ =>
    have hyield : m.step = some ((m.yielded f via .HOLD next).schedule (.fiber f)) := by
      refine h.step_eq.trans ((yieldTo_eq (m := m.schedule (.fiber m.t_fiber)) h.ne_root h.root
        h.t_fiber h.state .HOLD).trans ?_)
      rw [h.t_fiber]
      rfl
    obtain ⟨hswitched,hstate,hwaits⟩ := h.yielded .HOLD next
    have hpushed : Switched ((m.yielded f via .HOLD next).schedule (.fiber f)) f via via.kept
        (a.push next) :=
      ⟨hswitched.holds.push (hwaits (.inl rfl)),hswitched.stack,hswitched.active,hswitched.spare⟩
    obtain ⟨m',c,hswitch,hloop⟩ := hpushed.held hstate
    exact ⟨m',c,.head hyield (.single hswitch),hloop⟩
  | park n next _ =>
    have hyield : m.step =
        some { m.yielded f via .HOLD next with parked := m.parked++[(n,f)] } := by
      refine h.step_eq.trans ((yieldTo_eq (m := { m with parked := m.parked++[(n,m.t_fiber)] })
        h.ne_root h.root h.t_fiber h.state .HOLD).trans ?_)
      rw [h.t_fiber]
      rfl
    obtain ⟨hswitched,hstate,hwaits⟩ := h.yielded .HOLD next
    have hparked : Switched { m.yielded f via .HOLD next with parked := m.parked++[(n,f)] } f via
        via.kept { a with parked := a.parked++[(n,next)] } :=
      ⟨hswitched.holds.park n (hwaits (.inl rfl)),hswitched.stack,hswitched.active,
        hswitched.spare⟩
    obtain ⟨m',c,hswitch,hloop⟩ := hparked.held hstate
    exact ⟨m',c,.head hyield (.single hswitch),hloop⟩
  | wake n next ih =>
    have hwake : (m.wake n).t_fiber = m.t_fiber ∧ (m.wake n).fibers = m.fibers ∧
        (m.wake n).m_activeThreadCount = m.m_activeThreadCount := by
      rw [Thread.wake]
      split <;> exact ⟨rfl,rfl,rfl⟩
    obtain ⟨ht,hfibers,hactive⟩ := hwake
    have hrun : Running { m.wake n with stack := .inside f false (.user next) } f via next
        (a.wake n) := by
      refine ⟨(h.holds.wake n).frame (fun _ _ _ => rfl) rfl,rfl,ht.trans h.t_fiber,?_,?_,
        hactive.trans h.active,?_⟩
      · exact (congrArg (fun fibers => (fibers f).state) hfibers).trans h.state
      · exact (congrArg (fun fibers => (fibers Name.root).ctx) hfibers).trans h.root
      · exact fun g hg =>
          (congrArg (fun fibers => (fibers g).state) hfibers).trans (h.spare g hg)
    obtain ⟨m',c,hsteps,hloop⟩ := ih hrun
    exact ⟨m',c,.head h.step_eq hsteps,hloop⟩

theorem step_start {caller : Bool} {p : Program N S} (hstack : m.stack = .start caller)
    (hcb : (m.fibers m.t_fiber).cb = some (.user p)) :
    m.step = some { m with stack := .inside m.t_fiber caller (.user p) } := by
  rw [step, hstack]
  simp only [hcb]

/-- `run` switches to a fiber that is to start with a callback. -/
theorem launch {p : Program N S} (h : m.Holds [f] a)
    (hfiber : m.fibers f = Fiber.new (.user p)) (hactive : m.m_activeThreadCount = 1) :
    ∃ m₁ m₂, m.swapIn f (.inside .root true (.swappedCb f)) = some m₁ ∧ m₁.step = some m₂ ∧
      m₂.Running f .cb p a := by
  have hf := h.ne_root List.mem_cons_self
  have hswap : m.swapIn f (.inside .root true (.swappedCb f)) = some (m.enter f _ (.start false)) :=
    swapIn_eq hf (congrArg Fiber.ctx hfiber) (by rw [hfiber]; exact nofun)
  refine ⟨_,{ m.enter f (.inside .root true (.swappedCb f)) (.start false) with
    stack := .inside f false (.user p) },hswap,?_,?_⟩
  · have hcb : ((m.enter f (.inside .root true (.swappedCb f)) (.start false)).fibers f).cb =
        some (.user p) := by
      rw [enter_fiber, hfiber]
      rfl
    exact step_start rfl hcb
  · refine ⟨h.frame (fun g hg hown => ?_) rfl,rfl,rfl,?_,enter_root hf,hactive,nofun⟩
    · exact enter_other hg (List.ne_of_not_mem_cons hown)
    · exact congrArg Fiber.state enter_fiber

/-- `run` takes the first task from the queue. -/
theorem AtLoop.take {c : Option Name} {p : Program N S} {rest : List (Program N S)}
    (h : m.AtLoop c a) (hqueue : a.queue = p :: rest) :
    ∃ m' f via, m.Steps m' ∧ m'.Running f via p { a with queue := rest } := by
  have hstep : m.step = m.loop .root true c := by rw [step, h.stack]
  have hforall := hqueue ▸ h.holds.queue
  cases hl : m.m_fibers with
  | nil => rw [hl] at hforall; cases hforall
  | cons t l =>
    rw [hl] at hforall
    obtain ⟨hmeans,hrest⟩ := List.forall₂_cons.mp hforall
    have hactive : (m.taken l).m_activeThreadCount = 1 := congrArg (·+1) h.active
    cases t with
    | cb q =>
      obtain rfl := hmeans
      have htaken : (m.taken l).Holds c.toList { a with queue := rest } :=
        (h.holds.takeCb hl hrest).frame (fun _ _ _ => rfl) rfl
      cases c with
      | some f =>
        have hinit := h.spare f (List.mem_singleton_self f)
        have hreset : (m.taken l).reset f (some (.user q)) =
            some ((m.taken l).modify f fun _ => Fiber.new (.user q)) := if_pos (.inr (.inr hinit))
        have hholds : ((m.taken l).modify f fun _ => Fiber.new (.user q)).Holds [f]
            { a with queue := rest } :=
          htaken.frame (fun g _ hg => Function.update_of_ne (List.ne_of_not_mem_cons hg) ..) rfl
        obtain ⟨m₁,m₂,hswap,hstart,hrun⟩ := launch hholds (Function.update_self ..) hactive
        have hfirst : m.step = some m₁ := by
          rw [hstep, loop, hl, takeTask]
          exact (congrArg (Option.bind · _) hreset).trans hswap
        exact ⟨m₂,f,.cb,.head hfirst (.single hstart),hrun⟩
      | none =>
        have hholds := htaken.create (Fiber.new (.user q))
        obtain ⟨m₁,m₂,hswap,hstart,hrun⟩ := launch hholds (Function.update_self ..) hactive
        have hfirst : m.step = some m₁ := by
          rw [hstep, loop, hl, takeTask]
          exact hswap
        exact ⟨m₂,_,.cb,.head hfirst (.single hstart),hrun⟩
    | fiber f =>
      obtain ⟨hctx,hstate⟩ : m.Waits f p := hmeans
      have hexec : (m.fibers f).state ≠ .EXEC := by
        rcases hstate with hs | hs <;> exact hs ▸ nofun
      have hlive : (m.fibers f).state ≠ .TERM ∧ (m.fibers f).state ≠ .EXCEPT := by
        rcases hstate with hs | hs <;> exact hs ▸ ⟨nofun,nofun⟩
      have htaken := h.holds.takeFiber hl hrest
      have hf := htaken.ne_root List.mem_cons_self
      have hswap : (m.taken l).swapIn f (.inside .root true (.swappedFiber c f)) =
          some ((m.taken l).enter f _ (.inside f false (.user p))) := swapIn_eq hf hctx hexec
      have hfirst : m.step = some ((m.taken l).enter f
          (.inside .root true (.swappedFiber c f)) (.inside f false (.user p))) := by
        rw [hstep, loop, hl, takeTask, if_neg hexec]
        exact (if_pos hlive).trans hswap
      have hnot : ∀ g ∈ c.toList, g ≠ f := by
        rintro g hg rfl
        exact (List.nodup_cons.mp htaken.nodup).1 (List.mem_append_left _ hg)
      refine ⟨_,f,.fiber c,.single hfirst,htaken.frame (fun g hg hown => ?_) rfl,rfl,rfl,?_,
        enter_root hf,hactive,fun g hg => ?_⟩
      · exact enter_other hg (List.ne_of_not_mem_cons hown)
      · exact congrArg Fiber.state enter_fiber
      · exact (congrArg Fiber.state (enter_other
          (htaken.ne_root (List.mem_cons_of_mem _ hg)) (hnot g hg))).trans (h.spare g hg)

/-- `run` executes all that the queue holds. -/
theorem AtLoop.turns {b : Pool N S} {c : Option Name} (h : m.AtLoop c a) (hturns : a.Turns b) :
    ∃ m' c', m.Steps m' ∧ m'.AtLoop c' b := by
  induction hturns using ReflTransGen.head_induction_on generalizing m c with
  | refl => exact ⟨m,c,.refl,h⟩
  | @head a a' hturn _ ih =>
    rw [Pool.turn] at hturn
    split at hturn
    · cases hturn
    · next p rest hqueue =>
      cases hturn
      obtain ⟨m₁,f,via,hsteps₁,hrun⟩ := h.take hqueue
      obtain ⟨m₂,c₂,hsteps₂,hloop⟩ := hrun.run
      obtain ⟨m₃,c₃,hsteps₃,hlast⟩ := ih hloop
      exact ⟨m₃,c₃,(hsteps₁.trans hsteps₂).trans hsteps₃,hlast⟩

/-! ### The end -/

/-- `stop` has returned. The fiber of the scheduler has ended, unless there was nothing to do. -/
structure Stopped (m : Thread N S) (a : Pool N S) : Prop where
  stack : m.stack = .returned
  t_fiber : m.t_fiber = .thread
  m_fibers : m.m_fibers = []
  active : m.m_activeThreadCount = 0
  shared : m.shared = a.shared
  parked : m.parked.map Prod.fst = a.parked.map Prod.fst

/-- No task is left, and the idle fiber has ended. -/
structure Drained (m : Thread N S) (c : Option Name) (a : Pool N S) : Prop where
  stack : m.stack = .inside .root true (.loop c)
  idle : (m.fibers .idle).state = .TERM
  thread : (m.fibers .thread).ctx = some .called
  m_fibers : m.m_fibers = []
  active : m.m_activeThreadCount = 0
  shared : m.shared = a.shared
  parked : m.parked.map Prod.fst = a.parked.map Prod.fst

omit [DecidableEq N] in
theorem Holds.parked_names {own : List Name} (h : m.Holds own a) :
    m.parked.map Prod.fst = a.parked.map Prod.fst :=
  List.forall₂_eq_eq_eq ▸ List.rel_map (R := fun x y => x.1 = y.1 ∧ m.Waits x.2 y.2)
    (fun _ _ hxy => hxy.1) h.parked

/-- Where no task is left `run` switches to the idle fiber, which ends. -/
theorem AtLoop.drained {c : Option Name} (h : m.AtLoop c a) (hqueue : a.queue = []) :
    ∃ m', m.Steps m' ∧ m'.Drained c a := by
  have hnil : m.m_fibers = [] := List.forall₂_nil_right_iff.mp (hqueue ▸ h.holds.queue)
  have hidle := h.holds.idle
  let m₁ := m.enter .idle (.inside .root true (.swappedIdle c)) (.start false)
  let m₂ : Thread N S := { m₁ with stack := .inside .idle false .idle }
  let m₃ := m₂.leave .idle ⟨.TERM,some (.inside .idle false .neverReach),none⟩
    (.inside .root true (.swappedIdle c))
  have h₁ : m.step = some m₁ := by
    rw [step, h.stack]
    simp only [loop, hnil, takeTask, hidle]
    exact swapIn_eq nofun (congrArg Fiber.ctx hidle) (by rw [hidle]; exact nofun)
  have h₂ : m₁.step = some m₂ := by
    have hcb : (m₁.fibers .idle).cb = some .idle := by rw [enter_fiber, hidle]; rfl
    rw [step]
    simp only [m₁, enter] at hcb ⊢
    simp only [hcb]
    rfl
  have hstopping : m₂.stopping = true := by
    simp [stopping, m₂, m₁, enter, hnil, h.active, h.holds.flags]
  have h₃ : m₂.step = some m₃ := by
    rw [step]
    exact (if_pos hstopping).trans (finish_done nofun (enter_root nofun))
  have hterm : (m₃.fibers .idle).state = .TERM := congrArg Fiber.state
    (leave_fiber (f := Name.idle) nofun _)
  have h₄ : m₃.step = some { m₃ with stack := .inside .root true (.loop c) } := by
    have hkept : m₃.swappedIdle = m₃ := if_neg fun hno => hno.1 hterm
    rw [step]
    exact congrArg (fun m : Thread N S => some { m with stack := .inside .root true (.loop c) })
      hkept
  have hthread : m₃.fibers .thread = m.fibers .thread :=
    (leave_other (f := Name.idle) (g := Name.thread) nofun nofun _).trans
      (enter_other (f := Name.idle) (g := Name.thread) nofun nofun)
  exact ⟨_,.head h₁ (.head h₂ (.head h₃ (.single h₄))),rfl,hterm,
    (congrArg Fiber.ctx hthread).trans h.holds.thread,hnil,h.active,h.holds.shared,
    h.holds.parked_names⟩

/-- Then `run` returns, and the thread goes on in `stop`. -/
theorem Drained.stopped {c : Option Name} (h : m.Drained c a) : ∃ m', m.Steps m' ∧
    m'.Stopped a ∧ (m'.fibers .root).ctx = some (.inside .root true .neverReach) := by
  have hstep : m.step = some (m.left (.inside .root true .neverReach)) := by
    rw [step, h.stack]
    simp only [loop, h.m_fibers, takeTask, if_pos h.idle]
    exact back_eq h.thread
  exact ⟨{ m.left (.inside .root true .neverReach) with stack := .returned },
    .head hstep (.single rfl),⟨rfl,rfl,h.m_fibers,h.active,h.shared,h.parked⟩,rfl⟩

/-! ### The beginning -/

/-- `stop` has not switched to the scheduler yet. -/
structure Fresh (m : Thread N S) (a : Pool N S) : Prop where
  stack : m.stack = .stop
  t_fiber : m.t_fiber = .thread
  root : m.fibers .root = ⟨.INIT,some (.start true),some .run⟩
  m_fibers : m.m_fibers = a.queue.map .cb
  active : m.m_activeThreadCount = 0
  parked : m.parked = [] ∧ a.parked = []
  shared : m.shared = a.shared

/-- The thread at the start of `CallerMainFunc`. -/
def called (m : Thread N S) : Thread N S where
  fibers := Function.update (Function.update m.fibers .root ⟨.EXEC,none,(m.fibers .root).cb⟩)
    .thread { m.fibers .thread with ctx := some .called }
  created := m.created
  t_fiber := .root
  stack := .start true
  m_fibers := m.m_fibers
  m_activeThreadCount := m.m_activeThreadCount
  m_autoStop := true
  m_stopping := true
  parked := m.parked
  shared := m.shared

/-- `stop` switches to the scheduler, which makes the idle fiber. -/
theorem Fresh.loop (h : m.Fresh a) (hqueue : a.queue ≠ []) :
    ∃ m', m.Steps m' ∧ m'.AtLoop none a := by
  have hne : m.m_fibers ≠ [] := by rwa [h.m_fibers, Ne, List.map_eq_nil_iff]
  have hcall : m.step = some m.called := by
    have hthread : Name.thread ≠ .root := nofun
    rw [step, h.stack]
    simp only [stop, stopping, List.isEmpty_eq_false_iff.mpr hne, Bool.and_false, Bool.false_and]
    simp only [Bool.false_eq_true, if_false, call, swapcontext, setState, modify, called,
      Function.update_self, Function.update_of_ne hthread, Function.update_of_ne hthread.symm,
      h.root, Option.map_some]
    rw [Function.update_comm hthread.symm, Function.update_idem, Function.update_comm hthread]
  have hstart : m.called.step = some { m.called.modify .idle fun _ => Fiber.new .idle with
      stack := .inside .root true (.loop none) } := by
    have hcb : (m.called.fibers .root).cb = some .run := by simp [called, h.root]
    rw [step]
    simp only [called] at hcb ⊢
    simp only [hcb]
  have hrefs : m.refs = [] := by
    simp [refs, h.m_fibers, h.parked.1, Task.refs, List.flatMap_eq_nil_iff]
  refine ⟨_,.head hcall (.single hstart),?_,rfl,h.active,nofun⟩
  refine ⟨?_,?_,?_,?_,h.shared,⟨rfl,rfl⟩,?_,?_⟩
  · have hqueue : List.Forall₂ (Means { m.called.modify .idle fun _ => Fiber.new .idle with
        stack := .inside .root true (.loop none) }) (a.queue.map .cb) a.queue :=
      List.forall₂_map_left_iff.mpr (List.forall₂_same.mpr fun _ _ => rfl)
    exact h.m_fibers ▸ hqueue
  · rw [h.parked.2]
    exact List.forall₂_nil_right_iff.mpr h.parked.1
  · exact hrefs ▸ List.nodup_nil
  · exact fun g hg => nomatch (hrefs ▸ hg : g ∈ [])
  · simp [modify]
  · simp [called, modify]

/-- `stop` returns at once where nothing is left to do. -/
theorem stop_empty (hstack : m.stack = .stop) (hnil : m.m_fibers = [])
    (hactive : m.m_activeThreadCount = 0) : m.step = some { m with
      m_autoStop := true, m_stopping := true, stack := .returned } := by
  rw [step, hstack]
  simp [stop, stopping, hnil, hactive]

/-! ### A second `stop` -/

omit [DecidableEq N] in
theorem Steps.not_aborts [DecidableEq N] {m' : Thread N S} (h : m.Steps m')
    (hstack : m'.stack = .returned) : ¬m.Aborts := by
  rintro ⟨x,hx,hnone,hne⟩
  have hlast : m'.step = none := by rw [step, hstack]
  have hunique : Relator.RightUnique fun m m' : Thread N S => m.step = some m' :=
    fun _ _ _ hy hz => Option.some.inj (hy.symm.trans hz)
  have hend {y z : Thread N S} (hy : y.step = none) (hyz : y.Steps z) : y = z := by
    rcases hyz.cases_head with heq | ⟨w,hw,-⟩
    · exact heq
    · rw [hy] at hw; cases hw
  rcases h.total_of_right_unique hunique hx with hto | hfrom
  · exact hne (hend hlast hto ▸ hstack)
  · exact hne ((hend hnone hfrom).symm ▸ hstack)

/-- The fiber of a scheduler that has run cannot be called again. -/
theorem Stopped.aborts (h : m.Stopped a)
    (hroot : (m.fibers .root).ctx = some (.inside .root true .neverReach))
    {more : List (Program N S)} (hmore : more ≠ []) : (m.again more).Aborts := by
  have hne : (m.again more).m_fibers ≠ [] := by
    simp [again, h.m_fibers, hmore]
  have hthread : Name.thread ≠ .root := nofun
  have hcall : ∃ m', (m.again more).step = some m' ∧ m'.stack = .inside .root true .neverReach := by
    rw [step]
    simp only [again, stop, stopping] at hne ⊢
    simp only [List.isEmpty_eq_false_iff.mpr hne, Bool.and_false, Bool.false_and,
      Bool.false_eq_true, if_false, call, swapcontext, setState, modify,
      Function.update_of_ne hthread.symm, Function.update_self, hroot, Option.map_some]
    exact ⟨_,rfl,rfl⟩
  obtain ⟨m',hstep,hstack⟩ := hcall
  exact ⟨m',.single hstep,by rw [step, hstack],by rw [hstack]; exact nofun⟩

/-- `stop` runs everything that was scheduled, and returns. -/
theorem Fresh.stops (h : m.Fresh a) : ∃ b, a.Turns b ∧ b.queue = [] ∧ ∃ m', m.Steps m' ∧
    m'.Stopped b ∧ if a.queue = [] then m'.fibers = m.fibers ∧ b = a
      else (m'.fibers .root).ctx = some (.inside .root true .neverReach) := by
  by_cases hqueue : a.queue = []
  · have hnil : m.m_fibers = [] := by rw [h.m_fibers, hqueue, List.map_nil]
    refine ⟨a,.refl,hqueue,_,.single (stop_empty h.stack hnil h.active),?_,?_⟩
    · exact ⟨rfl,h.t_fiber,hnil,h.active,h.shared,by rw [h.parked.1, h.parked.2]; rfl⟩
    · rw [if_pos hqueue]
      exact ⟨rfl,rfl⟩
  · obtain ⟨b,hturns,hempty⟩ := a.drains
    obtain ⟨m₁,hsteps₁,hloop⟩ := h.loop hqueue
    obtain ⟨m₂,c,hsteps₂,hlast⟩ := hloop.turns hturns
    obtain ⟨m₃,hsteps₃,hdrained⟩ := hlast.drained hempty
    obtain ⟨m₄,hsteps₄,hstopped,hroot⟩ := hdrained.stopped
    refine ⟨b,hturns,hempty,m₄,((hsteps₁.trans hsteps₂).trans hsteps₃).trans hsteps₄,hstopped,?_⟩
    rwa [if_neg hqueue]

/-- On the thread that owns the scheduler, `stop` gives every callback its turns, in the order in
which it was scheduled, yielded or was woken, and returns when the queue is empty: no assertion
fails, and no context is loaded twice. A second `stop` with more to do fails, unless the first
had nothing to do. -/
theorem stop_runs (tasks more : List (Program N S)) (s : S) :
    ∃ b, Pool.Turns ⟨tasks,[],s⟩ b ∧ b.queue = [] ∧
      ∃ m, (start tasks s).Steps m ∧ m.Stopped b ∧
        ((m.again more).Aborts ↔ tasks ≠ [] ∧ more ≠ []) := by
  have hfresh : (start tasks s).Fresh ⟨tasks,[],s⟩ := ⟨rfl,rfl,rfl,rfl,rfl,⟨rfl,rfl⟩,rfl⟩
  obtain ⟨b,hturns,hempty,m,hsteps,hstopped,hroot⟩ := hfresh.stops
  refine ⟨b,hturns,hempty,m,hsteps,hstopped,?_⟩
  by_cases htasks : tasks = []
  · -- the scheduler has not run, so it is as before
    rw [if_pos htasks] at hroot
    obtain ⟨hfibers,rfl⟩ := hroot
    have hparked : m.parked = [] := List.map_eq_nil_iff.mp hstopped.parked
    have hagain : (m.again more).Fresh ⟨more,[],m.shared⟩ := by
      refine ⟨rfl,hstopped.t_fiber,congrFun hfibers .root,?_,hstopped.active,⟨hparked,rfl⟩,rfl⟩
      rw [again, hstopped.m_fibers]
      rfl
    obtain ⟨_,-,-,_,hsteps',hstopped',-⟩ := hagain.stops
    exact iff_of_false (hsteps'.not_aborts hstopped'.stack) fun hboth => hboth.1 htasks
  · by_cases hmore : more = []
    · have hnil : (m.again more).m_fibers = [] := by rw [again, hmore, hstopped.m_fibers]; rfl
      have hdone := stop_empty (m := m.again more) rfl hnil hstopped.active
      exact iff_of_false (Steps.not_aborts (.single hdone) rfl) fun hboth => hboth.2 hmore
    · rw [if_neg htasks] at hroot
      exact iff_of_true (hstopped.aborts hroot hmore) ⟨htasks,hmore⟩

end Turn
end Thread
end CoroutineWebserve.Fibers
