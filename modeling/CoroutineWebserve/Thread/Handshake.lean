import CoroutineWebserve.Http.Message
import CoroutineWebserve.Transition.Machine
import Mathlib.Data.Fin.VecNotation
import Mathlib.Logic.Function.Basic

/-!
# `Thread`

The constructor waits until the new thread has what it needs from the `Thread`. Behind that the
object may go at any time, and the thread goes on with its own copy of the callback.
-/
namespace CoroutineWebserve.Threads
open Http (Bytes bytes)

/-- `m_id` is `none` for -1, and `m_thread` is `false` for 0. -/
structure Thread (C : Type*) where
  m_id : Option ℕ
  m_thread : Bool
  m_cb : Option C
  m_name : Bytes
  m_semaphore : ℕ

/-- The object in front of `pthread_create`. -/
def Thread.new {C : Type*} (cb : C) (name : Bytes) : Thread C where
  m_id := none
  m_thread := false
  m_cb := some cb
  m_name := if name = [] then bytes "UNKNOW" else name
  m_semaphore := 0

/-- Where the owner of the object is: in the constructor, or behind it. -/
inductive Owner
  | create
  | wait
  | thrown
  | returned
  | joining
  | gone
deriving DecidableEq

/-- What the new thread does next; in `calling` it is in the callback. -/
inductive Run
  | absent
  | setThis
  | setId
  | setName
  | swapCb
  | notify
  | start
  | calling
  | ended
deriving DecidableEq

namespace Run

/-- `t_thread_name` is set. -/
def named : Run → Bool
  | absent | setThis => false
  | _ => true

/-- `m_id` is set. -/
def known : Run → Bool
  | absent | setThis | setId => false
  | _ => true

/-- The callback is the thread's. -/
def taken : Run → Bool
  | notify | start | calling | ended => true
  | _ => false

/-- The constructor has been woken. -/
def told : Run → Bool
  | start | calling | ended => true
  | _ => false

/-- The callback has been called. -/
def started : Run → Bool
  | calling | ended => true
  | _ => false

end Run

/-- A thread, its object and the owner. `cb` is the variable in `run`, `comm` the name that the
kernel has, `called` the callbacks that were called, and `released` counts `pthread_join` and
`pthread_detach`. Who uses an object that is gone makes the rest `undefined`. -/
structure Handshake (C : Type*) where
  object : Option (Thread C)
  owner : Owner
  run : Run
  tid : ℕ
  cb : Option C
  t_thread_name : Bytes
  comm : Bytes
  called : List C
  released : ℕ
  undefined : Bool

inductive Step
  | pthread_create (ok : Bool)
  /-- `sem_wait` returns, or a signal interrupts it. -/
  | wait (interrupted : Bool)
  | next
  | SetName (name : Bytes)
  | join
  | pthread_join
  | destroy

namespace Handshake
variable {C : Type*}

def initial (cb : C) (name : Bytes) (tid : ℕ) : Handshake C where
  object := some (.new cb name)
  owner := .create
  run := .absent
  tid := tid
  cb := none
  t_thread_name := bytes "UNKNOW"
  comm := []
  called := []
  released := 0
  undefined := false

def access (s : Handshake C) (f : Thread C → Handshake C) : Handshake C :=
  match s.object with
  | some o => f o
  | none => { s with undefined := true }

/-- The next statement of `run`. -/
def next (s : Handshake C) : Option (Handshake C) :=
  match s.run with
  | .absent | .ended => none
  | .setThis => some (s.access fun o => { s with t_thread_name := o.m_name, run := .setId })
  | .setId => some (s.access fun o =>
      { s with object := some { o with m_id := some s.tid }, run := .setName })
  | .setName => some (s.access fun o =>
      { s with comm := (o.m_name.take 15).takeWhile (· ≠ 0), run := .swapCb })
  | .swapCb => some (s.access fun o =>
      { s with object := some { o with m_cb := s.cb }, cb := o.m_cb, run := .notify })
  | .notify => some (s.access fun o =>
      { s with object := some { o with m_semaphore := o.m_semaphore+1 }, run := .start })
  | .start => some { s with called := s.called++s.cb.toList, run := .calling }
  | .calling => some { s with run := .ended }

/-- `Thread::SetName`, which the callback calls. -/
def SetName (s : Handshake C) (name : Bytes) : Handshake C :=
  if name = [] then s
  else s.access fun o =>
    { s with object := some { o with m_name := name }, t_thread_name := name }

def step (s : Handshake C) : Step → Option (Handshake C)
  | .pthread_create ok =>
    if s.owner = .create then
      if ok then some (s.access fun o =>
        { s with object := some { o with m_thread := true }, owner := .wait, run := .setThis })
      else some { s with object := none, owner := .thrown }
    else none
  | .wait interrupted =>
    match s.owner, s.object with
    | .wait, some o =>
      if interrupted then some { s with object := none, owner := .thrown }
      else if 0 < o.m_semaphore then
        some { s with object := some { o with m_semaphore := o.m_semaphore-1 }, owner := .returned }
      else none
    | _, _ => none
  | .next => s.next
  | .SetName name => if s.run = .calling then some (s.SetName name) else none
  | .join =>
    match s.owner, s.object with
    | .returned, some o => some (if o.m_thread then { s with owner := .joining } else s)
    | _, _ => none
  | .pthread_join =>
    match s.owner, s.object with
    | .joining, some o =>
      if s.run = .ended then some { s with
        object := some { o with m_thread := false }
        owner := .returned
        released := s.released+1 }
      else none
    | _, _ => none
  | .destroy =>
    match s.owner, s.object with
    | .returned, some o => some { s with
        object := none
        owner := .gone
        released := if o.m_thread then s.released+1 else s.released }
    | _, _ => none

/-- No signal interrupts the constructor, and callbacks whose `Thread` is gone do not name it. -/
def Orderly (s : Handshake C) : Step → Prop
  | .wait interrupted => interrupted = false
  | .SetName name => name = [] ∨ s.object.isSome
  | _ => True

instance (s : Handshake C) : DecidablePred s.Orderly
  | .wait _ => inferInstanceAs (Decidable (_ = _))
  | .SetName _ => inferInstanceAs (Decidable (_ ∨ _))
  | .pthread_create _ | .next | .join | .pthread_join | .destroy => isTrue trivial

/-! ### What holds in every run -/

/-- What is left to the owner, and how far the thread is. -/
def Place (s : Handshake C) : Prop :=
  match s.owner with
  | .create => s.run = .absent ∧ s.released = 0 ∧ ∃ o, s.object = some o ∧ o.m_semaphore = 0
  | .thrown => s.run = .absent ∧ s.released = 0 ∧ s.object = none
  | .wait => s.run ≠ .absent ∧ s.released = 0 ∧ ∃ o, s.object = some o ∧ o.m_thread = true ∧
      o.m_semaphore = if s.run.told then 1 else 0
  | .returned => s.run.told = true ∧ ∃ o, s.object = some o ∧
      if o.m_thread then s.released = 0 else s.released = 1 ∧ s.run = .ended
  | .joining => s.run.told = true ∧ s.released = 0 ∧ ∃ o, s.object = some o ∧ o.m_thread = true
  | .gone => s.run.told = true ∧ s.released = 1 ∧ s.object = none

/-- What the thread has set in its object. -/
structure Marks (c : C) (s : Handshake C) (o : Thread C) : Prop where
  m_cb : o.m_cb = if s.run.taken then none else some c
  m_id : o.m_id = if s.run.known then some s.tid else none
  m_name : s.run.named → s.t_thread_name = o.m_name

structure Inv (c : C) (s : Handshake C) : Prop where
  defined : s.undefined = false
  cb : s.cb = if s.run.taken then some c else none
  called : s.called = if s.run.started then [c] else []
  marks : ∀ o, s.object = some o → s.Marks c o
  place : s.Place

variable {c : C} {s t : Handshake C} {o : Thread C}

theorem access_some (h : s.object = some o) (f : Thread C → Handshake C) : s.access f = f o := by
  rw [access, h]

theorem Place.of_wait (h : s.Place) (howner : s.owner = .wait) : s.run ≠ .absent ∧ s.released = 0 ∧
    ∃ o, s.object = some o ∧ o.m_thread = true ∧ o.m_semaphore = if s.run.told then 1 else 0 := by
  unfold Place at h
  rwa [howner] at h

theorem Place.of_returned (h : s.Place) (howner : s.owner = .returned) (ho : s.object = some o) :
    s.run.told = true ∧
      if o.m_thread then s.released = 0 else s.released = 1 ∧ s.run = .ended := by
  unfold Place at h
  rw [howner] at h
  obtain ⟨htold,o',ho',hif⟩ := h
  obtain rfl := Option.some.inj (ho.symm.trans ho')
  exact ⟨htold,hif⟩

theorem Place.of_joining (h : s.Place) (howner : s.owner = .joining) :
    s.run.told = true ∧ s.released = 0 ∧ ∃ o, s.object = some o ∧ o.m_thread = true := by
  unfold Place at h
  rwa [howner] at h

theorem Place.congr (h : s.Place) (howner : t.owner = s.owner) (hreleased : t.released = s.released)
    (hobject : t.object.map (fun o => (o.m_thread,o.m_semaphore)) =
      s.object.map fun o => (o.m_thread,o.m_semaphore))
    (hrun : t.run = s.run ∨ s.run.told = true ∧ s.run ≠ .ended ∧ t.run.told = true) : t.Place := by
  unfold Place at h ⊢
  rw [howner, hreleased]
  generalize s.owner = w at h
  have habsent : s.run.told = true → s.run ≠ .absent := by
    rintro htold habsent
    rw [habsent] at htold
    cases htold
  have hthere : ∀ o, s.object = some o → ∃ o', t.object = some o' ∧ o'.m_thread = o.m_thread ∧
      o'.m_semaphore = o.m_semaphore := by
    intro o ho
    rw [ho] at hobject
    obtain ⟨o',ho',heq⟩ := Option.map_eq_some_iff.mp hobject
    exact ⟨o',ho',congrArg Prod.fst heq,congrArg Prod.snd heq⟩
  cases w with
  | create =>
    obtain ⟨hrun',hreleased,o,ho,hsem⟩ := h
    obtain ⟨o',ho',-,hsem'⟩ := hthere o ho
    have hsame := hrun.resolve_right fun hr => habsent hr.1 hrun'
    exact ⟨hsame.trans hrun',hreleased,o',ho',hsem'.trans hsem⟩
  | thrown =>
    obtain ⟨hrun',hreleased,ho⟩ := h
    have hsame := hrun.resolve_right fun hr => habsent hr.1 hrun'
    rw [ho] at hobject
    exact ⟨hsame.trans hrun',hreleased,Option.map_eq_none_iff.mp hobject⟩
  | wait =>
    obtain ⟨hrun',hreleased,o,ho,hthread,hsem⟩ := h
    obtain ⟨o',ho',hthread',hsem'⟩ := hthere o ho
    refine ⟨?_,hreleased,o',ho',hthread'.trans hthread,hsem'.trans (hsem.trans ?_)⟩
    · rcases hrun with hsame | ⟨-,-,htold⟩
      · rwa [hsame]
      · rintro habsent
        rw [habsent] at htold
        cases htold
    · rcases hrun with hsame | ⟨htold,-,htold'⟩
      · rw [hsame]
      · rw [htold, htold']
  | returned =>
    obtain ⟨htold,o,ho,hif⟩ := h
    obtain ⟨o',ho',hthread',-⟩ := hthere o ho
    rcases hrun with hsame | ⟨-,hended,htold'⟩
    · exact ⟨hsame ▸ htold,o',ho',by rw [hthread', hsame]; exact hif⟩
    · refine ⟨htold',o',ho',?_⟩
      rw [hthread']
      split_ifs at hif ⊢
      · exact hif
      · exact absurd hif.2 hended
  | joining =>
    obtain ⟨htold,hreleased,o,ho,hthread⟩ := h
    obtain ⟨o',ho',hthread',-⟩ := hthere o ho
    exact ⟨hrun.elim (fun hsame => hsame ▸ htold) fun hr => hr.2.2,hreleased,o',ho',
      hthread'.trans hthread⟩
  | gone =>
    obtain ⟨htold,hreleased,ho⟩ := h
    rw [ho] at hobject
    exact ⟨hrun.elim (fun hsame => hsame ▸ htold) fun hr => hr.2.2,hreleased,
      Option.map_eq_none_iff.mp hobject⟩

namespace Inv

/-- A thread that has not woken the constructor finds its object. -/
theorem waiting (h : Inv c s) (hrun : s.run ≠ .absent) (htold : s.run.told = false) :
    s.owner = .wait ∧ s.released = 0 ∧ ∃ o, s.object = some o ∧ o.m_thread = true ∧
      o.m_semaphore = 0 ∧ s.Marks c o := by
  have hplace := h.place
  unfold Place at hplace
  cases howner : s.owner with
  | wait =>
    obtain ⟨-,hreleased,o,ho,hthread,hsem⟩ := h.place.of_wait howner
    rw [htold, if_neg Bool.false_ne_true] at hsem
    exact ⟨rfl,hreleased,o,ho,hthread,hsem,h.marks o ho⟩
  | create | thrown =>
    rw [howner] at hplace
    exact absurd hplace.1 hrun
  | returned | joining | gone =>
    rw [howner] at hplace
    exact absurd (htold.symm.trans hplace.1) Bool.false_ne_true

/-- The constructor waits still. -/
theorem of_wait (hdefined : t.undefined = false) (howner : t.owner = .wait)
    (hreleased : t.released = 0) (ho : t.object = some o) (hrun : t.run ≠ .absent)
    (hthread : o.m_thread = true) (hsem : o.m_semaphore = if t.run.told then 1 else 0)
    (hcb : t.cb = if t.run.taken then some c else none)
    (hcalled : t.called = if t.run.started then [c] else []) (hmarks : t.Marks c o) : Inv c t := by
  refine ⟨hdefined,hcb,hcalled,fun o' ho' => ?_,?_⟩
  · obtain rfl := Option.some.inj (ho.symm.trans ho')
    exact hmarks
  · unfold Place
    rw [howner]
    exact ⟨hrun,hreleased,o,ho,hthread,hsem⟩

theorem next (h : Inv c s) (hs : s.next = some t) : Inv c t := by
  obtain ⟨object,owner,run,tid,cb,t_thread_name,comm,called,released,undefined⟩ := s
  cases run with
  | absent | ended => cases hs
  | setThis =>
    obtain ⟨howner,hreleased,o,rfl,hthread,hsem,⟨hm_cb,hm_id,-⟩⟩ :=
      h.waiting (by rintro ⟨⟩) rfl
    cases hs
    exact of_wait h.defined howner hreleased rfl (by rintro ⟨⟩) hthread hsem h.cb h.called
      ⟨hm_cb,hm_id,fun _ => rfl⟩
  | setId =>
    obtain ⟨howner,hreleased,o,rfl,hthread,hsem,⟨hm_cb,-,hm_name⟩⟩ :=
      h.waiting (by rintro ⟨⟩) rfl
    cases hs
    exact of_wait h.defined howner hreleased rfl (by rintro ⟨⟩) hthread hsem h.cb h.called
      ⟨hm_cb,rfl,hm_name⟩
  | setName =>
    obtain ⟨howner,hreleased,o,rfl,hthread,hsem,⟨hm_cb,hm_id,hm_name⟩⟩ :=
      h.waiting (by rintro ⟨⟩) rfl
    cases hs
    exact of_wait h.defined howner hreleased rfl (by rintro ⟨⟩) hthread hsem h.cb h.called
      ⟨hm_cb,hm_id,hm_name⟩
  | swapCb =>
    obtain ⟨howner,hreleased,o,rfl,hthread,hsem,⟨hm_cb,hm_id,hm_name⟩⟩ :=
      h.waiting (by rintro ⟨⟩) rfl
    cases hs
    exact of_wait h.defined howner hreleased rfl (by rintro ⟨⟩) hthread hsem hm_cb h.called
      ⟨h.cb,hm_id,hm_name⟩
  | notify =>
    obtain ⟨howner,hreleased,o,rfl,hthread,hsem,⟨hm_cb,hm_id,hm_name⟩⟩ :=
      h.waiting (by rintro ⟨⟩) rfl
    cases hs
    exact of_wait h.defined howner hreleased rfl (by rintro ⟨⟩) hthread (congrArg (·+1) hsem) h.cb h.called
      ⟨hm_cb,hm_id,hm_name⟩
  | start =>
    have hplace := h.place.congr (t := t) (by cases hs; rfl) (by cases hs; rfl) (by cases hs; rfl)
      (.inr ⟨rfl,by rintro ⟨⟩,by cases hs; rfl⟩)
    have hcb : cb = some c := h.cb
    have hcalled : called = [] := h.called
    subst hcb hcalled
    cases hs
    refine ⟨h.defined,rfl,rfl,fun o ho => ?_,hplace⟩
    obtain ⟨hm_cb,hm_id,hm_name⟩ := h.marks o ho
    exact ⟨hm_cb,hm_id,hm_name⟩
  | calling =>
    have hplace := h.place.congr (t := t) (by cases hs; rfl) (by cases hs; rfl) (by cases hs; rfl)
      (.inr ⟨rfl,by rintro ⟨⟩,by cases hs; rfl⟩)
    cases hs
    refine ⟨h.defined,h.cb,h.called,fun o ho => ?_,hplace⟩
    obtain ⟨hm_cb,hm_id,hm_name⟩ := h.marks o ho
    exact ⟨hm_cb,hm_id,hm_name⟩

/-- The callback renames its thread. -/
theorem rename (h : Inv c s) {name : Bytes} (hg : name = [] ∨ s.object.isSome) :
    Inv c (s.SetName name) := by
  unfold Handshake.SetName
  split_ifs with hname
  · exact h
  · obtain ⟨o,ho⟩ := Option.isSome_iff_exists.mp (hg.resolve_left hname)
    rw [access_some ho]
    refine ⟨h.defined,h.cb,h.called,fun o' ho' => ?_,?_⟩
    · cases ho'
      obtain ⟨hm_cb,hm_id,-⟩ := h.marks o ho
      exact ⟨hm_cb,hm_id,fun _ => rfl⟩
    · exact h.place.congr rfl rfl (by rw [ho]; rfl) (.inl rfl)

/-- What the owner does. -/
theorem own (h : Inv c s) (hrun : t.run = s.run) (htid : t.tid = s.tid) (hcb : t.cb = s.cb)
    (hcalled : t.called = s.called) (hname : t.t_thread_name = s.t_thread_name)
    (hundefined : t.undefined = s.undefined)
    (hobject : ∀ o', t.object = some o' → ∃ o, s.object = some o ∧ o'.m_cb = o.m_cb ∧
      o'.m_id = o.m_id ∧ o'.m_name = o.m_name) (hplace : t.Place) : Inv c t := by
  refine ⟨hundefined.trans h.defined,by rw [hcb, hrun, h.cb],by rw [hcalled, hrun, h.called],
    fun o' ho' => ?_,hplace⟩
  obtain ⟨o,ho,hm_cb,hm_id,hm_name⟩ := hobject o' ho'
  have hmarks := h.marks o ho
  refine ⟨by rw [hm_cb, hrun, hmarks.m_cb],by rw [hm_id, hrun, htid, hmarks.m_id],fun hnamed => ?_⟩
  rw [hname, hm_name]
  exact hmarks.m_name (hrun ▸ hnamed)

theorem pthread_create (h : Inv c s) {ok : Bool} (hs : s.step (.pthread_create ok) = some t) :
    Inv c t := by
  have hplace := h.place
  simp only [Handshake.step, Option.ite_none_right_eq_some] at hs
  obtain ⟨howner,hs⟩ := hs
  unfold Place at hplace
  rw [howner] at hplace
  obtain ⟨hrun,hreleased,o,ho,hsem⟩ := hplace
  cases ok with
  | false =>
    cases hs
    exact h.own rfl rfl rfl rfl rfl rfl (by rintro _ ⟨⟩) ⟨hrun,hreleased,rfl⟩
  | true =>
    have hcb := h.cb
    have hcalled := h.called
    obtain ⟨hm_cb,hm_id,-⟩ := h.marks o ho
    rw [hrun] at hcb hcalled hm_cb hm_id
    simp only [if_true, access_some ho, Option.some.injEq] at hs
    subst hs
    exact of_wait h.defined rfl hreleased rfl (by rintro ⟨⟩) rfl hsem hcb hcalled
      ⟨hm_cb,hm_id,by rintro ⟨⟩⟩

theorem wait (h : Inv c s) (hs : s.step (.wait false) = some t) : Inv c t := by
  simp only [Handshake.step] at hs
  split at hs
  · next o howner ho =>
    obtain ⟨-,hreleased,o',ho',hthread,hsem⟩ := h.place.of_wait howner
    obtain rfl := Option.some.inj (ho.symm.trans ho')
    rw [if_neg Bool.false_ne_true, Option.ite_none_right_eq_some] at hs
    obtain ⟨hpos,hs⟩ := hs
    have htold : s.run.told = true := by
      by_contra hnot
      rw [if_neg hnot] at hsem
      omega
    cases hs
    refine h.own rfl rfl rfl rfl rfl rfl (fun o' ho' => ?_) ⟨htold,_,rfl,?_⟩
    · cases ho'
      exact ⟨o,ho,rfl,rfl,rfl⟩
    · rw [if_pos hthread]
      exact hreleased
  · cases hs

theorem join (h : Inv c s) (hs : s.step .join = some t) : Inv c t := by
  simp only [Handshake.step] at hs
  split at hs
  · next o howner ho =>
    obtain ⟨htold,hif⟩ := h.place.of_returned howner ho
    cases hs
    split_ifs with hthread
    · rw [if_pos hthread] at hif
      exact h.own rfl rfl rfl rfl rfl rfl (fun o' ho' => ⟨o',ho',rfl,rfl,rfl⟩)
        ⟨htold,hif,o,ho,hthread⟩
    · exact h
  · cases hs

theorem pthread_join (h : Inv c s) (hs : s.step .pthread_join = some t) : Inv c t := by
  simp only [Handshake.step] at hs
  split at hs
  · next o howner ho =>
    obtain ⟨htold,hreleased,-⟩ := h.place.of_joining howner
    rw [Option.ite_none_right_eq_some] at hs
    obtain ⟨hended,hs⟩ := hs
    cases hs
    refine h.own rfl rfl rfl rfl rfl rfl (fun o' ho' => ?_) ⟨htold,_,rfl,?_⟩
    · cases ho'
      exact ⟨o,ho,rfl,rfl,rfl⟩
    · exact ⟨congrArg (·+1) hreleased,hended⟩
  · cases hs

theorem destroy (h : Inv c s) (hs : s.step .destroy = some t) : Inv c t := by
  simp only [Handshake.step] at hs
  split at hs
  · next o howner ho =>
    obtain ⟨htold,hif⟩ := h.place.of_returned howner ho
    cases hs
    refine h.own rfl rfl rfl rfl rfl rfl (by rintro _ ⟨⟩) ⟨htold,?_,rfl⟩
    split_ifs at hif ⊢
    · exact congrArg (·+1) hif
    · exact hif.1
  · cases hs

theorem step (h : Inv c s) {i : Step} (hg : s.Orderly i) (hs : s.step i = some t) : Inv c t := by
  cases i with
  | pthread_create ok => exact h.pthread_create hs
  | wait interrupted =>
    obtain rfl : interrupted = false := hg
    exact h.wait hs
  | next => exact h.next hs
  | SetName name =>
    obtain ⟨-,rfl⟩ : s.run = .calling ∧ s.SetName name = t := by simpa [Handshake.step] using hs
    exact h.rename hg
  | join => exact h.join hs
  | pthread_join => exact h.pthread_join hs
  | destroy => exact h.destroy hs

theorem initial (c : C) (name : Bytes) (tid : ℕ) : Inv c (Handshake.initial c name tid) where
  defined := rfl
  cb := rfl
  called := rfl
  marks o ho := by
    cases ho
    exact ⟨rfl,rfl,by rintro ⟨⟩⟩
  place := ⟨rfl,rfl,_,rfl,rfl⟩

end Inv

/-! ### Any number of threads -/

/-- What the owner, the new thread and its callback can rely on. -/
structure Handshakes (c : C) (s : Handshake C) : Prop where
  defined : s.undefined = false
  once : s.called = [] ∨ s.called = [c]
  ended : s.run = .ended → s.called = [c]
  ready : ∀ o, s.object = some o → s.owner = .returned ∨ s.owner = .joining →
    o.m_id = some s.tid ∧ o.m_cb = none
  name : ∀ o, s.object = some o → s.run = .calling → s.t_thread_name = o.m_name
  joined : ∀ o, s.object = some o → s.owner = .returned → o.m_thread = false →
    s.run = .ended ∧ s.released = 1
  gone : s.owner = .gone → s.object = none ∧ s.released = 1
  wakes : s.owner = .wait → s.next.isSome ∨ (s.step (.wait false)).isSome
  joins : s.owner = .joining → s.next.isSome ∨ (s.step .pthread_join).isSome

theorem next_isSome (habsent : s.run ≠ .absent) (hended : s.run ≠ .ended) : s.next.isSome := by
  unfold Handshake.next
  cases hrun : s.run with
  | absent => exact absurd hrun habsent
  | ended => exact absurd hrun hended
  | setThis | setId | setName | swapCb | notify | start | calling => rfl

theorem Inv.ready (h : Inv c s) (htold : s.run.told = true) (ho : s.object = some o) :
    o.m_id = some s.tid ∧ o.m_cb = none := by
  obtain ⟨hm_cb,hm_id,-⟩ := h.marks o ho
  cases hrun : s.run with
  | start | calling | ended =>
    rw [hrun] at hm_cb hm_id
    exact ⟨hm_id,hm_cb⟩
  | absent | setThis | setId | setName | swapCb | notify =>
    rw [hrun] at htold
    cases htold

theorem Inv.handshake (h : Inv c s) : Handshakes c s where
  defined := h.defined
  once := by
    rw [h.called]
    split_ifs
    · exact .inr rfl
    · exact .inl rfl
  ended hended := by
    rw [h.called, hended]
    rfl
  ready o ho howner := by
    rcases howner with howner | howner
    · exact h.ready (h.place.of_returned howner ho).1 ho
    · exact h.ready (h.place.of_joining howner).1 ho
  name o ho hrun := (h.marks o ho).m_name (by rw [hrun]; rfl)
  joined o ho howner hthread := by
    obtain ⟨-,hif⟩ := h.place.of_returned howner ho
    rw [if_neg (by rw [hthread]; exact Bool.false_ne_true)] at hif
    exact hif.symm
  gone howner := by
    have hplace := h.place
    unfold Place at hplace
    rw [howner] at hplace
    exact ⟨hplace.2.2,hplace.2.1⟩
  wakes howner := by
    obtain ⟨habsent,-,o,ho,-,hsem⟩ := h.place.of_wait howner
    by_cases hended : s.run = .ended
    · right
      rw [hended] at hsem
      simp [Handshake.step, howner, ho, hsem, Run.told]
    · exact .inl (next_isSome habsent hended)
  joins howner := by
    obtain ⟨htold,-,o,ho,-⟩ := h.place.of_joining howner
    by_cases hended : s.run = .ended
    · right
      simp [Handshake.step, howner, ho, hended]
    · refine .inl (next_isSome (fun habsent => ?_) hended)
      rw [habsent] at htold
      cases htold

end Handshake

variable {T C : Type*} [DecidableEq T]

/-- Threads that are given these callbacks and names. -/
def machine (cbs : T → C) (names : T → Bytes) (tids : T → ℕ) :
    Transition.Machine (T → Handshake C) (T × Step) where
  init s := s = fun t => .initial (cbs t) (names t) (tids t)
  step s i := ((s i.1).step i.2).map (Function.update s i.1)

def Orderly (s : T → Handshake C) (i : T × Step) : Prop := (s i.1).Orderly i.2

instance (s : T → Handshake C) : DecidablePred (Orderly s) :=
  fun i => inferInstanceAs (Decidable ((s i.1).Orderly i.2))

/-- In every interleaving, a callback is called once, the constructor returns behind the hand-over,
and nobody uses a `Thread` that is gone. -/
theorem handshakes {cbs : T → C} {names : T → Bytes} {tids : T → ℕ} {s : T → Handshake C}
    (h : (machine cbs names tids).Reaches Orderly s) (t : T) : (s t).Handshakes (cbs t) := by
  have hinv : ∀ t, (s t).Inv (cbs t) := by
    refine h.invariant (I := fun s => ∀ t, (s t).Inv (cbs t)) ?_ ?_
    · rintro _ rfl t
      exact .initial ..
    · intro s i s' hs hg he t
      obtain ⟨next,hnext,rfl⟩ := Option.map_eq_some_iff.mp he
      by_cases ht : t = i.1
      · subst ht
        rw [Function.update_self]
        exact (hs i.1).step hg hnext
      · rw [Function.update_of_ne ht]
        exact hs t
  exact (hinv t).handshake

/-- One thread is joined, the other is still in its callback when its `Thread` goes. -/
theorem handshakes_two : ∃ s : Fin 2 → Handshake ℕ, (s 0).called = [7] ∧ (s 1).called = [8] ∧
    (s 0).Handshakes 7 ∧ (s 1).Handshakes 8 := by
  obtain ⟨s,hs,hzero,hone⟩ := Transition.Machine.exists_reaches
    (M := machine ![7,8] (fun _ => []) fun t : Fin 2 => t) (G := Orderly) rfl
    [(0,.pthread_create true),(0,.next),(1,.pthread_create true),(0,.next),(0,.next),(1,.next),
      (0,.next),(0,.next),(1,.next),(0,.wait false),(1,.next),(1,.next),(1,.next),(0,.join),
      (1,.wait false),(1,.next),(0,.next),(1,.SetName (bytes "io")),(1,.destroy),(0,.next),
      (0,.pthread_join),(1,.SetName []),(0,.destroy)]
    (fun s => (s 0).called = [7] ∧ (s 1).called = [8]) (by decide +kernel) (by decide +kernel)
  exact ⟨s,hzero,hone,handshakes hs 0,handshakes hs 1⟩

/-- A signal in `sem_wait` lets the constructor throw while the thread reads its name. -/
theorem not_handshakes : ∃ s : Fin 1 → Handshake ℕ,
    (machine (fun _ => 7) (fun _ => []) fun _ => 0).Reachable s ∧ (s 0).undefined = true := by
  exact Transition.Machine.exists_reaches
    (M := machine (fun _ : Fin 1 => 7) (fun _ => []) fun _ => 0) rfl
    [(0,.pthread_create true),(0,.wait true),(0,.next)] (fun s => (s 0).undefined = true)
    (Transition.Machine.guarded_true ..) (by decide +kernel)

end CoroutineWebserve.Threads
