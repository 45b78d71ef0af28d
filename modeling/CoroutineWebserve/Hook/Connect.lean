import CoroutineWebserve.Hook.Model
import CoroutineWebserve.IOManager.Removal

/-!
# `connect_with_timeout`

One call of `connect` on a socket whose handshake takes time. In between may come the end of the
handshake, the timer of the call, the event loop and the other threads that use the descriptor.
-/
namespace CoroutineWebserve.Hook
open IOManager

namespace Connect

def EBADF : ℤ := 9
def ETIMEDOUT : ℤ := 110
def EINPROGRESS : ℤ := 115

/-- The call before the wait, with what `connect_f` returns and its `errno`: the value that the call
returns and `errno`, or nothing when it goes on. -/
def beforeWait (t_hook_enable : Bool) (ctx : Option FdCtx) (n errno : ℤ) : Option (ℤ × ℤ) :=
  if !t_hook_enable then some (n,errno) else
  match ctx with
  | none => some (-1,EBADF)
  | some ctx =>
    if ctx.isClosed then some (-1,EBADF) else
    if !ctx.isSocket then some (n,errno) else
    if ctx.userNonblock then some (n,errno) else
    if n = 0 then some (0,errno) else
    if n ≠ -1 ∨ errno ≠ EINPROGRESS then some (n,errno) else none

/-- What the call does next. -/
inductive Phase
  | start
  | addTimer
  | addEvent
  | failed
  | parked
  | resumed
  | cancelled
  | getsockopt
  | returned (n : ℤ)
deriving DecidableEq

end Connect

/-- `handshake` is the error the handshake has ended with, `slot` the descriptor, `serial` the number
of the registration of this call, `timer` whether its timer is in `m_timers`, `callback` where the
callback of the expired timer stands. -/
structure Connect where
  timeout_ms : UInt64
  handshake : Option ℤ
  slot : Slot
  serial : Option ℕ
  timer : Bool
  callback : Option CallbackStage
  cancelled : ℤ
  errno : ℤ
  phase : Connect.Phase

namespace Connect

def initial (timeout_ms : UInt64) (slot : Slot) : Connect where
  timeout_ms
  handshake := none
  slot
  serial := none
  timer := false
  callback := none
  cancelled := 0
  errno := 0
  phase := .start

/-- `next` has the answer of `epoll_ctl` or `getsockopt`. -/
inductive Step
  | start (t_hook_enable : Bool) (ctx : Option FdCtx)
  | next (ok : Bool)
  | handshake (error : ℤ)
  | expire
  | callback (ctl : Bool)
  | fdCall (c : Call) (ctl : Bool)

/-- `SO_ERROR`, which is 0 as long as the handshake goes on. -/
def so_error (s : Connect) : ℤ := s.handshake.getD 0

/-- The registration of this call is there. -/
def Registered (s : Connect) : Prop :=
  ∃ k ∈ s.serial, ∃ r ∈ s.slot.registrations[k]?, r.removed = none

/-- The fiber has been scheduled by its registration. -/
def Scheduled (s : Connect) : Prop := ∃ k ∈ s.serial, 0 < s.slot.schedules k

/-- The socket gets writable, or has an error, when the handshake ends. -/
def MayCall (s : Connect) : Call → Prop
  | .dispatch r => r.EPOLLOUT || r.EPOLLERR || r.EPOLLHUP → s.handshake ≠ none
  | _ => True

instance (s : Connect) : Decidable s.Registered := inferInstanceAs (Decidable (∃ _ ∈ _, _))

instance (s : Connect) : Decidable s.Scheduled := inferInstanceAs (Decidable (∃ _ ∈ _, _))

instance (s : Connect) : DecidablePred s.MayCall
  | .dispatch _ => inferInstanceAs (Decidable (_ → _))
  | .addEvent .. | .delEvent _ | .cancelEvent _ | .cancelAll => isTrue trivial

/-- The statements of the call behind `EINPROGRESS`. A failed assertion of `addEvent` ends the
run. -/
def next (s : Connect) (ok : Bool) : Option Connect :=
  match s.phase with
  | .start | .returned _ => none
  | .addTimer => some { s with timer := s.timeout_ms ≠ -1, phase := .addEvent }
  | .addEvent =>
    (s.slot.call (.addEvent .WRITE (some 0) (.fiber 0 true)) ok).map fun (slot,rt) =>
      if rt then { s with slot, serial := some s.slot.registrations.length, phase := .parked }
      else { s with slot, phase := .failed }
  | .failed => some { s with timer := false, phase := .getsockopt }
  | .parked => if s.Scheduled then some { s with phase := .resumed } else none
  | .resumed => some { s with timer := false, phase := .cancelled }
  | .cancelled =>
    if s.cancelled ≠ 0 then some { s with errno := s.cancelled, phase := .returned (-1) }
    else some { s with phase := .getsockopt }
  | .getsockopt =>
    if !ok then some { s with phase := .returned (-1) } else
    if s.so_error = 0 then some { s with phase := .returned 0 } else
    some { s with errno := s.so_error, phase := .returned (-1) }

/-- The callback of the timer; `tinfo` is gone when the call has returned. -/
def runCallback (s : Connect) (ctl : Bool) : CallbackStage → Option Connect
  | .check =>
    match s.phase with
    | .returned _ => some { s with callback := none }
    | _ => some { s with callback := if s.cancelled = 0 then some .setCancelled else none }
  | .setCancelled => some { s with cancelled := ETIMEDOUT, callback := some .cancelEvent }
  | .cancelEvent =>
    (s.slot.call (.cancelEvent .WRITE) ctl).map fun r => { s with slot := r.1, callback := none }

def step (s : Connect) : Step → Option Connect
  | .start t_hook_enable ctx =>
    if s.phase = .start then
      match beforeWait t_hook_enable ctx (-1) EINPROGRESS with
      | some (n,errno) => some { s with errno, phase := .returned n }
      | none => some { s with phase := .addTimer }
    else none
  | .next ok => s.next ok
  | .handshake error =>
    if s.handshake = none then some { s with handshake := some error } else none
  | .expire =>
    if s.timer then some { s with timer := false, callback := some .check } else none
  | .callback ctl => s.callback.bind (s.runCallback ctl)
  | .fdCall c ctl =>
    if OnScheduler c ∧ s.MayCall c then (s.slot.call c ctl).map fun r => { s with slot := r.1 }
    else none

/-- The descriptor may have other registrations when the call starts. -/
def machine : Transition.Machine Connect Step where
  init s := ∃ timeout_ms slot, Quiet slot ∧ s = initial timeout_ms slot
  step := step

/-- The call returns 0 only for an established connection and leaves nothing behind. -/
def Established (s : Connect) : Prop :=
  ∀ n, s.phase = .returned n → (n = -1 ∨ n = 0 ∧ s.handshake = some 0) ∧
    s.timer = false ∧ ¬s.Registered

/-- While the handshake goes on, `addEvent` succeeds and nobody but the timer cancels the wait. -/
def Guard (s : Connect) : Step → Prop
  | .next ok => s.phase = .addEvent → ok = false → s.handshake ≠ none
  | .fdCall c ctl => c = .cancelEvent .WRITE ∨ c = .cancelAll → ctl = true → s.Registered →
      s.handshake ≠ none ∨ s.cancelled ≠ 0
  | _ => True

instance (s : Connect) : DecidablePred s.Guard
  | .next _ => inferInstanceAs (Decidable (_ → _))
  | .fdCall .. => inferInstanceAs (Decidable (_ → _))
  | .start .. | .handshake _ | .expire | .callback _ => isTrue trivial

/-! ### The invariant -/

/-- Something else than `delEvent` has removed the registration of this call. -/
def Settled (s : Connect) : Prop :=
  ∀ k ∈ s.serial, ∃ r ∈ s.slot.registrations[k]?, r.removed ≠ none ∧ r.removed ≠ some .delEvent

/-- What holds at the places of the call. -/
def AtPhase (s : Connect) : Phase → Prop
  | .start | .addTimer => s.serial = none ∧ s.timer = false
  | .addEvent => s.serial = none
  | .failed => s.serial = none ∧ s.handshake ≠ none
  | .parked => s.serial ≠ none
  | .resumed => s.serial ≠ none ∧ s.Settled
  | .cancelled => s.serial ≠ none ∧ s.Settled ∧ s.timer = false
  | .getsockopt => s.Settled ∧ s.timer = false ∧ s.handshake ≠ none
  | .returned n => s.Settled ∧ s.timer = false ∧ (n = -1 ∨ n = 0 ∧ s.handshake = some 0)

/-- The wait is over when the handshake is, or because of the timer. -/
def Over (s : Connect) : Prop := s.handshake ≠ none ∨ s.cancelled ≠ 0

structure Inv (s : Connect) : Prop where
  quiet : Quiet s.slot
  registration : ∀ k ∈ s.serial, ∃ r ∈ s.slot.registrations[k]?, r.event = .WRITE ∧
    (r.removed ≠ none → r.removed ≠ some .delEvent → s.Over)
  callback : s.callback = some .cancelEvent → s.cancelled ≠ 0
  phase : s.AtPhase s.phase

section Invariant
variable {s : Connect}

theorem not_registered (h : s.Settled) : ¬s.Registered := by
  rintro ⟨k,hk,r,hr,hnone⟩
  obtain ⟨r',hr',hne,-⟩ := h k hk
  rw [hr] at hr'
  cases hr'
  exact hne hnone

/-- Other threads end handshakes and timers, and do not undo it. -/
theorem AtPhase.mono {s' : Connect} {p : Phase} (h : s.AtPhase p) (hserial : s'.serial = s.serial)
    (htimer : s.timer = false → s'.timer = false)
    (hhandshake : ∀ e, s.handshake = some e → s'.handshake = some e)
    (hsettled : s.Settled → s'.Settled) : s'.AtPhase p := by
  have hended : s.handshake ≠ none → s'.handshake ≠ none := by
    intro hne
    obtain ⟨e,he⟩ := Option.ne_none_iff_exists'.mp hne
    rw [hhandshake e he]
    exact Option.some_ne_none e
  cases p with
  | start | addTimer => exact ⟨hserial.trans h.1,htimer h.2⟩
  | addEvent => exact hserial.trans h
  | failed => exact ⟨hserial.trans h.1,hended h.2⟩
  | parked => exact fun hnone => h (hserial.symm.trans hnone)
  | resumed => exact ⟨hserial ▸ h.1,hsettled h.2⟩
  | cancelled => exact ⟨hserial ▸ h.1,hsettled h.2.1,htimer h.2.2⟩
  | getsockopt => exact ⟨hsettled h.1,htimer h.2.1,hended h.2.2⟩
  | returned n =>
    exact ⟨hsettled h.1,htimer h.2.1,h.2.2.imp_right fun hn => ⟨hn.1,hhandshake 0 hn.2⟩⟩

namespace Inv

theorem initial {timeout_ms : UInt64} {slot : Slot} (h : Quiet slot) :
    Inv (initial timeout_ms slot) where
  quiet := h
  registration _ hk := by cases hk
  callback h := by cases h
  phase := ⟨rfl,rfl⟩

/-- The call goes on to its next statement. -/
theorem goto (h : Inv s) {p : Phase} {timer : Bool} {errno : ℤ}
    (hp : AtPhase { s with timer, errno, phase := p } p) :
    Inv { s with timer, errno, phase := p } where
  quiet := h.quiet
  registration := h.registration
  callback := h.callback
  phase := hp

/-- A call on the descriptor takes the registration away only when the wait is over. -/
theorem call (h : Inv s) {c : Call} (hc : OnScheduler c) {ctl ok : Bool} {slot : Slot}
    (hcall : s.slot.call c ctl = some (slot,ok))
    (hover : ∀ by', by' ≠ .delEvent → ctl = true → s.Registered →
      c.Removes s.slot.ctx.events .WRITE by' → s.Over)
    {callback : Option CallbackStage} (hcallback : callback = some .cancelEvent → s.cancelled ≠ 0) :
    Inv { s with slot, callback } where
  quiet := h.quiet.call hc hcall
  registration k hk := by
    obtain ⟨r,hr,hevent,hr'⟩ := h.registration k hk
    rcases h.quiet.call_follows hcall k _ hr with hsame | ⟨hnone,hctl,by',hby,hremoved⟩
    · exact ⟨r,hsame,hevent,hr'⟩
    · refine ⟨_,hremoved,hevent,fun _ hne => ?_⟩
      rw [hevent] at hby
      refine hover by' ?_ hctl ⟨k,hk,r,hr,hnone⟩ hby
      rintro rfl
      exact hne rfl
  callback := hcallback
  phase := by
    refine h.phase.mono rfl id (fun _ he => he) fun hsettled k hk => ?_
    obtain ⟨r,hr,hne,hdel⟩ := hsettled k hk
    rcases h.quiet.call_follows hcall k _ hr with hsame | ⟨hnone,-⟩
    · exact ⟨r,hsame,hne,hdel⟩
    · exact absurd hnone hne

/-- The handshake ends, or the timer expires or goes on. -/
theorem env (h : Inv s) {handshake : Option ℤ} {timer : Bool} {cancelled : ℤ}
    {callback : Option CallbackStage} (hhandshake : ∀ e, s.handshake = some e → handshake = some e)
    (htimer : s.timer = false → timer = false) (hcancelled : s.cancelled ≠ 0 → cancelled ≠ 0)
    (hcallback : callback = some .cancelEvent → cancelled ≠ 0) :
    Inv { s with handshake, timer, cancelled, callback } where
  quiet := h.quiet
  registration k hk := by
    obtain ⟨r,hr,hevent,hover⟩ := h.registration k hk
    refine ⟨r,hr,hevent,fun hne hdel => (hover hne hdel).imp (fun hended => ?_) hcancelled⟩
    obtain ⟨e,he⟩ := Option.ne_none_iff_exists'.mp hended
    rw [hhandshake e he]
    exact Option.some_ne_none e
  callback := hcallback
  phase := h.phase.mono rfl htimer hhandshake id

/-- A registration that has scheduled the fiber is gone. -/
theorem settled (h : Inv s) (hscheduled : s.Scheduled) : s.Settled := by
  obtain ⟨k,hk,hpos⟩ := hscheduled
  intro k' hk'
  obtain rfl : k = k' := Option.some.inj (hk.symm.trans hk')
  obtain ⟨r,hr,-⟩ := h.registration k hk
  rw [h.quiet.history k r hr] at hpos
  refine ⟨r,hr,?_,?_⟩
  all_goals
    intro heq
    rw [heq] at hpos
    exact absurd hpos (by decide)

/-- A wait that the timer has not ended was ended by the handshake. -/
theorem ended (h : Inv s) (hserial : s.serial ≠ none) (hsettled : s.Settled)
    (hcancelled : s.cancelled = 0) : s.handshake ≠ none := by
  obtain ⟨k,hk⟩ := Option.ne_none_iff_exists'.mp hserial
  obtain ⟨r,hr,-,hover⟩ := h.registration k hk
  obtain ⟨r',hr',hne,hdel⟩ := hsettled k hk
  rw [hr] at hr'
  cases hr'
  exact (hover hne hdel).resolve_right (not_not.mpr hcancelled)

theorem addEvent (h : Inv s) (hp : s.phase = .addEvent) {ok rt : Bool} {slot : Slot}
    (hcall : s.slot.call (.addEvent .WRITE (some 0) (.fiber 0 true)) ok = some (slot,rt))
    (hguard : ok = false → s.handshake ≠ none) :
    Inv (if rt then { s with slot, serial := some s.slot.registrations.length, phase := .parked }
      else { s with slot, phase := .failed }) := by
  have hserial : s.serial = none := by
    have hphase := h.phase
    rw [hp] at hphase
    exact hphase
  obtain ⟨rfl,hslot⟩ := Slot.call_addEvent hcall
  cases rt with
  | false =>
    rw [if_neg Bool.false_ne_true] at hslot ⊢
    subst hslot
    exact h.goto ⟨hserial,hguard rfl⟩
  | true =>
    rw [if_pos rfl] at hslot ⊢
    have hc : OnScheduler (.addEvent .WRITE (some 0) (.fiber 0 true)) := rfl
    refine ⟨h.quiet.call hc hcall,fun k hk => ?_,h.callback,Option.some_ne_none _⟩
    cases hk
    refine ⟨⟨.WRITE,.fiber 0 true,none⟩,?_,rfl,fun hne => absurd rfl hne⟩
    rw [hslot]
    exact List.getElem?_concat_length

theorem next (h : Inv s) {ok : Bool} (hguard : s.Guard (.next ok)) {s' : Connect}
    (hs : s.next ok = some s') : Inv s' := by
  have hphase := h.phase
  unfold Connect.next at hs
  split at hs
  · cases hs
  · cases hs
  · next hp =>
    rw [hp] at hphase
    cases hs
    exact h.goto hphase.1
  · next hp =>
    obtain ⟨⟨slot,rt⟩,hcall,rfl⟩ := Option.map_eq_some_iff.mp hs
    exact h.addEvent hp hcall (hguard hp)
  · next hp =>
    rw [hp] at hphase
    cases hs
    refine h.goto ⟨fun k hk => ?_,rfl,hphase.2⟩
    rw [Option.mem_def, hphase.1] at hk
    cases hk
  · next hp =>
    rw [hp] at hphase
    obtain ⟨hscheduled,hs⟩ := Option.ite_none_right_eq_some.mp hs
    cases hs
    exact h.goto ⟨hphase,h.settled hscheduled⟩
  · next hp =>
    rw [hp] at hphase
    cases hs
    exact h.goto ⟨hphase.1,hphase.2,rfl⟩
  · next hp =>
    rw [hp] at hphase
    obtain ⟨hserial,hsettled,htimer⟩ := hphase
    split_ifs at hs with hcancelled
    · cases hs
      exact h.goto ⟨hsettled,htimer,.inl rfl⟩
    · cases hs
      exact h.goto ⟨hsettled,htimer,h.ended hserial hsettled (not_not.mp hcancelled)⟩
  · next hp =>
    rw [hp] at hphase
    obtain ⟨hsettled,htimer,hended⟩ := hphase
    obtain ⟨e,he⟩ := Option.ne_none_iff_exists'.mp hended
    have herror : s.so_error = e := by rw [so_error, he, Option.getD_some]
    split_ifs at hs with hok hzero
    · cases hs
      exact h.goto ⟨hsettled,htimer,.inl rfl⟩
    · cases hs
      refine h.goto ⟨hsettled,htimer,.inr ⟨rfl,?_⟩⟩
      rw [← hzero, herror]
      exact he
    · cases hs
      exact h.goto ⟨hsettled,htimer,.inl rfl⟩

theorem runCallback (h : Inv s) {ctl : Bool} {stage : CallbackStage}
    (hstage : s.callback = some stage) {s' : Connect} (hs : s.runCallback ctl stage = some s') :
    Inv s' := by
  cases stage with
  | check =>
    simp only [Connect.runCallback] at hs
    split at hs
    · cases hs
      exact h.env (fun _ he => he) id id nofun
    · cases hs
      refine h.env (fun _ he => he) id id fun hcallback => ?_
      split_ifs at hcallback
      cases hcallback
  | setCancelled =>
    cases hs
    have hset : ETIMEDOUT ≠ 0 := by decide
    exact h.env (fun _ he => he) id (fun _ => hset) fun _ => hset
  | cancelEvent =>
    obtain ⟨⟨slot,ok⟩,hcall,rfl⟩ := Option.map_eq_some_iff.mp hs
    exact h.call (c := .cancelEvent .WRITE) trivial hcall
      (fun _ _ _ _ _ => .inr (h.callback hstage)) nofun

/-- `epoll_wait` reports the socket behind the end of the handshake only. -/
theorem ended_of_dispatch {r : Revents} (hmay : s.MayCall (.dispatch r))
    (hmem : Event.WRITE ∈ realEvents r s.slot.ctx.events) : s.handshake ≠ none := by
  refine hmay ?_
  unfold realEvents Revents.plain at hmem
  obtain ⟨i,o,e,u⟩ := r
  cases o <;> cases e <;> cases u <;> cases i <;> simp_all

theorem fdCall (h : Inv s) {c : Call} (hc : OnScheduler c) (hmay : s.MayCall c) {ctl ok : Bool}
    (hguard : s.Guard (.fdCall c ctl)) {slot : Slot} (hcall : s.slot.call c ctl = some (slot,ok)) :
    Inv { s with slot } := by
  refine h.call hc hcall (fun by' hdel hctl hregistered hremoves => ?_) h.callback
  cases c with
  | addEvent => cases hremoves
  | delEvent => exact absurd hremoves.2 hdel
  | cancelEvent e =>
    obtain ⟨rfl,-⟩ := hremoves
    exact hguard (.inl rfl) hctl hregistered
  | cancelAll => exact hguard (.inr rfl) hctl hregistered
  | dispatch r => exact .inl (ended_of_dispatch hmay hremoves.1)

theorem step (h : Inv s) {i : Step} (hguard : s.Guard i) {s' : Connect}
    (hs : s.step i = some s') : Inv s' := by
  cases i with
  | start t_hook_enable ctx =>
    obtain ⟨hp,hs⟩ := Option.ite_none_right_eq_some.mp hs
    have hphase := h.phase
    rw [hp] at hphase
    have hsettled : s.Settled := fun k hk => by
      rw [Option.mem_def, hphase.1] at hk
      cases hk
    split at hs
    · next n errno hreturn =>
      cases hs
      refine h.goto ⟨hsettled,hphase.2,.inl ?_⟩
      -- Without a wait the call fails like `connect_f`.
      unfold beforeWait at hreturn
      grind
    · cases hs
      exact h.goto hphase
  | next ok => exact h.next hguard hs
  | handshake error =>
    obtain ⟨hnone,hs⟩ := Option.ite_none_right_eq_some.mp hs
    cases hs
    refine h.env (fun e he => ?_) id id h.callback
    rw [hnone] at he
    cases he
  | expire =>
    obtain ⟨-,hs⟩ := Option.ite_none_right_eq_some.mp hs
    cases hs
    exact h.env (fun _ he => he) (fun _ => rfl) id nofun
  | callback ctl =>
    obtain ⟨stage,hstage,hs⟩ := Option.bind_eq_some_iff.mp hs
    exact h.runCallback hstage hs
  | fdCall c ctl =>
    obtain ⟨⟨hc,hmay⟩,hs⟩ := Option.ite_none_right_eq_some.mp hs
    obtain ⟨⟨slot,ok⟩,hcall,rfl⟩ := Option.map_eq_some_iff.mp hs
    exact h.fdCall hc hmay hguard hcall

theorem established (h : Inv s) : s.Established := by
  intro n hp
  have hphase := h.phase
  rw [hp] at hphase
  exact ⟨hphase.2.2,hphase.2.1,not_registered hphase.1⟩

end Inv
end Invariant

/-- The call waits with a timer. -/
def waits : List Step := [.start true (some ⟨true,false,false,none,none⟩),.next true,.next true]

end Connect
end CoroutineWebserve.Hook
