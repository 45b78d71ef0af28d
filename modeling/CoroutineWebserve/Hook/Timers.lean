import CoroutineWebserve.Hook.Identity

/-!
# The timers of `do_io`

An activation sets a timer when it comes to its wait and cancels it behind the wait, so no timer
outlives its activation.
-/
namespace CoroutineWebserve.Hook
open IOManager

/-- The timer is the one that the activation has set. -/
structure Owns (d : DoIo) (t : Timer) : Prop where
  tinfo : d.tinfo = t.tinfo
  timer : d.timer = true
  fd : d.fd = t.fd
  event : d.origin.event = t.event

/-- Between `addConditionTimer` and `cancel`. -/
def Armed (d : DoIo) : Prop :=
  d.phase = .addEvent ∨ d.phase = .yield ∨ d.phase = .parked ∨ d.phase = .resumed

/-- Behind `new timer_info`. -/
def Begun (d : DoIo) : Prop := d.phase = .retry ∨ d.phase = .addTimer ∨ Armed d

/-- An activation by itself: its `timer_info` is one that was made, and it has a timer only where it
waits. -/
structure Sound (tinfos : ℕ) (d : DoIo) : Prop where
  made : d.tinfo < tinfos
  begun : Begun d → d.tinfo ≠ 0
  armed : d.timer = true → Armed d

/-- Every timer is owned by the activation of its fiber, and no other timer is. -/
structure Owned (fibers : ℕ → Activity) (tinfos : ℕ) (timers : List Timer) : Prop where
  pos : 0 < tinfos
  sound : ∀ f d, fibers f = .io d → Sound tinfos d
  distinct : ∀ f g d e, fibers f = .io d → fibers g = .io e → d.tinfo = e.tinfo → d.tinfo ≠ 0 →
    f = g
  owner : ∀ t ∈ timers, ∃ d, fibers t.fiber = .io d ∧ Owns d t
  nodup : (timers.map Timer.tinfo).Nodup

theorem Sound.mono {tinfos tinfos' : ℕ} {d : DoIo} (h : Sound tinfos d) (hle : tinfos ≤ tinfos') :
    Sound tinfos' d := ⟨h.made.trans_le hle,h.begun,h.armed⟩

namespace Owned
variable {fibers : ℕ → Activity} {tinfos : ℕ} {timers : List Timer} {f : ℕ}

/-- Fewer timers. -/
theorem sublist (h : Owned fibers tinfos timers) {timers' : List Timer}
    (hsub : timers'.Sublist timers) : Owned fibers tinfos timers' where
  pos := h.pos
  sound := h.sound
  distinct := h.distinct
  owner t ht := h.owner t (hsub.subset ht)
  nodup := h.nodup.sublist (hsub.map _)

/-- A fiber without a timer leaves its activation. -/
theorem leave (h : Owned fibers tinfos timers) {a : Activity} (ha : ∀ d, a ≠ .io d)
    (hnone : ∀ t ∈ timers, t.fiber ≠ f) : Owned (Function.update fibers f a) tinfos timers := by
  have hother : ∀ g d, Function.update fibers f a g = .io d → fibers g = .io d := by
    intro g d hg
    by_cases he : g = f
    · subst he
      rw [Function.update_self] at hg
      exact absurd hg (ha d)
    · rwa [Function.update_of_ne he] at hg
  refine ⟨h.pos,fun g d hg => h.sound g d (hother g d hg),?_,?_,h.nodup⟩
  · exact fun g g' d e hg hg' => h.distinct g g' d e (hother g d hg) (hother g' e hg')
  · intro t ht
    rw [Function.update_of_ne (hnone t ht)]
    exact h.owner t ht

/-- A fiber without a timer begins an activation, or makes its `timer_info`. -/
theorem begin (h : Owned fibers tinfos timers) {tinfos' : ℕ} {d : DoIo} (hle : tinfos ≤ tinfos')
    (hd : Sound tinfos' d) (hnew : d.tinfo = 0 ∨ tinfos ≤ d.tinfo)
    (hnone : ∀ t ∈ timers, t.fiber ≠ f) :
    Owned (Function.update fibers f (.io d)) tinfos' timers := by
  have hold : ∀ g e, fibers g = .io e → d.tinfo = e.tinfo → d.tinfo ≠ 0 → False := by
    intro g e hg heq hne
    have hmade := (h.sound g e hg).made
    rcases hnew with hz | hge
    · exact hne hz
    · omega
  refine ⟨h.pos.trans_le hle,?_,?_,?_,h.nodup⟩
  · intro g e hg
    by_cases he : g = f
    · subst he
      rw [Function.update_self] at hg
      cases hg
      exact hd
    · rw [Function.update_of_ne he] at hg
      exact (h.sound g e hg).mono hle
  · intro g g' e e' hg hg' heq hne
    by_cases he : g = f
    · subst he
      rw [Function.update_self] at hg
      cases hg
      by_cases he' : g' = g
      · exact he'.symm
      · rw [Function.update_of_ne he'] at hg'
        exact (hold g' e' hg' heq hne).elim
    · rw [Function.update_of_ne he] at hg
      by_cases he' : g' = f
      · subst he'
        rw [Function.update_self] at hg'
        cases hg'
        exact (hold g e hg heq.symm (heq ▸ hne)).elim
      · rw [Function.update_of_ne he'] at hg'
        exact h.distinct g g' e e' hg hg' heq hne
  · intro t ht
    rw [Function.update_of_ne (hnone t ht)]
    exact h.owner t ht

/-- An activation goes on, with the timers it has. -/
theorem goOn (h : Owned fibers tinfos timers) {d d' : DoIo} (hf : fibers f = .io d)
    (htinfo : d'.tinfo = d.tinfo) (hd : Sound tinfos d')
    (howns : ∀ t ∈ timers, t.fiber = f → Owns d' t) :
    Owned (Function.update fibers f (.io d')) tinfos timers := by
  have hback : ∀ g e, Function.update fibers f (.io d') g = .io e →
      ∃ e', fibers g = .io e' ∧ e'.tinfo = e.tinfo := by
    intro g e hg
    by_cases he : g = f
    · subst he
      rw [Function.update_self] at hg
      cases hg
      exact ⟨d,hf,htinfo.symm⟩
    · rw [Function.update_of_ne he] at hg
      exact ⟨e,hg,rfl⟩
  refine ⟨h.pos,?_,?_,?_,h.nodup⟩
  · intro g e hg
    by_cases he : g = f
    · subst he
      rw [Function.update_self] at hg
      cases hg
      exact hd
    · rw [Function.update_of_ne he] at hg
      exact h.sound g e hg
  · intro g g' e e' hg hg' heq hne
    obtain ⟨d₁,h₁,ht₁⟩ := hback g e hg
    obtain ⟨d₂,h₂,ht₂⟩ := hback g' e' hg'
    exact h.distinct g g' d₁ d₂ h₁ h₂ (by rw [ht₁, ht₂, heq]) (by rw [ht₁]; exact hne)
  · intro t ht
    by_cases he : t.fiber = f
    · rw [he, Function.update_self]
      exact ⟨d',rfl,howns t ht he⟩
    · rw [Function.update_of_ne he]
      exact h.owner t ht

/-- A fiber has a timer only where its activation says so. -/
theorem no_timer (h : Owned fibers tinfos timers)
    (hf : ∀ d, fibers f = .io d → ¬Armed d) : ∀ t ∈ timers, t.fiber ≠ f := by
  intro t ht he
  obtain ⟨d,hd,howns⟩ := h.owner t ht
  rw [he] at hd
  exact hf d hd ((h.sound f d hd).armed howns.timer)

/-- The timers of an activation are those with its `timer_info`. -/
theorem owns_of_fiber (h : Owned fibers tinfos timers) {d : DoIo} (hf : fibers f = .io d) {t : Timer}
    (ht : t ∈ timers) (he : t.fiber = f) : Owns d t := by
  obtain ⟨e,hd,howns⟩ := h.owner t ht
  rw [he, hf] at hd
  cases hd
  exact howns

/-- `timer->cancel()` leaves no timer of the fiber. -/
theorem cancel (h : Owned fibers tinfos timers) {d : DoIo} (hf : fibers f = .io d) :
    let timers' := if d.timer then timers.filter fun t => t.tinfo ≠ d.tinfo else timers
    Owned fibers tinfos timers' ∧ ∀ t ∈ timers', t.fiber ≠ f := by
  intro timers'
  have hsub : timers'.Sublist timers := by
    dsimp only [timers']
    split
    · exact List.filter_sublist
    · exact List.Sublist.refl _
  refine ⟨h.sublist hsub,fun t ht he => ?_⟩
  have howns := h.owns_of_fiber hf (hsub.subset ht) he
  dsimp only [timers'] at ht
  rw [if_pos howns.timer] at ht
  have hne := (List.mem_filter.mp ht).2
  simp [howns.tinfo] at hne

/-- `addConditionTimer`. -/
theorem add (h : Owned fibers tinfos timers) {d : DoIo} (hf : fibers f = .io d)
    (hp : d.phase = .addTimer) :
    Owned (Function.update fibers f
        (.io { d with phase := .addEvent, timer := d.timeout.isSome })) tinfos
      (if d.timeout.isSome then timers++[⟨f,d.tinfo,d.fd,d.origin.event⟩] else timers) := by
  have hsound := h.sound f d hf
  have hidle : ∀ t ∈ timers, t.fiber ≠ f := h.no_timer fun e he => by
    rw [hf] at he
    cases he
    simp [Armed, hp]
  have hnext : Owned (Function.update fibers f
      (.io { d with phase := .addEvent, timer := d.timeout.isSome })) tinfos timers :=
    h.goOn hf rfl ⟨hsound.made,fun _ => hsound.begun (.inr (.inl hp)),fun _ => .inl rfl⟩
      fun t ht he => absurd he (hidle t ht)
  split
  · next hsome =>
    refine ⟨hnext.pos,hnext.sound,hnext.distinct,fun t ht => ?_,?_⟩
    · rcases List.mem_append.mp ht with ht | ht
      · exact hnext.owner t ht
      · obtain rfl := List.mem_singleton.mp ht
        exact ⟨_,Function.update_self ..,⟨rfl,hsome,rfl,rfl⟩⟩
    · rw [List.map_append, List.map_singleton, ← List.concat_eq_append, List.nodup_concat]
      refine ⟨fun hmem => ?_,h.nodup⟩
      -- a timer with this `timer_info` would be of the same fiber
      obtain ⟨t,ht,heq⟩ := List.mem_map.mp hmem
      obtain ⟨e,he,howns⟩ := h.owner t ht
      have hsame := h.distinct t.fiber f e d he hf (howns.tinfo.trans heq)
        (by rw [howns.tinfo, heq]; exact hsound.begun (.inr (.inl hp)))
      exact hidle t ht hsame
  · exact hnext

end Owned

/-! ### The steps -/

abbrev TimersOwned (m : Hook) : Prop := Owned m.fibers m.tinfos m.timers

namespace TimersOwned
variable {m : Hook}

theorem lookupIo (h : TimersOwned m) {f : ℕ} {d : DoIo} (hf : m.fibers f = .io d)
    (hp : d.phase = .lookup) : TimersOwned (m.lookupIo f d) := by
  have hsound := h.sound f d hf
  have hidle : ∀ t ∈ m.timers, t.fiber ≠ f := h.no_timer fun e he => by
    rw [hf] at he
    cases he
    simp [Armed, hp]
  have hunarmed : ¬d.timer = true := fun ht => by
    have := hsound.armed ht
    simp [Armed, hp] at this
  have hdirect : TimersOwned (m.setFiber f (.io { d with phase := .direct })) :=
    h.goOn hf rfl ⟨hsound.made,fun hb => by simp [Begun, Armed] at hb,fun ht => absurd ht hunarmed⟩
      fun t ht he => absurd he (hidle t ht)
  unfold Hook.lookupIo
  split
  · exact hdirect
  · split
    · exact h.leave (by simp) hidle
    · split
      · exact hdirect
      · exact h.begin (Nat.le_succ _)
          ⟨Nat.lt_succ_self _,fun _ => h.pos.ne',fun ht => absurd ht hunarmed⟩ (.inr le_rfl) hidle

theorem doneIo (h : TimersOwned m) {f : ℕ} (hidle : ∀ t ∈ m.timers, t.fiber ≠ f) (o : Outcome) :
    TimersOwned (m.doneIo f o) := by
  cases o with
  | accepted fd => exact h.leave (by simp) hidle
  | done | EINTR | EAGAIN => exact h.leave (by simp) hidle

theorem invokeIo (h : TimersOwned m) {f : ℕ} {d : DoIo} (hf : m.fibers f = .io d)
    (hp : d.phase = .direct ∨ d.phase = .retry) (o : Outcome) :
    TimersOwned (m.invokeIo f d o) := by
  have hlog : TimersOwned { m with calls := m.calls++[⟨f,d.fd,d.entry,m.table d.fd⟩] } := h
  have hsound := h.sound f d hf
  have hnot : ¬Armed d := by rcases hp with hp | hp <;> simp [Armed, hp]
  have hidle : ∀ t ∈ m.timers, t.fiber ≠ f := h.no_timer fun e he => by
    rw [hf] at he
    cases he
    exact hnot
  simp only [Hook.invokeIo]
  split
  · exact hlog
  · next hphase =>
    refine hlog.goOn hf rfl ⟨hsound.made,fun _ => hsound.begun (.inl hphase),?_⟩
      fun t ht he => absurd he (hidle t ht)
    exact fun ht => absurd (hsound.armed ht) hnot
  · exact hlog.doneIo hidle _

theorem call (h : TimersOwned m) {m' : Hook} {fd : ℕ} {c : Call} {ctl ok : Bool}
    (hc : m.call fd c ctl = some (m',ok)) : TimersOwned m' := by
  obtain ⟨slots,queue,rfl⟩ := call_frame hc
  exact h

/-- An armed activation comes to the next place where it is armed. -/
theorem stayArmed (h : TimersOwned m) {f : ℕ} {d : DoIo} (hf : m.fibers f = .io d) (ha : Armed d)
    {phase : Phase} (ha' : Armed { d with phase }) :
    TimersOwned (m.setFiber f (.io { d with phase })) := by
  have hsound := h.sound f d hf
  refine h.goOn hf rfl ⟨hsound.made,fun _ => hsound.begun (.inr (.inr ha)),fun _ => ha'⟩ ?_
  intro t ht he
  obtain ⟨htinfo,htimer,hfd,hevent⟩ := h.owns_of_fiber hf ht he
  exact ⟨htinfo,htimer,hfd,hevent⟩

theorem addEventIo (h : TimersOwned m) {f : ℕ} {d : DoIo} (hf : m.fibers f = .io d)
    (hp : d.phase = .addEvent) (ctl : Bool) : TimersOwned (m.addEventIo f d ctl) := by
  unfold Hook.addEventIo
  split
  · exact h
  · next m' ok hc =>
    have hcall := h.call hc
    obtain ⟨slots,queue,rfl⟩ := call_frame hc
    simp only [rt_not_pos, if_false]
    exact hcall.stayArmed hf (.inl hp) (.inr (.inl rfl))

theorem resumedIo (h : TimersOwned m) {f : ℕ} {d : DoIo} (hf : m.fibers f = .io d)
    (hp : d.phase = .resumed) : TimersOwned (m.resumedIo f d) := by
  have hsound := h.sound f d hf
  have hcancel : TimersOwned (m.cancelTimer d) ∧ (m.cancelTimer d).fibers = m.fibers ∧
      ∀ t ∈ (m.cancelTimer d).timers, t.fiber ≠ f := by
    obtain ⟨howned,hidle⟩ := h.cancel hf
    unfold Hook.cancelTimer
    split
    · next ht =>
      rw [if_pos ht] at howned hidle
      exact ⟨howned,rfl,hidle⟩
    · next ht =>
      rw [if_neg ht] at howned hidle
      exact ⟨howned,rfl,hidle⟩
  obtain ⟨howned,hfibers,hidle⟩ := hcancel
  unfold Hook.resumedIo
  split
  · exact howned.leave (by simp) hidle
  · have hf' : (m.cancelTimer d).fibers f = .io d := by rw [hfibers, hf]
    have hmade := (howned.sound f d hf').made
    refine howned.goOn hf' rfl ⟨hmade,fun _ => ?_,by simp⟩ fun t ht he => absurd he (hidle t ht)
    exact hsound.begun (.inr (.inr (.inr (.inr (.inr hp)))))

theorem callbackIo (h : TimersOwned m) (i : ℕ) (ctl : Bool) (c : Timer × CallbackStage) :
    TimersOwned (m.callbackIo i ctl c) := by
  obtain ⟨t,stage⟩ := c
  cases stage with
  | check =>
    simp only [Hook.callbackIo]
    split <;> exact h
  | setCancelled => exact h
  | cancelEvent =>
    simp only [Hook.callbackIo]
    split
    · exact h
    · next hc =>
      have hcall := h.call hc
      exact hcall

/-- A fiber that is in no activation does something else. -/
theorem other (h : TimersOwned m) {f : ℕ} (hf : ∀ d, m.fibers f ≠ .io d) {a : Activity}
    (ha : ∀ d, a ≠ .io d) : TimersOwned (m.setFiber f a) :=
  h.leave ha (h.no_timer fun d hd => absurd hd (hf d))

theorem closingIo (h : TimersOwned m) {f fd : ℕ} {iom ctl : Bool} {stage : CloseStage} {m' : Hook}
    (hf : m.fibers f = .close fd stage) (hs : m.closingIo f fd iom ctl stage = some m') :
    TimersOwned m' := by
  have hnot : ∀ d, m.fibers f ≠ .io d := by simp [hf]
  cases stage with
  | get => cases hs; exact h.other hnot (by simp)
  | cancelAll =>
    simp only [Hook.closingIo] at hs
    split at hs
    · cases hs; exact h
    · next hc =>
      cases hs
      have hcall := h.call hc
      obtain ⟨slots,queue,rfl⟩ := call_frame hc
      exact hcall.other hnot (by simp)
  | del => cases hs; exact h.other hnot (a := .close fd .close_f) (by simp)
  | close_f => cases hs

theorem step {m' : Hook} {i : Step} (h : TimersOwned m) (hs : Moves m i m') : TimersOwned m' := by
  cases hs with
  | @enter f origin fd hook_enable hf =>
    refine h.begin le_rfl ⟨h.pos,fun hb => ?_,by simp⟩ (.inl rfl)
      (h.no_timer fun d hd => by rw [hf] at hd; cases hd)
    cases hook_enable <;> simp [Begun, Armed] at hb
  | lookup hf hp => exact h.lookupIo hf hp
  | invoke hf hp => exact h.invokeIo hf hp _
  | addTimer hf hp => exact h.add hf hp
  | addEvent hf hp => exact h.addEventIo hf hp _
  | yield hf hp => exact h.stayArmed hf (.inr (.inl hp)) (.inr (.inr (.inl rfl)))
  | take => exact h
  | swapIn hf hp => exact h.stayArmed hf (.inr (.inr (.inl hp))) (.inr (.inr (.inr rfl)))
  | resumed hf hp => exact h.resumedIo hf hp
  | expire => exact h.sublist (List.eraseIdx_sublist ..)
  | fdCallFailed | configure => exact h
  | callback c => exact h.callbackIo _ _ c
  | close hf => exact h.other (by simp [hf]) (by simp)
  | closing hf hs => exact h.closingIo hf hs
  | close_f hf => exact h.other (a := .user) (by simp [hf]) (by simp)
  | socket hf => exact h.other (by simp [hf]) (by split <;> simp)
  | register hf => exact h.other (a := .user) (by simp [hf]) (by simp)
  | fdCall hd hc => exact h.call hc

end TimersOwned

/-- In any order of steps a timer of `do_io` that has not expired is that of an activation which is
at its wait, for the number and the event it waits for, and it is the only one of this activation. -/
theorem timers_owned {m : Hook} (h : machine.Reachable m) :
    (∀ t ∈ m.timers, ∃ d, m.fibers t.fiber = .io d ∧ Armed d ∧ Owns d t) ∧
      (m.timers.map Timer.fiber).Nodup := by
  have howned : TimersOwned m := h.invariant
    (fun _ hi => by
      rw [hi]
      exact ⟨by decide,by simp [initial],by simp [initial],by simp [initial],List.nodup_nil⟩)
    fun _ _ _ hm _ hs => hm.step (step_moves hs)
  refine ⟨fun t ht => ?_,?_⟩
  · obtain ⟨d,hd,howns⟩ := howned.owner t ht
    exact ⟨d,hd,(howned.sound _ d hd).armed howns.timer,howns⟩
  · refine List.Nodup.map_on ?_ (List.Nodup.of_map _ howned.nodup)
    intro t ht u hu heq
    obtain ⟨d,hd,hown⟩ := howned.owner t ht
    obtain ⟨e,he,hown'⟩ := howned.owner u hu
    rw [heq, he] at hd
    cases hd
    obtain ⟨tf,tt,tfd,te⟩ := t
    obtain ⟨uf,ut,ufd,ue⟩ := u
    obtain rfl : tf = uf := heq
    obtain rfl : tt = ut := hown.tinfo.symm.trans hown'.tinfo
    obtain rfl : tfd = ufd := hown.fd.symm.trans hown'.fd
    obtain rfl : te = ue := hown.event.symm.trans hown'.event
    rfl

/-- A read that waits, with a timeout. -/
theorem timers_owned_read : ∃ m : Hook, m.timers = [⟨0,1,5,.READ⟩] ∧
    (∀ t ∈ m.timers, ∃ d, m.fibers t.fiber = .io d ∧ Armed d ∧ Owns d t) ∧
      (m.timers.map Timer.fiber).Nodup := by
  obtain ⟨m,hm,htimers⟩ := Transition.Machine.exists_reaches (M := machine)
    (G := fun _ _ => True) rfl
    [.socket 0 5 true,.register 0,.setTimeout 5 .SO_RCVTIMEO (some 100),.enter 0 .read 5 true,
      .lookup 0,.invoke 0 .EAGAIN,.addTimer 0]
    (fun m => m.timers = [⟨0,1,5,.READ⟩]) (Transition.Machine.guarded_true ..) (by decide)
  exact ⟨m,htimers,timers_owned hm⟩

end CoroutineWebserve.Hook
