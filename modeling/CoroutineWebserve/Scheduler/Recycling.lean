import CoroutineWebserve.Scheduler.Exclusive

/-!
# The fiber that a worker keeps for callbacks

Every worker resets its callback fiber for the next callback when the last has ended. The
fiber is the worker's own again only if nobody else comes back to it: neither a reference on
the queue, nor a worker that has resumed it and has still to test its state.
-/
namespace CoroutineWebserve.Scheduler
variable {W E : Type*}

/-- The callback fiber that a worker is busy with at this place of `run`. -/
def Pc.busyWith : Pc → Option ℕ
  | .swapIn f true | .switch f true | .running f true | .swapOut f true | .swapped f true
  | .hold f true => some f
  | .swapIn _ false | .switch _ false | .running _ false | .swapOut _ false | .swapped _ false
  | .hold _ false | .top | .scan .. | .scanned _ | .repush _ | .stopping | .epollWait
  | .woken => none

theorem Pc.names_of_busyWith {pc : Pc} {f : ℕ} (h : pc.busyWith = some f) :
    pc.names = some f := by
  cases pc with
  | swapIn _ cb | switch _ cb | running _ cb | swapOut _ cb | swapped _ cb | hold _ cb =>
    cases cb <;> simp_all [busyWith, names]
  | _ => simp_all [busyWith]

/-- No worker but `w` mentions the fiber. -/
def Alone (pc : W → Pc) (w : W) (f : ℕ) : Prop := ∀ u, (pc u).names = some f → u = w

/-- A worker's callback fiber: at rest to be reset or just reset, with a callback that runs,
left by the callback, or about to be given away. -/
inductive Kept (fibers : ℕ → Fiber) (pc : W → Pc) (w : W) (f : ℕ) : Prop
  | rest (hr : (fibers f).state.Resettable)
      (ha : ∀ u, (pc u).names = some f → u = w ∧ pc w = .swapIn f true)
  | busy (hp : pc w = .switch f true ∨ pc w = .running f true) (ha : Alone pc w f)
  | left (hp : pc w = .swapOut f true ∨ pc w = .swapped f true)
      (ha : Alone pc w f ∨ (fibers f).state = .HOLD ∨ (fibers f).state = .READY)
  | hold (hp : pc w = .hold f true)

/-- Workers are busy with their own callback fibers, and these are kept as they should be. -/
structure Recycling (fibers : ℕ → Fiber) (pc : W → Pc) (cb_fiber : W → Option ℕ) : Prop where
  own : ∀ w f, (pc w).busyWith = some f → cb_fiber w = some f
  one : ∀ u w f, cb_fiber u = some f → cb_fiber w = some f → u = w
  kept : ∀ w f, cb_fiber w = some f → Kept fibers pc w f

section kept
variable {fibers fibers' : ℕ → Fiber} {pc : W → Pc} {w : W} {f : ℕ}

/-- A worker that is not busy with its callback fiber keeps it at rest. -/
theorem Kept.resettable (h : Kept fibers pc w f) (hp : (pc w).busyWith ≠ some f) :
    (fibers f).state.Resettable ∧ ∀ u, (pc u).names ≠ some f := by
  cases h with
  | rest hr ha =>
    refine ⟨hr,fun u hu => ?_⟩
    rw [(ha u hu).2] at hp
    exact hp rfl
  | busy hb | left hb => rcases hb with hb | hb <;> exact absurd (by rw [hb]; rfl) hp
  | hold hb => exact absurd (by rw [hb]; rfl) hp

/-- A worker that handles a callback fiber is busy with it. -/
theorem Kept.busy_of_handles (h : Kept fibers pc w f) (hf : (pc w).handles = some f) :
    (pc w).busyWith = some f := by
  cases h with
  | rest hr ha =>
    have := (ha w (Pc.names_of_handles hf)).2
    rw [this] at hf
    cases hf
  | busy hb | left hb => rcases hb with hb | hb <;> rw [hb] <;> rfl
  | hold hb => rw [hb]; rfl

/-- Another worker that mentions a callback fiber does so while its owner handles it. -/
theorem Kept.handled (h : Kept fibers pc w f) {u : W} (hu : (pc u).names = some f)
    (hne : u ≠ w) : (pc w).handles = some f := by
  cases h with
  | rest hr ha => exact absurd (ha u hu).1 hne
  | busy hb ha => exact absurd (ha u hu) hne
  | left hb => rcases hb with hb | hb <;> rw [hb] <;> rfl
  | hold hb => rw [hb]; rfl

variable [DecidableEq W]

/-- Another worker moves, and comes to mention the fiber only when it may. -/
theorem Kept.other (h : Kept fibers pc w f) {u : W} {pc' : Pc} (hne : u ≠ w)
    (hf : fibers' f = fibers f) (hn : pc'.names = some f → (pc u).names = some f ∨
      ¬(fibers f).state.Resettable ∧ (fibers f).state ≠ .EXEC)
    (he : ∀ cb, pc w = .switch f cb ∨ pc w = .running f cb → (fibers f).state = .EXEC) :
    Kept fibers' (Function.update pc u pc') w f := by
  have hw : Function.update pc u pc' w = pc w := Function.update_of_ne hne.symm ..
  have alone : Alone pc w f → (pc'.names = some f → False) →
      Alone (Function.update pc u pc') w f := by
    intro ha hno v hv
    by_cases hvu : v = u
    · subst hvu
      exact (hno (by simpa using hv)).elim
    · exact ha v (by simpa [hvu] using hv)
  cases h with
  | rest hr ha =>
    refine .rest (hf ▸ hr) fun v hv => ?_
    rw [hw]
    by_cases hvu : v = u
    · subst hvu
      rcases hn (by simpa using hv) with hold | ⟨hnot,-⟩
      · exact ha v hold
      · exact absurd hr hnot
    · exact ha v (by simpa [hvu] using hv)
  | busy hp ha =>
    refine .busy (by rwa [hw]) (alone ha fun hv => ?_)
    rcases hn hv with hold | ⟨-,hnot⟩
    · exact hne (ha u hold)
    · exact hnot (he true hp)
  | left hp ha =>
    refine .left (by rwa [hw]) ?_
    rw [hf]
    rcases ha with ha | ha
    · by_cases hno : pc'.names = some f
      · rcases hn hno with hold | ⟨hnot,hexec⟩
        · exact absurd (ha u hold) hne
        · right
          cases hs : (fibers f).state <;> simp_all [State.Resettable]
      · exact .inl (alone ha hno)
    · exact .inr ha
  | hold hp => exact .hold (by rwa [hw])

end kept
section recycling
variable {fibers fibers' : ℕ → Fiber} {pc : W → Pc} {cb_fiber : W → Option ℕ} {w : W} {f : ℕ}

theorem Exclusive.exec [DecidableEq W] (h : Exclusive fibers pc) (cb : Bool)
    (hp : pc w = .switch f cb ∨ pc w = .running f cb) : (fibers f).state = .EXEC := by
  rcases hp with hp | hp
  · have hfits := h.fits w f (by rw [hp]; rfl)
    rw [hp] at hfits
    exact hfits.1
  · have hfits := h.fits w f (by rw [hp]; rfl)
    rw [hp] at hfits
    exact hfits.1

/-- A fiber that a worker handles otherwise is nobody's callback fiber. -/
theorem Recycling.free [DecidableEq W] (h : Recycling fibers pc cb_fiber)
    (he : Exclusive fibers pc) (hw : (pc w).handles = some f) (hb : (pc w).busyWith ≠ some f)
    (u : W) : cb_fiber u ≠ some f := by
  intro hu
  have hkept := h.kept u f hu
  by_cases huw : w = u
  · subst huw
    exact hb (hkept.busy_of_handles hw)
  · exact huw (he.one w u f hw (hkept.handled (Pc.names_of_handles hw) huw))

/-- Callback fibers stay as they are. -/
theorem Recycling.keep (h : Recycling fibers pc cb_fiber)
    (hf : ∀ u f, cb_fiber u = some f → fibers' f = fibers f) :
    Recycling fibers' pc cb_fiber := by
  refine ⟨h.own,h.one,fun u f hu => ?_⟩
  have hsame := hf u f hu
  cases h.kept u f hu with
  | rest hr ha => exact .rest (hsame ▸ hr) ha
  | busy hp ha => exact .busy hp ha
  | left hp ha => exact .left hp (hsame ▸ ha)
  | hold hp => exact .hold hp

variable [DecidableEq W] {pc' : Pc}

theorem Recycling.own_of_update (h : Recycling fibers pc cb_fiber)
    (hnew : ∀ f, pc'.busyWith = some f → cb_fiber w = some f) (u : W) (f : ℕ)
    (hu : (Function.update pc w pc' u).busyWith = some f) : cb_fiber u = some f := by
  by_cases huw : u = w
  · subst huw
    exact hnew f (by simpa using hu)
  · exact h.own u f (by simpa [huw] using hu)

/-- A worker moves that is not busy with its callback fiber. -/
theorem Recycling.goto (h : Recycling fibers pc cb_fiber) (he : Exclusive fibers pc)
    (hold : (pc w).busyWith = none) (hnew : pc'.busyWith = none)
    (hf : ∀ u f, cb_fiber u = some f → fibers' f = fibers f)
    (hn : ∀ u f, cb_fiber u = some f → pc'.names = some f → (pc w).names = some f ∨
      ¬(fibers f).state.Resettable ∧ (fibers f).state ≠ .EXEC) :
    Recycling fibers' (Function.update pc w pc') cb_fiber := by
  refine ⟨h.own_of_update (by simp [hnew]),h.one,fun u f hu => ?_⟩
  by_cases huw : w = u
  · subst huw
    obtain ⟨hr,hno⟩ := (h.kept w f hu).resettable (by simp [hold])
    refine .rest (hf w f hu ▸ hr) fun v hv => ?_
    by_cases hvw : v = w
    · subst hvw
      rcases hn v f hu (by simpa using hv) with hv | ⟨hv,-⟩
      · exact absurd hv (hno v)
      · exact absurd hr hv
    · exact absurd (by simpa [hvw] using hv) (hno v)
  · exact (h.kept u f hu).other huw (hf u f hu) (hn u f hu) fun cb hp => he.exec cb hp

/-- A worker moves to where it mentions no fiber, or the same one. -/
theorem Recycling.pass (h : Recycling fibers pc cb_fiber) (he : Exclusive fibers pc)
    {old : Pc} (hw : pc w = old) (hold : old.busyWith = none) (hnew : pc'.busyWith = none)
    (hf : ∀ u f, cb_fiber u = some f → fibers' f = fibers f)
    (hn : ∀ f, pc'.names = some f → old.names = some f) :
    Recycling fibers' (Function.update pc w pc') cb_fiber :=
  h.goto he (hw ▸ hold) hnew hf fun _ f _ hp => .inl (hw ▸ hn f hp)

/-- A worker goes on with its callback fiber. -/
theorem Recycling.handle (h : Recycling fibers pc cb_fiber) (he : Exclusive fibers pc)
    (hcb : cb_fiber w = some f) (hn : ∀ g, pc'.names = some g → g = f) {x : Fiber}
    (hkept : Kept (Function.update fibers f x) (Function.update pc w pc') w f) :
    Recycling (Function.update fibers f x) (Function.update pc w pc') cb_fiber := by
  refine ⟨h.own_of_update fun g hg => ?_,h.one,fun u g hu => ?_⟩
  · rw [hn g (Pc.names_of_busyWith hg), hcb]
  · by_cases huw : w = u
    · subst huw
      cases hcb.symm.trans hu
      exact hkept
    · have hgf : g ≠ f := by
        rintro rfl
        exact huw (h.one w u g hcb hu)
      exact (h.kept u g hu).other huw (Function.update_of_ne hgf ..)
        (fun hg => absurd (hn g hg) hgf) fun cb hp => he.exec cb hp

/-- A worker gives its callback fiber away. -/
theorem Recycling.drop (h : Recycling fibers pc cb_fiber) (he : Exclusive fibers pc)
    (hcb : cb_fiber w = some f) (hn : ∀ g, pc'.names = some g → g = f)
    (hnew : pc'.busyWith = none) {x : Fiber} :
    Recycling (Function.update fibers f x) (Function.update pc w pc')
      (Function.update cb_fiber w none) := by
  have other : ∀ {u g}, Function.update cb_fiber w none u = some g → u ≠ w ∧ cb_fiber u = some g := by
    intro u g hu
    by_cases huw : u = w
    · subst huw
      simp at hu
    · exact ⟨huw,by simpa [huw] using hu⟩
  refine ⟨fun u g hu => ?_,fun u v g hu hv => h.one u v g (other hu).2 (other hv).2,
    fun u g hu => ?_⟩
  · by_cases huw : u = w
    · subst huw
      simp [hnew] at hu
    · rw [Function.update_of_ne huw] at hu ⊢
      exact h.own u g hu
  · obtain ⟨huw,hu⟩ := other hu
    have hgf : g ≠ f := by
      rintro rfl
      exact huw (h.one u w g hu hcb)
    exact (h.kept u g hu).other huw.symm (Function.update_of_ne hgf ..)
      (fun hg => absurd (hn g hg) hgf) fun cb hp => he.exec cb hp

/-- A worker makes itself a callback fiber. -/
theorem Recycling.create (h : Recycling fibers pc cb_fiber) (he : Exclusive fibers pc)
    (hcb : ∀ u, cb_fiber u ≠ some f) (hn : ∀ u, (pc u).names ≠ some f) :
    Recycling (Function.update fibers f .new) (Function.update pc w (.swapIn f true))
      (Function.update cb_fiber w (some f)) := by
  have other : ∀ {u g}, u ≠ w → Function.update cb_fiber w (some f) u = some g →
      cb_fiber u = some g ∧ g ≠ f := by
    intro u g huw hu
    rw [Function.update_of_ne huw] at hu
    exact ⟨hu,fun hgf => hcb u (hgf ▸ hu)⟩
  refine ⟨fun u g hu => ?_,fun u v g hu hv => ?_,fun u g hu => ?_⟩
  · by_cases huw : u = w
    · subst huw
      rw [Function.update_self] at hu ⊢
      exact hu
    · rw [Function.update_of_ne huw] at hu ⊢
      exact h.own u g hu
  · by_cases huw : u = w <;> by_cases hvw : v = w
    · rw [huw, hvw]
    · subst huw
      rw [Function.update_self] at hu
      exact absurd (Option.some.inj hu).symm (other hvw hv).2
    · subst hvw
      rw [Function.update_self] at hv
      exact absurd (Option.some.inj hv).symm (other huw hu).2
    · exact h.one u v g (other huw hu).1 (other hvw hv).1
  · by_cases huw : w = u
    · subst huw
      rw [Function.update_self] at hu
      cases hu
      refine .rest (by rw [Function.update_self]; exact .inr (.inr rfl)) fun v hv => ?_
      by_cases hvw : v = w
      · exact ⟨hvw,Function.update_self ..⟩
      · exact absurd (by simpa [hvw] using hv) (hn v)
    · obtain ⟨hu,hgf⟩ := other (Ne.symm huw) hu
      refine (h.kept u g hu).other huw (Function.update_of_ne hgf ..) (fun hg => ?_)
        fun cb hp => he.exec cb hp
      exact absurd (Option.some.inj hg).symm hgf

end recycling
/-- No element of the queue refers to a callback fiber whose task has ended, as long as the
fiber has not begun the next one. -/
def NoneEnded (m : Scheduler W E) : Prop :=
  ∀ w, ∀ f ∈ m.cb_fiber w, (m.fibers f).state.Resettable → ∀ t ∈ m.queue, t.item ≠ .fiber f

instance [Fintype W] (m : Scheduler W E) : Decidable (NoneEnded m) :=
  inferInstanceAs (Decidable (∀ _, ∀ _ ∈ _, _ → ∀ _ ∈ _, _))

abbrev Recycled (m : Scheduler W E) : Prop := Recycling m.fibers m.pc m.cb_fiber

namespace Recycled
variable [DecidableEq W] [DecidableEq E] {m : Scheduler W E}

theorem examine (h : Recycled m) (he : Exclusive m.fibers m.pc) (hq : NoneEnded m) {w : W}
    {i : ℕ} {tickle_me : Bool} (hp : m.pc w = .scan i tickle_me) :
    Recycled (m.examine w i tickle_me) := by
  unfold Scheduler.examine
  split
  · exact h.pass he hp rfl rfl (fun _ _ _ => rfl) nofun
  · next t ht =>
    split
    · exact h.pass he hp rfl rfl (fun _ _ _ => rfl) nofun
    split
    · exact h.pass he hp rfl rfl (fun _ _ _ => rfl) nofun
    · next hexec =>
      -- the scan passes over what executes, and what has ended is not on the queue
      refine h.goto he (by rw [hp]; rfl) rfl (fun _ _ _ => rfl) fun u f hu hn => .inr ?_
      cases hi : t.item with
      | cb => simp [hi, Pc.names] at hn
      | fiber g =>
        obtain rfl : g = f := by simpa [hi, Pc.names] using hn
        refine ⟨fun hr => hq u g hu hr t (List.mem_of_getElem? ht) hi,fun hx => hexec ?_⟩
        rw [hi]
        exact hx

omit [DecidableEq E] in
theorem dispatch (h : Recycled m) (he : Exclusive m.fibers m.pc) (hb : FibersExist m) {w : W}
    {item : Item} (hp : m.pc w = .scanned (some item)) : Recycled (m.dispatch w item) := by
  cases item with
  | fiber f =>
    simp only [Scheduler.dispatch]
    split
    · exact h.pass he hp rfl rfl (fun _ _ _ => rfl) fun g hg => by cases hg
    · exact h.pass he hp rfl rfl (fun _ _ _ => rfl) fun g hg => hg
  | cb =>
    simp only [Scheduler.dispatch]
    split
    · next f hf =>
      split
      · obtain ⟨-,hno⟩ := (h.kept w f hf).resettable (by simp [hp, Pc.busyWith])
        refine h.handle he hf (fun g hg => by cases hg; rfl) (.rest ?_ fun u hu => ?_)
        · rw [Function.update_self]
          exact .inr (.inr rfl)
        · by_cases huw : u = w
          · exact ⟨huw,Function.update_self ..⟩
          · exact absurd (by simpa [huw] using hu) (hno u)
      · exact h
    · exact h.create he (fun u hu => lt_irrefl _ (hb.cb_fiber u _ hu))
        fun u hu => lt_irrefl _ (hb.pc u _ hu)

omit [DecidableEq E] in
theorem swapped (h : Recycled m) (he : Exclusive m.fibers m.pc) {w : W} {f : ℕ} {cb : Bool}
    (hp : m.pc w = .swapped f cb) : Recycled (m.swapped w f cb) := by
  have hself : Function.update m.fibers f (m.fibers f) = m.fibers := Function.update_eq_self ..
  cases cb with
  | false =>
    unfold Scheduler.swapped
    split
    · exact h.pass he hp rfl rfl (fun _ _ _ => rfl) fun _ hg => hg
    · exact h.pass he hp rfl rfl (fun _ _ _ => rfl) fun _ hg => by cases hg
    · exact h.pass he hp rfl rfl (fun _ _ _ => rfl) fun _ hg => by cases hg
    all_goals exact h.pass he hp rfl rfl (fun _ _ _ => rfl) fun _ hg => hg
  | true =>
    have hcb := h.own w f (by rw [hp]; rfl)
    have ended : ((m.fibers f).state = .TERM ∨ (m.fibers f).state = .EXCEPT) →
        Recycling (Function.update m.fibers f .new) (Function.update m.pc w .top) m.cb_fiber := by
      intro hs
      have hnew : (Function.update m.fibers f Fiber.new f).state.Resettable := by
        rw [Function.update_self]
        exact .inr (.inr rfl)
      refine h.handle he hcb (fun _ hg => by cases hg) (.rest hnew fun u hu => ?_)
      by_cases huw : u = w
      · subst huw
        simp [Pc.names] at hu
      · rw [Function.update_of_ne huw] at hu
        have hhandled := (h.kept w f hcb).handled hu huw
        cases h.kept w f hcb with
        | rest _ ha => exact absurd (ha u hu).1 huw
        | busy hb => rw [hp] at hb; rcases hb with hb | hb <;> cases hb
        | left _ ha =>
          rcases ha with ha | ha | ha
          · exact absurd (ha u hu) huw
          all_goals rw [ha] at hs; rcases hs with hs | hs <;> cases hs
        | hold hb => rw [hp] at hb; cases hb
    have held : Recycling m.fibers (Function.update m.pc w (.hold f true)) m.cb_fiber := by
      have hheld : Recycling (Function.update m.fibers f (m.fibers f))
          (Function.update m.pc w (.hold f true)) m.cb_fiber :=
        h.handle he hcb (fun g hg => by cases hg; rfl) (.hold (Function.update_self ..))
      rwa [hself] at hheld
    unfold Scheduler.swapped
    split
    · have hgiven : Recycling (Function.update m.fibers f (m.fibers f))
          (Function.update m.pc w (.repush f)) (Function.update m.cb_fiber w none) :=
        h.drop he hcb (fun g hg => by cases hg; rfl) rfl
      rwa [hself] at hgiven
    · next hs => exact ended (.inl hs)
    · next hs => exact ended (.inr hs)
    all_goals exact held

omit [DecidableEq E] in
/-- A worker goes on with a fiber that is nobody's callback fiber. -/
theorem foreign (h : Recycled m) (he : Exclusive m.fibers m.pc) {w : W} {f : ℕ} {old : Pc}
    (hp : m.pc w = old) (hfree : ∀ u, m.cb_fiber u ≠ some f) (hold : old.busyWith = none)
    (pc' : Pc) (hnew : pc'.busyWith = none) (hn : ∀ g, pc'.names = some g → old.names = some g)
    (x : Fiber) :
    Recycling (Function.update m.fibers f x) (Function.update m.pc w pc') m.cb_fiber := by
  refine h.pass he hp hold hnew (fun u g hu => Function.update_of_ne ?_ ..) hn
  rintro rfl
  exact hfree u hu

omit [DecidableEq E] in
/-- A worker that moves is the only one to mention its callback fiber, if it was so before. -/
theorem alone_update {w : W} {f : ℕ} (ha : Alone m.pc w f) (pc' : Pc) :
    Alone (Function.update m.pc w pc') w f := by
  intro u hu
  by_cases huw : u = w
  · exact huw
  · exact ha u (by simpa [huw] using hu)

omit [DecidableEq W] [DecidableEq E] in
/-- A worker that has just entered or runs its callback is alone with its fiber. -/
theorem alone_of_kept (h : Recycled m) {w : W} {f : ℕ} (hcb : m.cb_fiber w = some f)
    (hp : m.pc w = .swapIn f true ∨ m.pc w = .switch f true ∨ m.pc w = .running f true) :
    Alone m.pc w f := by
  cases h.kept w f hcb with
  | rest _ ha => exact fun u hu => (ha u hu).1
  | busy _ ha => exact ha
  | left hl =>
    rcases hp with hp | hp | hp <;> rw [hp] at hl <;> rcases hl with hl | hl <;> cases hl
  | hold hl => rcases hp with hp | hp | hp <;> rw [hp] at hl <;> cases hl

/-- What a step preserves that calls `swapIn` only on fibers left by all other workers. -/
theorem step (h : Recycled m) (he : Exclusive m.fibers m.pc) (hb : FibersExist m)
    (hq : NoneEnded m) {i : Step W E} {s : Scheduler W E} (hg : SwapInAlone m i)
    (hs : Moves m i s) : Recycled s := by
  have own : ∀ {w f pc}, m.pc w = pc → pc.busyWith = some f → m.cb_fiber w = some f :=
    fun hp hf => h.own _ _ (hp ▸ hf)
  have free : ∀ {w f pc}, m.pc w = pc → pc.handles = some f → pc.busyWith = none →
      ∀ u, m.cb_fiber u ≠ some f :=
    fun hp hf hn => h.free he (hp ▸ hf) (by simp [hp, hn])
  cases hs with
  | failed | schedule | tickle | write | drain => exact h
  | create =>
    refine h.keep fun u f hu => Function.update_of_ne ?_ ..
    rintro rfl
    exact lt_irrefl _ (hb.cb_fiber u _ hu)
  | lock _ hp => exact h.pass he hp rfl rfl (fun _ _ _ => rfl) fun _ hg => by cases hg
  | examine _ hp => exact h.examine he hq hp
  | dispatch _ hp => exact h.dispatch he hb hp
  | enterIdle _ hp => exact h.pass he hp rfl rfl (fun _ _ _ => rfl) fun _ hg => by cases hg
  | @swapIn w f cb hp hx =>
    cases cb with
    | false =>
      rw [SwapInAlone, hp] at hg
      refine h.foreign he hp (fun u hu => ?_) rfl (.switch f false) rfl (fun _ hn => hn) _
      by_cases huw : w = u
      · subst huw
        have hno := ((h.kept w f hu).resettable (by simp [hp, Pc.busyWith])).2 w
        exact hno (by rw [hp]; rfl)
      · exact hg hx u ((h.kept u f hu).handled (by rw [hp]; rfl) huw)
    | true =>
      have ha := alone_of_kept h (own hp rfl) (.inl hp)
      exact h.handle he (own hp rfl) (fun _ hn => by cases hn; rfl)
        (.busy (.inl (Function.update_self ..)) (alone_update ha _))
  | @switch w f cb hp =>
    cases cb with
    | false =>
      exact h.foreign he hp (free hp rfl rfl) rfl (.running f false) rfl (fun _ hn => hn) _
    | true =>
      have ha := alone_of_kept h (own hp rfl) (.inr (.inl hp))
      exact h.handle he (own hp rfl) (fun _ hn => by cases hn; rfl)
        (.busy (.inr (Function.update_self ..)) (alone_update ha _))
  | @leave w l f cb hp =>
    cases cb with
    | false =>
      exact h.foreign he hp (free hp rfl rfl) rfl (.swapOut f false) rfl (fun _ hn => hn) _
    | true =>
      have ha := alone_of_kept h (own hp rfl) (.inr (.inr hp))
      exact h.handle he (own hp rfl) (fun _ hn => by cases hn; rfl)
        (.left (.inl (Function.update_self ..)) (.inl (alone_update ha _)))
  | @swapOut w f cb hp =>
    cases cb with
    | false =>
      exact h.foreign he hp (free hp rfl rfl) rfl (.swapped f false) rfl (fun _ hn => hn) _
    | true =>
      refine h.handle he (own hp rfl) (fun _ hn => by cases hn; rfl)
        (.left (.inr (Function.update_self ..)) ?_)
      rw [Function.update_self]
      cases h.kept w f (own hp rfl) with
      | rest _ ha => exact .inl (alone_update (fun u hu => (ha u hu).1) _)
      | busy _ ha => exact .inl (alone_update ha _)
      | left _ ha => exact ha.imp_left (alone_update · _)
      | hold hl => rw [hp] at hl; cases hl
  | swapped hp => exact h.swapped he hp
  | @hold w f cb hp =>
    cases cb with
    | false => exact h.foreign he hp (free hp rfl rfl) rfl .top rfl (fun _ hn => by cases hn) _
    | true => exact h.drop he (own hp rfl) (fun _ hn => by cases hn) rfl
  | repush _ hp => exact h.pass he hp rfl rfl (fun _ _ _ => rfl) fun _ hg => by cases hg
  | stopping hp => exact h.pass he hp rfl rfl (fun _ _ _ => rfl) fun _ hg => by cases hg
  | epollWait hp => exact h.pass he hp rfl rfl (fun _ _ _ => rfl) fun _ hg => by cases hg
  | leaveIdle hp => exact h.pass he hp rfl rfl (fun _ _ _ => rfl) fun _ hg => by cases hg

end Recycled

end Scheduler
end CoroutineWebserve
