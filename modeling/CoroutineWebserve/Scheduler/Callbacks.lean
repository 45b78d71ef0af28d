import CoroutineWebserve.Scheduler.Recycling
import CoroutineWebserve.Scheduler.Tasks

/-!
# Every callback that is taken is started once

A worker takes a callback off the queue, puts it into its callback fiber and enters that
fiber. On this way the callback is in the worker's hands alone, as long as the fiber is.
-/
namespace CoroutineWebserve.Scheduler
variable {W E : Type*}

/-- Where a callback is that a worker has taken and that has not begun: in its `ft`, or in
`m_cb` of its callback fiber. -/
inductive Way
  | none
  | hand
  | fiber (f : ℕ)
deriving DecidableEq

def Pc.way : Pc → Way
  | .scanned (some .cb) => .hand
  | .swapIn f true | .switch f true => .fiber f
  | .top | .scan .. | .scanned none | .scanned (some (.fiber _)) | .swapIn _ false
  | .switch _ false | .running .. | .swapOut .. | .swapped .. | .hold .. | .repush _ | .stopping
  | .epollWait | .woken => .none

/-- A worker is alone with the fiber in which its callback has not begun. -/
theorem Recycled.alone_of_way {m : Scheduler W E} (h : Recycled m) {w : W} {f : ℕ}
    (hw : (m.pc w).way = .fiber f) : Alone m.pc w f ∧ (m.pc w).busyWith = some f := by
  have hp : m.pc w = .swapIn f true ∨ m.pc w = .switch f true := by
    cases hpc : m.pc w with
    | swapIn g cb | switch g cb => cases cb <;> simp_all [Pc.way]
    | scanned item =>
      rcases item with _ | _ | _ <;> simp_all [Pc.way]
    | _ => simp_all [Pc.way]
  have hbusy : (m.pc w).busyWith = some f := by rcases hp with hp | hp <;> rw [hp] <;> rfl
  exact ⟨h.alone_of_kept (h.own w f hbusy) (hp.imp_right .inl),hbusy⟩

end Scheduler

namespace Tasks
open Scheduler
variable {W E : Type*}

/-- The number of the callback that a worker has taken and that has not begun. -/
def onTheWay (m : Tasks W E) (w : W) : Option ℕ :=
  match (m.pc w).way with
  | .none => none
  | .hand => m.hand w
  | .fiber f => m.callback f

/-- A callback that a worker has taken is on its way, or it has been started once. -/
structure Starting (m : Tasks W E) : Prop where
  bound : ∀ f id, m.callback f = some id → f < m.created
  fresh : ∀ f id, (m.fibers f).ctx = .fresh → m.callback f = some id →
    ∃ w, (m.pc w).way = .fiber f
  ready : ∀ w f, (m.pc w).way = .fiber f →
    (m.fibers f).ctx = .fresh ∧ ∃ id, m.callback f = some id
  inHand : ∀ w, (m.pc w).way = .hand → ∃ id, m.hand w = some id
  taken : ∀ w id, m.onTheWay w = some id → ∃ t, (w,id,⟨.cb,t⟩) ∈ m.dequeued
  count : ∀ w id t, (w,id,⟨.cb,t⟩) ∈ m.dequeued →
    m.started.count id = if m.onTheWay w = some id then 0 else 1
  only : ∀ id ∈ m.started, ∃ w t, (w,id,⟨.cb,t⟩) ∈ m.dequeued

section starting
variable {m m' : Tasks W E}

theorem onTheWay_of_none {w : W} (hw : (m.pc w).way = .none) : m.onTheWay w = none := by
  rw [onTheWay, hw]

theorem onTheWay_congr (hway : ∀ w, (m'.pc w).way = (m.pc w).way) (hhand : m'.hand = m.hand)
    (hcb : ∀ w f, (m.pc w).way = .fiber f → m'.callback f = m.callback f) (w : W) :
    m'.onTheWay w = m.onTheWay w := by
  rw [onTheWay, onTheWay, hway, hhand]
  cases hw : (m.pc w).way with
  | fiber f => exact hcb w f hw
  | none | hand => rfl

/-- Nothing happens to a callback that is on its way; callbacks that have begun may be
forgotten, and their fibers reset. -/
theorem Starting.keep (h : Starting m) (hway : ∀ w, (m'.pc w).way = (m.pc w).way)
    (hcreated : m.created ≤ m'.created) (hhand : m'.hand = m.hand)
    (hcallback : ∀ f, m'.callback f = none ∨ m'.callback f = m.callback f)
    (hcb : ∀ w f, (m.pc w).way = .fiber f → m'.callback f = m.callback f)
    (hctx : ∀ w f, (m.pc w).way = .fiber f → (m'.fibers f).ctx = (m.fibers f).ctx)
    (hfresh : ∀ f, (m'.fibers f).ctx = .fresh → (m.fibers f).ctx = .fresh ∨ m'.callback f = none)
    (hdequeued : m'.dequeued = m.dequeued) (hstarted : m'.started = m.started) :
    Starting m' where
  bound f id hf := by
    rcases hcallback f with hnone | hsame
    · rw [hnone] at hf
      cases hf
    · exact lt_of_lt_of_le (h.bound f id (hsame ▸ hf)) hcreated
  fresh f id hf hid := by
    simp only [hway]
    rcases hcallback f with hnone | hsame
    · rw [hnone] at hid
      cases hid
    · rcases hfresh f hf with hold | hnone
      · exact h.fresh f id hold (hsame ▸ hid)
      · rw [hnone] at hid
        cases hid
  ready w f hw := by
    rw [hway] at hw
    rw [hcb w f hw, hctx w f hw]
    exact h.ready w f hw
  inHand w hw := by
    rw [hway] at hw
    rw [hhand]
    exact h.inHand w hw
  taken w id hid := by
    rw [onTheWay_congr hway hhand hcb] at hid
    rw [hdequeued]
    exact h.taken w id hid
  count w id t hd := by
    rw [hdequeued] at hd
    rw [hstarted, onTheWay_congr hway hhand hcb]
    exact h.count w id t hd
  only id hid := by
    rw [hdequeued]
    exact h.only id (hstarted ▸ hid)

theorem Numbered.not_dequeued (h : Numbered m) {i : ℕ} {e : ℕ × Scheduler.Task W}
    (he : m.entries[i]? = some e) : ∀ d ∈ m.dequeued, d.2.1 ≠ e.1 := by
  have hall : ((m.entries++m.dequeued.map Prod.snd).map Prod.fst).Nodup := by
    rw [← (h.perm.map Prod.fst).nodup_iff, h.serials]
    exact List.nodup_range
  rw [List.map_append, List.map_map, List.nodup_append] at hall
  intro d hd heq
  exact hall.2.2 e.1 (List.mem_map_of_mem (List.mem_of_getElem? he)) d.2.1
    (List.mem_map.mpr ⟨d,hd,rfl⟩) heq.symm

/-- A number is taken once. -/
theorem Numbered.unique (h : Numbered m) {d d' : W × ℕ × Scheduler.Task W}
    (hd : d ∈ m.dequeued) (hd' : d' ∈ m.dequeued) (he : d.2.1 = d'.2.1) : d = d' :=
  List.inj_on_of_nodup_map h.conserved.once hd hd' he

/-- Workers at different points of the way are different. -/
theorem ne_of_way {pc : W → Pc} {u w : W} {x y : Way} (hu : (pc u).way = x) (hw : (pc w).way = y)
    (hxy : x ≠ y) : u ≠ w := by
  rintro rfl
  exact hxy (hu.symm.trans hw)

variable [DecidableEq W]

/-- The way of a worker that moves, seen from the others. -/
theorem way_update {pc : W → Pc} {w u : W} (hu : u ≠ w) (pc' : Pc) :
    (Function.update pc w pc' u).way = (pc u).way := by
  rw [Function.update_of_ne hu]

theorem onTheWay_update {w u : W} (hu : u ≠ w) {pc' : Pc} (hpc : m'.pc = Function.update m.pc w pc')
    (hhand : m'.hand u = m.hand u)
    (hcb : ∀ f, (m.pc u).way = .fiber f → m'.callback f = m.callback f) :
    m'.onTheWay u = m.onTheWay u := by
  rw [onTheWay, onTheWay, hpc, way_update hu, hhand]
  cases hw : (m.pc u).way with
  | fiber f => exact hcb f hw
  | none | hand => rfl

/-- A worker takes a task off the queue. -/
theorem Starting.take (h : Starting m) (hn : Numbered m) {s : Scheduler W E} {w : W} {i : ℕ}
    {t : Scheduler.Task W} (ht : m.queue[i]? = some t) (hw : (m.pc w).way = .none)
    (hpc : s.pc = Function.update m.pc w (.scanned (some t.item))) (hf : s.fibers = m.fibers)
    (hcreated : s.created = m.created) : Starting (m.take s w i) := by
  obtain ⟨⟨k,t⟩,he,rfl⟩ : ∃ e, m.entries[i]? = some e ∧ e.2 = t := by
    rw [← hn.queue, List.getElem?_map, Option.map_eq_some_iff] at ht
    exact ht
  have hnew : ∀ d ∈ m.dequeued, d.2.1 ≠ k := hn.not_dequeued he
  have hdeq : (m.take s w i).dequeued = m.dequeued++[(w,k,t)] := by
    simp [Tasks.take, he]
  have hhand : (m.take s w i).hand = Function.update m.hand w (some k) := by
    simp [Tasks.take, he]
  have hway : ∀ u, u ≠ w → ((m.take s w i).pc u).way = (m.pc u).way := fun u hu => by
    show (s.pc u).way = _
    rw [hpc, way_update hu]
  have hself : ((m.take s w i).pc w).way = (Pc.scanned (some t.item)).way := by
    show (s.pc w).way = _
    rw [hpc, Function.update_self]
  have hother : ∀ u, u ≠ w → (m.take s w i).onTheWay u = m.onTheWay u := fun u hu =>
    onTheWay_update hu hpc (by rw [hhand, Function.update_of_ne hu]) fun f _ => rfl
  have hfiber : ∀ u f, ((m.take s w i).pc u).way = .fiber f → (m.pc u).way = .fiber f := by
    intro u f hu
    by_cases huw : u = w
    · subst huw
      rw [hself] at hu
      cases hi : t.item <;> rw [hi] at hu <;> cases hu
    · rwa [hway u huw] at hu
  have honly : ∀ id ∈ m.started, ∃ u t', (u,id,⟨.cb,t'⟩) ∈ (m.take s w i).dequeued := by
    intro id hid
    obtain ⟨u,t',hd⟩ := h.only id hid
    exact ⟨u,t',by rw [hdeq]; exact List.mem_append_left _ hd⟩
  have hwself : ∀ id, (m.take s w i).onTheWay w = some id → id = k ∧ t.item = .cb := by
    intro id hid
    rw [onTheWay, hself] at hid
    cases hi : t.item with
    | fiber f => rw [hi] at hid; cases hid
    | cb =>
      rw [hi, hhand] at hid
      simp only [Pc.way, Function.update_self] at hid
      exact ⟨(Option.some.inj hid).symm,rfl⟩
  refine ⟨fun f id hid => hcreated ▸ h.bound f id hid,fun f id hctx hid => ?_,fun u f hu => ?_,
    fun u hu => ?_,fun u id hid => ?_,fun u id t' hd => ?_,honly⟩
  · obtain ⟨u,hu⟩ := h.fresh f id (by rw [← hf]; exact hctx) hid
    exact ⟨u,by rw [hway u (ne_of_way hu hw (by simp)), hu]⟩
  · obtain ⟨hctx,hid⟩ := h.ready u f (hfiber u f hu)
    exact ⟨by show (s.fibers f).ctx = _; rw [hf, hctx],hid⟩
  · rw [hhand]
    by_cases huw : u = w
    · exact ⟨k,by rw [huw, Function.update_self]⟩
    · rw [Function.update_of_ne huw]
      exact h.inHand u (by rwa [hway u huw] at hu)
  · rw [hdeq]
    by_cases huw : u = w
    · subst huw
      obtain ⟨rfl,hi⟩ := hwself id hid
      refine ⟨t.thread,List.mem_append_right _ ?_⟩
      rw [← hi]
      exact List.mem_singleton_self _
    · obtain ⟨t',hd⟩ := h.taken u id (hother u huw ▸ hid)
      exact ⟨t',List.mem_append_left _ hd⟩
  · show m.started.count id = _
    rw [hdeq] at hd
    rcases List.mem_append.mp hd with hold | hd
    · rw [h.count u id t' hold]
      by_cases huw : u = w
      · subst huw
        have hne : (m.take s u i).onTheWay u ≠ some id := fun hid =>
          hnew (u,id,⟨.cb,t'⟩) hold (hwself id hid).1
        rw [if_neg hne, onTheWay_of_none hw, if_neg (by simp)]
      · rw [hother u huw]
    · obtain ⟨rfl,rfl,rfl⟩ : u = w ∧ id = k ∧ (⟨.cb,t'⟩ : Scheduler.Task W) = t := by
        simpa using hd
      have hway' : (m.take s u i).onTheWay u = some id := by
        rw [onTheWay, hself]
        simp [Pc.way, hhand]
      rw [hway', if_pos rfl, List.count_eq_zero]
      intro hid
      obtain ⟨v,t'',hold⟩ := h.only id hid
      exact hnew _ hold rfl

/-- A worker puts the callback in its hand into a fiber. -/
theorem Starting.begin (h : Starting m) {s : Scheduler W E} {w : W} {f : ℕ}
    (hw : (m.pc w).way = .hand) (hno : ∀ u, (m.pc u).way ≠ .fiber f)
    (hpc : s.pc = Function.update m.pc w (.swapIn f true))
    (hf : s.fibers = Function.update m.fibers f .new) (hcreated : m.created ≤ s.created)
    (hlt : f < s.created) : Starting { m.setCallback f (m.hand w) with toScheduler := s } := by
  have hself : (s.pc w).way = .fiber f := by
    rw [hpc, Function.update_self]
    rfl
  have hother : ∀ u, u ≠ w → (s.pc u).way = (m.pc u).way := fun u hu => by
    rw [hpc, way_update hu]
  have hway : ∀ u, onTheWay { m.setCallback f (m.hand w) with toScheduler := s } u =
      m.onTheWay u := by
    intro u
    by_cases huw : u = w
    · subst huw
      rw [onTheWay, onTheWay, hw]
      simp [hself, setCallback]
    · refine onTheWay_update huw hpc rfl fun g hg => Function.update_of_ne ?_ ..
      rintro rfl
      exact hno u hg
  have hfiber : ∀ u g, (s.pc u).way = .fiber g → u = w ∧ g = f ∨ (m.pc u).way = .fiber g ∧ g ≠ f := by
    intro u g hu
    by_cases huw : u = w
    · subst huw
      rw [hself] at hu
      cases hu
      exact .inl ⟨rfl,rfl⟩
    · rw [hother u huw] at hu
      refine .inr ⟨hu,?_⟩
      rintro rfl
      exact hno u hu
  refine ⟨fun g id hid => ?_,fun g id hctx hid => ?_,fun u g hu => ?_,fun u hu => ?_,
    fun u id hid => h.taken u id (hway u ▸ hid),fun u id t hd => ?_,h.only⟩
  · by_cases hgf : g = f
    · exact hgf ▸ hlt
    · exact lt_of_lt_of_le (h.bound g id (by simpa [setCallback, hgf] using hid)) hcreated
  · by_cases hgf : g = f
    · exact ⟨w,hgf ▸ hself⟩
    · obtain ⟨u,hu⟩ := h.fresh g id (by simpa [hf, hgf] using hctx)
        (by simpa [setCallback, hgf] using hid)
      exact ⟨u,(hother u (ne_of_way hu hw (by simp))).trans hu⟩
  · rcases hfiber u g hu with ⟨rfl,rfl⟩ | ⟨hu,hgf⟩
    · obtain ⟨id,hid⟩ := h.inHand u hw
      refine ⟨?_,id,?_⟩
      · show (s.fibers g).ctx = _
        rw [hf, Function.update_self]
        rfl
      · simpa [setCallback] using hid
    · obtain ⟨hctx,id,hid⟩ := h.ready u g hu
      refine ⟨?_,id,?_⟩
      · show (s.fibers g).ctx = _
        rw [hf, Function.update_of_ne hgf, hctx]
      · simpa [setCallback, hgf] using hid
  · have huw : u ≠ w := ne_of_way (show (s.pc u).way = _ from hu) hself (by simp)
    exact h.inHand u ((hother u huw).symm.trans hu)
  · rw [hway]
    exact h.count u id t hd

/-- The callback in a worker's fiber begins. -/
theorem Starting.start (h : Starting m) (hn : Numbered m) {s : Scheduler W E} {w : W} {f : ℕ}
    {pc' : Pc} (hw : (m.pc w).way = .fiber f) (hno : ∀ u, (m.pc u).way = .fiber f → u = w)
    (hpc : s.pc = Function.update m.pc w pc') (hpc' : pc'.way = .none) {x : Fiber}
    (hf : s.fibers = Function.update m.fibers f x) (hx : x.ctx ≠ .fresh)
    (hcreated : s.created = m.created) : Starting { m.start f with toScheduler := s } := by
  obtain ⟨hctx,k,hk⟩ := h.ready w f hw
  have hstart : m.start f = { m with started := m.started++[k] } := by
    simp [Tasks.start, hctx, hk]
  rw [hstart]
  have hself : (s.pc w).way = .none := by
    rw [hpc, Function.update_self, hpc']
  have hother : ∀ u, u ≠ w → (s.pc u).way = (m.pc u).way := fun u hu => by
    rw [hpc, way_update hu]
  have hwk : m.onTheWay w = some k := by rw [onTheWay, hw, ← hk]
  obtain ⟨t,hd⟩ := h.taken w k hwk
  have hwself : onTheWay { m with toScheduler := s, started := m.started++[k] } w = none :=
    onTheWay_of_none hself
  have hwother : ∀ u, u ≠ w →
      onTheWay { m with toScheduler := s, started := m.started++[k] } u = m.onTheWay u :=
    fun u hu => onTheWay_update hu hpc rfl fun _ _ => rfl
  have hold : ∀ u v, (s.pc u).way = v → v ≠ .none → u ≠ w ∧ (m.pc u).way = v := by
    rintro u v hu hv
    have huw := ne_of_way hu hself hv
    exact ⟨huw,(hother u huw).symm.trans hu⟩
  refine ⟨fun g id hid => hcreated ▸ h.bound g id hid,fun g id hfresh hid => ?_,fun u g hu => ?_,
    fun u hu => h.inHand u (hold u _ hu (by simp)).2,fun u id hid => ?_,fun u id t' hd' => ?_,
    fun id hid => ?_⟩
  · have hgf : g ≠ f := by
      rintro rfl
      have hfresh : (s.fibers g).ctx = .fresh := hfresh
      rw [hf, Function.update_self] at hfresh
      exact hx hfresh
    obtain ⟨u,hu⟩ := h.fresh g id (by simpa [hf, hgf] using hfresh) hid
    have huw : u ≠ w := ne_of_way hu hw fun heq => hgf (Way.fiber.inj heq)
    exact ⟨u,(hother u huw).trans hu⟩
  · obtain ⟨huw,hu⟩ := hold u _ hu (by simp)
    have hgf : g ≠ f := by
      rintro rfl
      exact huw (hno u hu)
    obtain ⟨hctx,hid⟩ := h.ready u g hu
    refine ⟨?_,hid⟩
    show (s.fibers g).ctx = _
    rw [hf, Function.update_of_ne hgf, hctx]
  · have huw : u ≠ w := by
      rintro rfl
      rw [hwself] at hid
      cases hid
    exact h.taken u id (hwother u huw ▸ hid)
  · show (m.started++[k]).count id = _
    have hcount := h.count u id t' hd'
    by_cases huw : u = w
    · subst huw
      rw [hwself, if_neg (by simp), List.count_append, hcount, hwk]
      by_cases hik : k = id
      · rw [hik, if_pos rfl, List.count_singleton_self]
      · rw [if_neg (fun he => hik (Option.some.inj he)), List.count_eq_zero.mpr]
        simpa using Ne.symm hik
    · have hik : id ∉ [k] := by
        rw [List.mem_singleton]
        rintro rfl
        exact huw (congrArg Prod.fst (hn.unique hd' hd rfl))
      rw [hwother u huw, List.count_append, hcount, List.count_eq_zero.mpr hik, Nat.add_zero]
  · rcases List.mem_append.mp hid with hid | hid
    · exact h.only id hid
    · cases List.mem_singleton.mp hid
      exact ⟨w,t,hd⟩

theorem way_goto {pc : W → Pc} {w : W} {old pc' : Pc} (hw : pc w = old)
    (hway : pc'.way = old.way) (u : W) : (Function.update pc w pc' u).way = (pc u).way := by
  by_cases huw : u = w
  · subst huw
    rw [Function.update_self, hway, hw]
  · exact way_update huw pc'

omit [DecidableEq W] in
/-- A fiber changes that holds no callback on its way, or changes only its state. -/
theorem Starting.set (h : Starting m) {s : Scheduler W E} {f : ℕ} {x : Fiber}
    (hcreated : m.created ≤ s.created) (hway : ∀ u, (s.pc u).way = (m.pc u).way)
    (hf : s.fibers = Function.update m.fibers f x)
    (hno : ∀ u, (m.pc u).way = .fiber f → x.ctx = (m.fibers f).ctx)
    (hx : x.ctx = .fresh → (m.fibers f).ctx = .fresh ∨ m.callback f = none) :
    Starting { m with toScheduler := s } := by
  refine h.keep hway hcreated rfl (fun _ => .inr rfl) (fun _ _ _ => rfl) (fun u g hg => ?_)
    (fun g hg => ?_) rfl rfl
  · show (s.fibers g).ctx = _
    rw [hf]
    by_cases hgf : g = f
    · subst hgf
      rw [Function.update_self]
      exact hno u hg
    · rw [Function.update_of_ne hgf]
  · have hg : (s.fibers g).ctx = .fresh := hg
    rw [hf] at hg
    by_cases hgf : g = f
    · subst hgf
      rw [Function.update_self] at hg
      exact hx hg
    · rw [Function.update_of_ne hgf] at hg
      exact .inl hg

omit [DecidableEq W] in
/-- No fiber changes. -/
theorem Starting.still (h : Starting m) {s : Scheduler W E} (hcreated : m.created ≤ s.created)
    (hway : ∀ u, (s.pc u).way = (m.pc u).way) (hf : s.fibers = m.fibers) :
    Starting { m with toScheduler := s } :=
  h.set (f := 0) (x := m.fibers 0) hcreated hway (by rw [hf, Function.update_eq_self])
    (fun _ _ => rfl) .inl

omit [DecidableEq W] in
/-- A callback that has begun is forgotten, and its fiber changes. -/
theorem Starting.forget (h : Starting m) {s : Scheduler W E} {f : ℕ} {x : Fiber}
    (hcreated : m.created ≤ s.created) (hway : ∀ u, (s.pc u).way = (m.pc u).way)
    (hf : s.fibers = Function.update m.fibers f x) (hno : ∀ u, (m.pc u).way ≠ .fiber f) :
    Starting { m.setCallback f none with toScheduler := s } := by
  have hother : ∀ g, g ≠ f → s.fibers g = m.fibers g := fun g hg => by
    rw [hf, Function.update_of_ne hg]
  refine h.keep hway hcreated rfl (fun g => ?_) (fun u g hg => Function.update_of_ne ?_ ..)
    (fun u g hg => ?_) (fun g hg => ?_) rfl rfl
  · by_cases hgf : g = f
    · exact .inl (by simp [setCallback, hgf])
    · exact .inr (by simp [setCallback, hgf])
  · rintro rfl
    exact hno u hg
  · have hgf : g ≠ f := by
      rintro rfl
      exact hno u hg
    exact congrArg Fiber.ctx (hother g hgf)
  · by_cases hgf : g = f
    · exact .inr (by simp [setCallback, hgf])
    · exact .inl (congrArg Fiber.ctx (hother g hgf) ▸ hg)

variable [DecidableEq E]

theorem Starting.examine (h : Starting m) (hn : Numbered m) {w : W} {i : ℕ} {tickle_me : Bool}
    (hp : m.pc w = .scan i tickle_me) :
    Starting (m.follow (m.toScheduler.examine w i tickle_me) (.next w)) := by
  have kept : ∀ s : Scheduler W E, s.queue = m.queue → m.created ≤ s.created →
      (∀ u, (s.pc u).way = (m.pc u).way) → s.fibers = m.fibers → Starting
        (if s.queue.length < m.queue.length then m.take s w i else { m with toScheduler := s }) := by
    intro s hq hcreated hway hf
    rw [if_neg (by rw [hq]; exact lt_irrefl _)]
    exact h.still hcreated hway hf
  simp only [Tasks.follow, hp]
  unfold Scheduler.examine
  split
  · exact kept _ rfl le_rfl (way_goto hp rfl) rfl
  · next t ht =>
    have hi := (List.getElem?_eq_some_iff.mp ht).1
    split
    · exact kept _ rfl le_rfl (way_goto hp rfl) rfl
    split
    · exact kept _ rfl le_rfl (way_goto hp rfl) rfl
    · have hlt : (m.queue.eraseIdx i).length < m.queue.length := by
        rw [List.length_eraseIdx_of_lt hi]
        omega
      refine (if_pos hlt).symm ▸ ?_
      exact h.take hn ht (by rw [hp]; rfl) rfl rfl rfl

omit [DecidableEq E] in
theorem Starting.dispatch (h : Starting m) (hb : FibersExist m.toScheduler)
    (hr : Recycled m.toScheduler) {w : W} {item : Item} (hp : m.pc w = .scanned (some item)) :
    Starting (m.follow (m.toScheduler.dispatch w item) (.next w)) := by
  cases item with
  | fiber f =>
    simp only [Tasks.follow, hp, Scheduler.dispatch]
    split
    · exact h.still le_rfl (way_goto hp rfl) rfl
    · exact h.still le_rfl (way_goto hp rfl) rfl
  | cb =>
    have hhand : (m.pc w).way = .hand := by rw [hp]; rfl
    simp only [Tasks.follow, hp, Scheduler.dispatch]
    cases hcb : m.cb_fiber w with
    | some f =>
      have hno : ∀ u, (m.pc u).way ≠ .fiber f := fun u hu => by
        obtain rfl := hr.one u w f (hr.own u f (hr.alone_of_way hu).2) hcb
        rw [hhand] at hu
        cases hu
      have hres := ((hr.kept w f hcb).resettable (by simp [hp, Pc.busyWith])).1
      simp only [if_pos hres, Scheduler.goto, Function.update_self]
      exact h.begin hhand hno rfl rfl le_rfl (hb.cb_fiber w f hcb)
    | none =>
      have hno : ∀ u, (m.pc u).way ≠ .fiber m.created := fun u hu =>
        lt_irrefl _ (hb.pc u _ (Pc.names_of_busyWith (hr.alone_of_way hu).2))
      simp only [Scheduler.goto, Function.update_self]
      exact h.begin hhand hno rfl rfl (Nat.le_succ _) (Nat.lt_succ_self _)

omit [DecidableEq E] in
theorem Starting.swapped (h : Starting m) (hr : Recycled m.toScheduler) {w : W} {f : ℕ}
    {cb : Bool} (hp : m.pc w = .swapped f cb) :
    Starting (m.follow (m.toScheduler.swapped w f cb) (.next w)) := by
  have hno : ∀ u, (m.pc u).way ≠ .fiber f := fun u hu => by
    obtain rfl := (hr.alone_of_way hu).1 w (by rw [hp]; rfl)
    rw [hp] at hu
    cases hu
  simp only [Tasks.follow, hp]
  unfold Scheduler.swapped
  cases hs : (m.fibers f).state with
  | READY => cases cb <;> exact h.still le_rfl (way_goto hp rfl) rfl
  | TERM | EXCEPT =>
    cases cb with
    | false => exact h.still le_rfl (way_goto hp rfl) rfl
    | true => exact h.forget le_rfl (way_goto hp rfl) rfl hno
  | INIT | HOLD | EXEC => cases cb <;> exact h.still le_rfl (way_goto hp rfl) rfl

/-- What a statement of the workers preserves. -/
theorem Starting.run (h : Starting m) (hn : Numbered m) (hb : FibersExist m.toScheduler)
    (hr : Recycled m.toScheduler) {i : Scheduler.Step W E} {s : Scheduler W E}
    (hf : s.failed = false) (hs : Moves m.toScheduler i s) : Starting (m.follow s i) := by
  -- a worker that mentions a fiber otherwise than on the way of its callback
  have hno : ∀ {w f pc}, m.pc w = pc → pc.names = some f → pc.way = .none →
      ∀ u, (m.pc u).way ≠ .fiber f := by
    rintro w f _ rfl hf hw u hu
    obtain rfl := (hr.alone_of_way hu).1 w hf
    rw [hw] at hu
    cases hu
  cases hs with
  | failed => cases hf
  | schedule | tickle | write | drain => exact h.still le_rfl (fun _ => rfl) rfl
  | create =>
    refine h.set (Nat.le_succ _) (fun _ => rfl) rfl (fun u hu => ?_) fun _ => .inr ?_
    · exact absurd (hb.pc u _ (Pc.names_of_busyWith (hr.alone_of_way hu).2)) (lt_irrefl _)
    · cases hid : m.callback m.created with
      | none => rfl
      | some id => exact absurd (h.bound _ id hid) (lt_irrefl _)
  | lock _ hp | enterIdle _ hp | stopping hp | epollWait hp | leaveIdle hp =>
    simp only [Tasks.follow, hp]
    exact h.still le_rfl (way_goto hp rfl) rfl
  | examine _ hp => exact h.examine hn hp
  | dispatch _ hp => exact h.dispatch hb hr hp
  | @swapIn w f cb hp =>
    simp only [Tasks.follow, hp]
    exact h.set le_rfl (way_goto hp (by cases cb <;> rfl)) rfl (fun _ _ => rfl) .inl
  | @switch w f cb hp =>
    simp only [Tasks.follow, hp]
    cases cb with
    | true =>
      have hw : (m.pc w).way = .fiber f := by rw [hp]; rfl
      refine h.start hn hw (fun u hu => ?_) rfl rfl rfl (by simp) rfl
      exact ((hr.alone_of_way hu).1 w (by rw [hp]; rfl)).symm
    | false =>
      have hfree := hno hp rfl rfl
      have hstart : m.start f = m := by
        rw [Tasks.start]
        split
        · next hfresh =>
          cases hid : m.callback f with
          | none => simp
          | some id =>
            obtain ⟨u,hu⟩ := h.fresh f id hfresh hid
            exact absurd hu (hfree u)
        · rfl
      rw [hstart]
      exact h.set le_rfl (way_goto hp rfl) rfl (fun u hu => absurd hu (hfree u)) fun hx => by
        simp at hx
  | @leave w l f cb hp =>
    have hfree := hno hp rfl rfl
    cases l with
    | term =>
      simp only [Tasks.follow, hp]
      exact h.forget le_rfl (way_goto hp rfl) rfl hfree
    | YieldToHold | YieldToReady | except =>
      exact h.set le_rfl (way_goto hp rfl) rfl (fun _ _ => rfl) .inl
  | swapOut hp =>
    have hfree := hno hp rfl rfl
    simp only [Tasks.follow, hp]
    exact h.set le_rfl (way_goto hp rfl) rfl (fun u hu => absurd hu (hfree u)) fun hx => by
      simp at hx
  | swapped hp => exact h.swapped hr hp
  | @hold w f cb hp =>
    simp only [Tasks.follow, hp]
    cases cb <;> exact h.set le_rfl (way_goto hp rfl) rfl (fun _ _ => rfl) .inl
  | repush _ hp =>
    simp only [Tasks.follow, hp]
    exact h.keep (way_goto hp rfl) le_rfl rfl (fun _ => .inr rfl) (fun _ _ _ => rfl)
      (fun _ _ _ => rfl) (fun _ hg => .inl hg) rfl rfl

end starting

/-! ### Runs -/

/-- All that holds in every state while `swapIn` is called only on fibers left by the other
workers, and no fiber that has ended is on the queue. -/
structure Tidy (m : Tasks W E) : Prop where
  numbered : Numbered m
  vars : ∀ x, m.FiberExists (m.vars x)
  exist : Scheduler.FibersExist m.toScheduler
  exclusive : Exclusive m.fibers m.pc
  recycled : Recycled m.toScheduler
  starting : Starting m

theorem tidy_initial : Tidy (initial : Tasks W E) where
  numbered := numbered_initial
  vars _ := nofun
  exist := ⟨nofun,nofun,nofun⟩
  exclusive := ⟨nofun,nofun,fun _ _ => Fiber.new_atRest⟩
  recycled := ⟨nofun,nofun,nofun⟩
  starting := ⟨nofun,nofun,nofun,nofun,nofun,nofun,nofun⟩

section tidy
variable [DecidableEq W] [DecidableEq E] {m : Tasks W E}

omit [DecidableEq W] [DecidableEq E] in
theorem FiberExists.mono {item : Option Item} (h : m.FiberExists item)
    {m' : Tasks W E} (hle : m.created ≤ m'.created) : m'.FiberExists item :=
  fun it hit => (h it hit).mono hle

theorem Tidy.scheduleNoLock (h : Tidy m) (a : Actor W E) {fc : FiberOrCb} (thread : Pin W)
    (hfc : m.FiberExists (fc.construct m.vars).1) : Tidy (m.scheduleNoLock a fc thread) := by
  have hvars : ∀ x, m.FiberExists ((fc.construct m.vars).2 x) := by
    intro x
    cases fc with
    | value item => exact h.vars x
    | pointer y =>
      by_cases hxy : x = y
      · simp [FiberOrCb.construct, hxy, FiberExists]
      · simpa [FiberOrCb.construct, hxy] using h.vars x
  have hn := h.numbered.scheduleNoLock a fc thread
  revert hn
  unfold Tasks.scheduleNoLock
  cases hc : fc.construct m.vars with
  | mk item vars =>
    rw [hc] at hvars hfc
    obtain ⟨hbound,hfresh,hready,hhand,htaken,hcount,honly⟩ := h.starting
    intro hn
    cases item with
    | none =>
      exact ⟨hn,hvars,h.exist,h.exclusive,h.recycled,
        ⟨hbound,hfresh,hready,hhand,htaken,hcount,honly⟩⟩
    | some item =>
      exact ⟨hn,hvars,h.exist.push (hfc item rfl),h.exclusive,h.recycled,
        ⟨hbound,hfresh,hready,hhand,htaken,hcount,honly⟩⟩

theorem Tidy.scheduleRange (h : Tidy m) (a : Actor W E) (range : List ℕ) :
    Tidy (m.scheduleRange a range) := by
  induction range generalizing m with
  | nil => exact h
  | cons x range ih => exact ih (h.scheduleNoLock a .any (h.vars x))

omit [DecidableEq E] in
theorem follow_toScheduler (m : Tasks W E) (s : Scheduler W E) (i : Scheduler.Step W E) :
    (m.follow s i).toScheduler = s ∧ (m.follow s i).vars = m.vars := by
  have hstart : ∀ f, (m.start f).vars = m.vars := by
    intro f
    unfold start
    split <;> rfl
  unfold Tasks.follow
  split
  · split
    · split <;> exact ⟨rfl,rfl⟩
    · split <;> exact ⟨rfl,rfl⟩
    · exact ⟨rfl,hstart _⟩
    · split <;> exact ⟨rfl,rfl⟩
    · exact ⟨rfl,rfl⟩
    · exact ⟨rfl,rfl⟩
  · split <;> exact ⟨rfl,rfl⟩
  · exact ⟨rfl,rfl⟩

theorem created_le {m s : Scheduler W E} {i : Scheduler.Step W E} (hs : Moves m i s) :
    m.created ≤ s.created := by
  cases hs with
  | create => exact Nat.le_succ _
  | examine =>
    unfold Scheduler.examine
    split
    · exact le_rfl
    split
    · exact le_rfl
    split <;> exact le_rfl
  | @dispatch w item =>
    cases item with
    | fiber f =>
      simp only [Scheduler.dispatch]
      split <;> exact le_rfl
    | cb =>
      simp only [Scheduler.dispatch]
      split
      · split <;> exact le_rfl
      · exact Nat.le_succ _
  | @swapped w f cb =>
    unfold Scheduler.swapped
    split <;> cases cb <;> exact le_rfl
  | @hold w f cb => cases cb <;> exact le_rfl
  | _ => exact le_rfl

/-- `swapIn` is called on fibers that all other workers have left, and no fiber is on the queue
that is a worker's callback fiber and has ended. -/
def LeftAlone (m : Tasks W E) : Step W E → Prop
  | .run i => NoneEnded m.toScheduler ∧ SwapInAlone m.toScheduler i
  | .assign .. | .schedule .. | .scheduleRange .. => NoneEnded m.toScheduler

instance [Fintype W] (m : Tasks W E) : DecidablePred m.LeftAlone
  | .run i => inferInstanceAs (Decidable (NoneEnded _ ∧ SwapInAlone _ i))
  | .assign .. | .schedule .. | .scheduleRange .. => inferInstanceAs (Decidable (NoneEnded _))

theorem Tidy.step (h : Tidy m) {i : Step W E} {m' : Tasks W E} (hg : m.LeftAlone i)
    (hs : m.step i = some m') : Tidy m' := by
  have hn := h.numbered.step hs
  obtain ⟨hbound,hfresh,hready,hhand,htaken,hcount,honly⟩ := h.starting
  cases i with
  | assign x item =>
    obtain ⟨⟨-,hitem⟩,hs⟩ := Option.ite_none_right_eq_some.mp hs
    cases hs
    refine ⟨hn,fun y => ?_,h.exist,h.exclusive,h.recycled,
      ⟨hbound,hfresh,hready,hhand,htaken,hcount,honly⟩⟩
    by_cases hyx : y = x
    · subst hyx
      simpa [FiberExists] using hitem
    · simpa [FiberExists, hyx] using h.vars y
  | schedule a fc thread =>
    obtain ⟨⟨-,hfc⟩,hs⟩ := Option.ite_none_right_eq_some.mp hs
    cases hs
    exact h.scheduleNoLock a thread hfc
  | scheduleRange a range =>
    obtain ⟨-,hs⟩ := Option.ite_none_right_eq_some.mp hs
    cases hs
    exact h.scheduleRange a range
  | run i =>
    obtain ⟨-,s,ht,rfl⟩ := step_run hs
    have hmoves := step_moves ht
    have hexist := h.exist.step hmoves
    have hexclusive := h.exclusive.step h.exist hg.2 hmoves
    have hrecycled := h.recycled.step h.exclusive h.exist hg.1 hg.2 hmoves
    have hvars : ∀ x, FiberExists { m with toScheduler := s } (m.vars x) := fun x =>
      (h.vars x).mono (created_le hmoves)
    by_cases hf : s.failed = true
    · rw [if_pos hf] at hn ⊢
      have hm : m.failed = false := by
        unfold Scheduler.step at ht
        split at ht
        · cases ht
        · next hm => simpa using hm
      obtain rfl := eq_fail_of_failed hm hf hmoves
      exact ⟨hn,hvars,hexist,hexclusive,hrecycled,
        ⟨hbound,hfresh,hready,hhand,htaken,hcount,honly⟩⟩
    · rw [if_neg hf] at hn ⊢
      have hstarting := h.starting.run h.numbered h.exist h.recycled (by simpa using hf) hmoves
      obtain ⟨hsched,hv⟩ := follow_toScheduler m s i
      refine ⟨hn,?_,by rwa [hsched],by rwa [hsched],by rwa [hsched],hstarting⟩
      intro x it hit
      rw [hv] at hit
      rw [hsched]
      exact hvars x it hit

/-- Every callback that has been taken is still on its way or has been started exactly once;
`reset` is called on a fiber that may be reset, and a callback on its way goes on. The other
call of `reset` in `run` stands behind its own test of the state. -/
structure CallbacksStarted (m : Tasks W E) : Prop where
  once : ∀ w id t, (w,id,⟨.cb,t⟩) ∈ m.dequeued →
    m.started.count id = if m.onTheWay w = some id then 0 else 1
  only : ∀ id ∈ m.started, ∃ w t, (w,id,⟨.cb,t⟩) ∈ m.dequeued
  reset : ∀ w f, m.pc w = .scanned (some .cb) → m.cb_fiber w = some f →
    (m.fibers f).state.Resettable
  proceeds : ∀ w id, m.onTheWay w = some id → m.failed = false → m.stage (.worker w) = .done →
    ∃ m', m.step (.run (.next w)) = some m' ∧ m'.failed = false ∧
      (m'.onTheWay w = some id ∨ id ∈ m'.started)

/-- A callback that a worker has taken goes from its hand to its fiber, and begins. -/
theorem Tidy.proceeds (h : Tidy m) {w : W} {id : ℕ} (hid : m.onTheWay w = some id)
    (hm : m.failed = false) (hs : m.stage (.worker w) = .done) :
    ∃ m', m.step (.run (.next w)) = some m' ∧ m'.failed = false ∧
      (m'.onTheWay w = some id ∨ id ∈ m'.started) := by
  have hrun : ∀ s, m.next w = some s → s.failed = m.failed →
      m.step (.run (.next w)) = some (m.follow s (.next w)) ∧
        (m.follow s (.next w)).failed = false := by
    intro s hnext hf
    rw [hm] at hf
    refine ⟨by simp [Tasks.step, Scheduler.step, hm, hs, hnext, hf],?_⟩
    rw [(follow_toScheduler m s _).1, hf]
  cases hp : m.pc w with
  | scanned item =>
    obtain rfl : item = some .cb := by
      rcases item with _ | _ | _ <;> simp_all [onTheWay, Pc.way]
    have hhand : m.hand w = some id := by simpa [onTheWay, hp, Pc.way] using hid
    cases hcb : m.cb_fiber w with
    | some f =>
      have hres := ((h.recycled.kept w f hcb).resettable (by simp [hp, Pc.busyWith])).1
      have hnext : m.next w = some ((m.setFiber f .new).goto w (.swapIn f true)) := by
        simp [next, hp, Scheduler.dispatch, hcb, hres]
      obtain ⟨hstep,hf⟩ := hrun _ hnext rfl
      refine ⟨_,hstep,hf,.inl ?_⟩
      simp [Tasks.follow, hp, onTheWay, Scheduler.goto, Pc.way, setCallback, hhand]
    | none =>
      have hnext : m.next w = some { ((m.setFiber m.created .new).setCb w (some m.created)).goto w
          (.swapIn m.created true) with created := m.created+1 } := by
        simp [next, hp, Scheduler.dispatch, hcb]
      obtain ⟨hstep,hf⟩ := hrun _ hnext rfl
      refine ⟨_,hstep,hf,.inl ?_⟩
      simp [Tasks.follow, hp, onTheWay, Scheduler.goto, Pc.way, setCallback, hhand]
  | swapIn f cb =>
    obtain rfl : cb = true := by cases cb <;> simp_all [onTheWay, Pc.way]
    have hcallback : m.callback f = some id := by simpa [onTheWay, hp, Pc.way] using hid
    have hexec : (m.fibers f).state ≠ .EXEC := by
      have hkept := h.recycled.kept w f (h.recycled.own w f (by rw [hp]; rfl))
      cases hkept with
      | rest hr => rcases hr with hr | hr | hr <;> simp [hr]
      | busy hb => rw [hp] at hb; rcases hb with hb | hb <;> cases hb
      | left hb => rw [hp] at hb; rcases hb with hb | hb <;> cases hb
      | hold hb => rw [hp] at hb; cases hb
    have hnext : m.next w = some ((m.setState f .EXEC).goto w (.switch f true)) := by
      simp [next, hp, hexec]
    obtain ⟨hstep,hf⟩ := hrun _ hnext rfl
    refine ⟨_,hstep,hf,.inl ?_⟩
    simp [Tasks.follow, hp, onTheWay, Scheduler.goto, Pc.way, hcallback]
  | switch f cb =>
    obtain rfl : cb = true := by cases cb <;> simp_all [onTheWay, Pc.way]
    have hcallback : m.callback f = some id := by simpa [onTheWay, hp, Pc.way] using hid
    have hfresh := (h.starting.ready w f (by rw [hp]; rfl)).1
    have hnext : m.next w = some ((m.setFiber f { m.fibers f with ctx := .live }).goto w
        (.running f true)) := by
      simp [next, hp]
    obtain ⟨hstep,hf⟩ := hrun _ hnext rfl
    refine ⟨_,hstep,hf,.inr ?_⟩
    simp [Tasks.follow, hp, Tasks.start, hfresh, hcallback]
  | _ => simp [onTheWay, hp, Pc.way] at hid

theorem Tidy.callbacksStarted (h : Tidy m) : CallbacksStarted m where
  once := h.starting.count
  only := h.starting.only
  reset w f hp hf := ((h.recycled.kept w f hf).resettable (by simp [hp, Pc.busyWith])).1
  proceeds _ _ := h.proceeds

/-- In every run what is pushed is on the queue or has been taken once. While `swapIn` finds
its fibers left by the other workers and no ended callback fiber is on the queue, every
callback that is taken is started once. -/
theorem tasks_conserved : (∀ m, (machine W E).Reachable m → Conserved m) ∧
    ∀ m, (machine W E).Reaches LeftAlone m → CallbacksStarted m := by
  refine ⟨fun m h => (numbered_of_reachable h).conserved,fun m h => ?_⟩
  have htidy : Tidy m := h.invariant (fun _ hi => hi ▸ tidy_initial)
    fun _ _ _ hm hg hs => hm.step hg (hs : Tasks.step _ _ = _)
  exact htidy.callbacksStarted

end tidy

/-- A range of two callbacks and an empty function; the worker runs both callbacks in the one
fiber. -/
theorem tasks_conserved_two : ∃ m : Tasks (Fin 1) (Fin 1),
    m.started = [0,1] ∧ m.created = 1 ∧ Conserved m ∧ CallbacksStarted m := by
  obtain ⟨m,hm,hstarted,hcreated⟩ := Transition.Machine.exists_reaches
    (M := machine (Fin 1) (Fin 1)) (G := LeftAlone) rfl
    [.assign 0 (some .cb),.assign 1 (some .cb),.scheduleRange (.caller 0) [0,0,1],
      .run (.tickle (.caller 0)),.run (.next 0),.run (.next 0),.run (.tickle (.worker 0)),
      .run (.next 0),.run (.next 0),.run (.next 0),.run (.leave 0 .term),.run (.next 0),
      .run (.next 0),.run (.next 0),.run (.next 0),.run (.next 0),.run (.next 0),.run (.next 0)]
    (fun m => m.started = [0,1] ∧ m.created = 1) (by decide) (by decide)
  exact ⟨m,hstarted,hcreated,tasks_conserved.1 m hm.reachable,tasks_conserved.2 m hm⟩

/-- A callback schedules its fiber and yields; worker 1 runs the fiber to its end before worker
0 tests its state, and then sets the state of the fiber, which has been reset, to `HOLD`: the
next callback that worker 0 takes fails the assertion of `reset`. -/
theorem callback_lost : ¬∀ m : Tasks (Fin 2) (Fin 1), (machine (Fin 2) (Fin 1)).Reaches
    (fun m _ => NoneEnded m.toScheduler) m → Conserved m ∧ CallbacksStarted m := by
  intro h
  obtain ⟨m,hm,hp,hcb,hs⟩ := Transition.Machine.exists_reaches
    (M := machine (Fin 2) (Fin 1)) (G := fun m _ => NoneEnded m.toScheduler) rfl
    [.schedule (.caller 0) (.value (some .cb)) .any,.run (.tickle (.caller 0)),.run (.next 0),
      .run (.next 0),.run (.next 0),.run (.next 0),.run (.next 0),
      .schedule (.worker 0) (.value (some (.fiber 0))) .any,.run (.tickle (.worker 0)),
      .run (.leave 0 .YieldToHold),.run (.next 0),.run (.next 1),.run (.next 1),.run (.next 1),
      .run (.next 1),.run (.next 1),.run (.leave 1 .term),.run (.next 1),.run (.next 0),
      .run (.next 1),.run (.next 1),
      .schedule (.caller 0) (.value (some .cb)) (.worker 0),.run (.tickle (.caller 0)),
      .run (.next 0),.run (.next 0)]
    (fun m => m.pc 0 = .scanned (some .cb) ∧ m.cb_fiber 0 = some 0 ∧ (m.fibers 0).state = .HOLD)
    (by decide) (by decide)
  have hreset := (h m hm).2.reset 0 0 hp hcb
  rw [hs] at hreset
  exact absurd hreset (by decide)

end Tasks
end CoroutineWebserve
