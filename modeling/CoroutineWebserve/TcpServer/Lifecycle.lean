import CoroutineWebserve.TcpServer.Accept
import CoroutineWebserve.TcpServer.Close
import CoroutineWebserve.TcpServer.Release

/-!
# The life of connections

Whatever the fibers and their order, every connection is handled once and closed once, with a
context of its own.
-/
namespace CoroutineWebserve.Serving
variable {F : Type*} {v : UInt64} {n : ℕ} {s t : Serving F} {f g : F} {p : ServerPhase}
  {l o fd : ℕ}

theorem tasks_perm {i : ℕ} {task : ServerTask} (hi : s.tasks[i]? = some task) :
    s.tasks.Perm (task :: s.tasks.eraseIdx i) := by
  obtain ⟨hlt,rfl⟩ := List.getElem?_eq_some_iff.mp hi
  exact (List.getElem_cons_eraseIdx_perm hlt).symm

/-- A client is handled. It is the first time, and the context is as `startAccept` has left it. -/
theorem Ledger.handle (h : Ledger v n s) (hwaits : (s.view o).Waits (timedCtx v)) :
    Ledger v n { s with handled := (o,s.sockCtx o) :: s.handled } := by
  obtain ⟨hfresh,fd,hm_sock,hfile⟩ := hwaits
  obtain ⟨hkernel,hc⟩ := file_eq_some.mp hfile
  have hctx : s.sockCtx o = some (timedCtx v fd) := by
    obtain ⟨x,hx,hfd⟩ := m_sock?_eq_some.mp hm_sock
    rw [sockCtx, Serving.m_sock, hx, Option.bind_some, hfd, Option.bind_some, hc]
  refine ⟨h.managed,h.unique,h.connection,h.listening,h.socks,h.m_socks,h.accepted,h.nodup_accepted,
    ?_,List.nodup_cons.mpr ⟨hfresh,h.nodup_handled⟩,?_,h.nodup_closed,h.allocated⟩
  · intro x hx
    rcases List.mem_cons.mp hx with rfl | hx
    · exact ⟨(h.connection fd o hkernel).1,fd,hctx⟩
    · exact h.handled x hx
  · exact fun x hx => (h.closed x hx).imp_left fun hclosed => ⟨hclosed.1,
      List.mem_cons_of_mem _ hclosed.2⟩

namespace Inv
variable [DecidableEq F]

/-! ### Callbacks -/

/-- The callback of `stop` ends. -/
theorem stopped (h : Inv v n s) (hp : s.phase f = .stop [])
    (ht : t = { s with m_socks := [] }.goto f .idle) : Inv v n t := by
  have hok := h.phases f
  rw [hp] at hok
  have hno : ∀ fd l, s.kernel fd ≠ some (.listening l) := fun fd l hfd =>
    List.not_mem_nil (hok fd l _ (listening_eq_some.mpr ⟨hfd,rfl⟩))
  have hfrom : s.holds (some f) = [none] := by
    rw [holds, hp]
    rfl
  have hphase : t.phase = Function.update s.phase f .idle := by
    rw [ht]
    rfl
  have hself : t.holds (some f) = [] := holds_self hphase
  have hplaces : ∀ q, q ≠ some f → (t.holds q).Perm (s.holds q) := by
    rintro (_ | g) hg
    · rw [ht]
      rfl
    · rw [holds_of_ne hphase (by simpa using hg) fun l' o' _ => by rw [ht]; rfl]
  have hsame : ∀ q, s.Ok v q → t.Ok v q := fun q hq =>
    hq.congr (fun _ _ => ht ▸ rfl) fun _ => ht ▸ rfl
  refine h.advance hphase (ht ▸ h.mgr) (ht ▸ h.creating_eq (by rw [hp]; rfl)) ?_ ?_
    (by rintro _ ⟨⟩) ?_ trivial trivial (fun g _ => hsame _ (h.phases g)) ?_ ?_
  · exact (h.exclusive.remove (p := some f) (c := none) (by rw [hself, hfrom]) hplaces).1
  · intro fd client hfd
    rw [ht] at hfd
    obtain ⟨q,hq⟩ := h.owned fd client hfd
    refine ⟨q,(hplaces q ?_).mem_iff.mpr hq⟩
    rintro rfl
    rw [hfrom] at hq
    cases List.mem_singleton.mp hq
  · intro o ho
    rw [ht] at ho
    rw [hp]
    exact .inr ⟨by rintro ⟨⟩,ho⟩
  · rw [ht]
    exact fun task htask => ⟨(h.tasks task htask).1,
      (h.tasks task htask).2.congr fun _ _ => rfl⟩
  · have hledger := h.ledger
    rw [ht]
    exact ⟨hledger.managed,hledger.unique,hledger.connection,fun fd l hfd => absurd hfd (hno fd l),
      hledger.socks,List.forall_mem_nil _,hledger.accepted,hledger.nodup_accepted,hledger.handled,
      hledger.nodup_handled,hledger.closed,hledger.nodup_closed,hledger.allocated⟩

/-- A fiber takes a callback, and the right that comes with it. -/
theorem taken (h : Inv v n s) (hp : s.phase f = .idle) {i : ℕ} {task : ServerTask}
    (hi : s.tasks[i]? = some task) (hphase : t.phase = Function.update s.phase f p)
    (htasks : t.tasks = s.tasks.eraseIdx i) (hrefs : t.refs = s.refs) (hmgr : t.mgr = s.mgr)
    (hkernel : t.kernel = s.kernel) (hrights : p.rights s.refs = task.rights)
    (hclient : p.client = none) (hcreating : p.creating = none) (hfits : p.Fits n)
    (hok : t.Ok v p) (hothers : ∀ g, g ≠ f → t.Ok v (s.phase g))
    (hrest : ∀ task' ∈ s.tasks.eraseIdx i, t.OkTask v task') (hledger : Ledger v n t) :
    Inv v n t := by
  have hfrom : s.holds (some f) = [] := by
    rw [holds, hp]
    rfl
  have hself : t.holds (some f) = task.rights := by rw [holds_self hphase, hrefs, hrights]
  have hqueue : (s.holds none).Perm (task.rights++t.holds none) := by
    have hperm := (tasks_perm hi).flatMap_right ServerTask.rights
    rw [List.flatMap_cons] at hperm
    rwa [holds, holds, htasks]
  have hother : ∀ g, g ≠ f → t.holds (some g) = s.holds (some g) :=
    fun g hg => holds_of_ne hphase hg fun l' o' _ => by rw [hrefs]
  refine h.advance hphase (hmgr ▸ h.mgr) (hmgr ▸ h.creating_eq (by rw [hp, hcreating]; rfl)) ?_ ?_
    (by simp [hclient]) ?_ hfits hok hothers ?_ hledger
  · cases task with
    | startAccept _ =>
      refine h.exclusive.perm ?_
      rintro (_ | g)
      · exact hqueue.symm
      · by_cases hg : g = f
        · rw [hg, hself, hfrom]
          rfl
        · rw [hother g hg]
    | handleClient _ | stop =>
      refine h.exclusive.move (p := none) (q := some f) (by simp) hqueue ?_ ?_
      · rw [hself, hfrom]
        rfl
      · rintro (_ | g) hnone hg
        · exact absurd rfl hnone
        · rw [hother g (by simpa using hg)]
  · intro fd client hfd
    rw [hkernel] at hfd
    obtain ⟨_ | g,hright⟩ := h.owned fd client hfd
    · rcases List.mem_append.mp (hqueue.mem_iff.mp hright) with htask | hrest
      · exact ⟨some f,hself ▸ htask⟩
      · exact ⟨none,hrest⟩
    · have hg : g ≠ f := by
        rintro rfl
        rw [hfrom] at hright
        cases hright
      exact ⟨some g,hother g hg ▸ hright⟩
  · intro o ho
    rw [hrefs] at ho
    rw [hp]
    exact .inr ⟨by rintro ⟨⟩,ho⟩
  · intro task' htask'
    rw [htasks] at htask'
    exact ⟨(h.tasks task' (List.mem_of_mem_eraseIdx htask')).1,hrest task' htask'⟩

theorem takeClient (h : Inv v n s) (hp : s.phase f = .idle) {i : ℕ}
    (hi : s.tasks[i]? = some (.handleClient o))
    (ht : t = { s with tasks := s.tasks.eraseIdx i }.begin f (.handleClient o)) : Inv v n t := by
  obtain ⟨hfits,hwaits,hcallback⟩ := h.tasks _ (List.mem_of_getElem? hi)
  have hqueue : (s.holds none).Perm
      (some o :: (s.tasks.eraseIdx i).flatMap ServerTask.rights) := by
    have hperm := (tasks_perm hi).flatMap_right ServerTask.rights
    rwa [List.flatMap_cons] at hperm
  have ho : some o ∈ s.holds none := hqueue.mem_iff.mpr List.mem_cons_self
  have hview : ∀ o', o' ≠ o → t.view o' = s.view o' := by
    intro o' ho'
    subst ht
    exact view_congr rfl rfl .rfl (by simp [begin, ho']) .rfl fun _ _ => .rfl
  have hothers := (h.others (t := t) ho hview (ht ▸ rfl) fun l g _ hg _ => by
    have hnext := h.phases g
    rw [hg] at hnext
    subst ht
    refine ⟨hnext.1,hnext.2.1,hnext.2.2.1,fun hfalse => ?_⟩
    exact absurd (hcallback.symm.trans hfalse) (by decide)).1
  have hledger : Ledger v n t := by
    rw [ht]
    exact (h.ledger.handle hwaits).congr rfl (fun fd c hc => ⟨c,hc⟩) rfl rfl rfl rfl le_rfl
      fun _ _ => rfl
  refine h.taken (p := .handleClient o) hp hi (ht ▸ rfl) (ht ▸ rfl) (ht ▸ rfl) (ht ▸ rfl) (ht ▸ rfl)
    rfl rfl rfl hfits ?_ (fun g _ => hothers g (by simp)) (fun task' htask' => ?_) hledger
  · obtain ⟨-,fd,hm_sock,hfile⟩ := hwaits
    subst ht
    exact ⟨⟨List.mem_cons_self,.inl ⟨fd,timedCtx v fd,⟨hm_sock,hfile⟩,rfl,rfl⟩⟩,hcallback⟩
  · refine (h.tasks task' (List.mem_of_mem_eraseIdx htask')).2.congr fun o' ho' => hview o' ?_
    rintro rfl
    have hnodup := hqueue.nodup_iff.mp (h.exclusive.nodup none)
    exact (List.nodup_cons.mp hnodup).1 (List.mem_flatMap.mpr ⟨task',htask',ho'⟩)

/-- A fiber begins with a callback. -/
theorem take (h : Inv v n s) (hp : s.phase f = .idle) {i : ℕ} {task : ServerTask}
    (hi : s.tasks[i]? = some task)
    (ht : t = { s with tasks := s.tasks.eraseIdx i }.begin f task) : Inv v n t := by
  have hmem := List.mem_of_getElem? hi
  obtain ⟨hfits,hok⟩ := h.tasks task hmem
  have hrest : ∀ task' ∈ s.tasks.eraseIdx i, s.OkTask v task' := fun task' htask' =>
    (h.tasks task' (List.mem_of_mem_eraseIdx htask')).2
  cases task with
  | startAccept l =>
    have hsame : ∀ q, s.Ok v q → t.Ok v q := fun q hq =>
      hq.congr (fun _ _ => ht ▸ rfl) fun _ => ht ▸ rfl
    refine h.taken (p := .loop l) hp hi (ht ▸ rfl) (ht ▸ rfl) (ht ▸ rfl) (ht ▸ rfl) (ht ▸ rfl) rfl rfl
      rfl hfits trivial (fun g _ => hsame _ (h.phases g)) (fun task' htask' =>
        (hrest task' htask').congr fun _ _ => ht ▸ rfl) ?_
    exact h.ledger.congr (ht ▸ rfl) (fun fd c hc => ⟨c,by rw [ht] at hc; exact hc⟩) (ht ▸ rfl)
      (ht ▸ rfl) (ht ▸ rfl) (ht ▸ rfl) (ht ▸ le_rfl) fun _ _ => ht ▸ rfl
  | stop =>
    have hsame : ∀ q, s.Ok v q → t.Ok v q := fun q hq =>
      hq.congr (fun _ _ => ht ▸ rfl) fun _ => ht ▸ rfl
    refine h.taken (p := .stop s.m_socks) hp hi (ht ▸ rfl) (ht ▸ rfl) (ht ▸ rfl) (ht ▸ rfl) (ht ▸ rfl)
      rfl rfl rfl h.ledger.m_socks (hsame _ fun fd l c hfd =>
        (h.ledger.listening fd l (listening_eq_some.mp hfd).1).1) (fun g _ => hsame _ (h.phases g))
      (fun task' htask' => (hrest task' htask').congr fun _ _ => ht ▸ rfl) ?_
    exact h.ledger.congr (ht ▸ rfl) (fun fd c hc => ⟨c,by rw [ht] at hc; exact hc⟩) (ht ▸ rfl)
      (ht ▸ rfl) (ht ▸ rfl) (ht ▸ rfl) (ht ▸ le_rfl) fun _ _ => ht ▸ rfl
  | handleClient client =>
    exact h.takeClient hp hi ht

/-! ### Any step -/

theorem start (h : Inv v n s) (ht : t = { s with
    m_isStop := false
    tasks := s.tasks++s.m_socks.map .startAccept }) : Inv v n t := by
  have hholds : t.holds = s.holds := by
    subst ht
    funext q
    cases q with
    | none => simp [holds, ServerTask.rights, List.flatMap_map]
    | some g => rfl
  refine h.external (ht ▸ rfl) (ht ▸ rfl) (ht ▸ rfl) (hholds ▸ h.exclusive)
    (fun fd client hfd => by rw [ht] at hfd; exact hfd) (fun q r hr => hholds ▸ hr) (ht ▸ rfl) (ht ▸ rfl)
    ?_ ?_
  · intro task htask
    rw [ht] at htask
    refine (List.mem_append.mp htask).imp id fun hnew => ?_
    obtain ⟨l,hl,rfl⟩ := List.mem_map.mp hnew
    exact ⟨h.ledger.m_socks l hl,trivial⟩
  · exact h.ledger.congr (ht ▸ rfl) (fun fd c hc => ⟨c,by rw [ht] at hc; exact hc⟩) (ht ▸ rfl)
      (ht ▸ rfl) (ht ▸ rfl) (ht ▸ rfl) (ht ▸ le_rfl) fun _ _ => ht ▸ rfl

theorem stop (h : Inv v n s) (hg : Orderly s .stop)
    (ht : t = { s with m_isStop := true, tasks := s.tasks++[.stop] }) : Inv v n t := by
  have hqueue : t.holds none = s.holds none++[none] := by
    subst ht
    simp [holds, ServerTask.rights]
  have hother : ∀ g, t.holds (some g) = s.holds (some g) := by
    subst ht
    exact fun g => rfl
  have hnone : ∀ q, none ∉ s.holds q := by
    rintro (_ | g) hmem
    · obtain ⟨task,htask,hright⟩ := List.mem_flatMap.mp hmem
      cases task with
      | startAccept _ => cases hright
      | handleClient _ => cases List.mem_singleton.mp hright
      | stop => exact hg.1 htask
    · exact Bool.false_ne_true ((hg.2 g).symm.trans (isStop_of_rights hmem))
  refine h.external (ht ▸ rfl) (ht ▸ rfl) (ht ▸ rfl) ?_
    (fun fd client hfd => by rw [ht] at hfd; exact hfd) ?_ (ht ▸ rfl) (ht ▸ rfl) ?_ ?_
  · refine h.exclusive.add (q := none) (c := none) hnone ?_ ?_
    · rw [hqueue]
      exact List.perm_append_singleton _ _
    · rintro (_ | g) hq
      · exact absurd rfl hq
      · rw [hother g]
  · rintro (_ | g) r hr
    · exact hqueue ▸ List.mem_append_left _ hr
    · exact hother g ▸ hr
  · intro task htask
    rw [ht] at htask
    refine (List.mem_append.mp htask).imp id fun hnew => ?_
    rw [List.mem_singleton.mp hnew]
    exact ⟨trivial,trivial⟩
  · exact h.ledger.congr (ht ▸ rfl) (fun fd c hc => ⟨c,by rw [ht] at hc; exact hc⟩) (ht ▸ rfl)
      (ht ▸ rfl) (ht ▸ rfl) (ht ▸ rfl) (ht ▸ le_rfl) fun _ _ => ht ▸ rfl

/-- Other files come and go. -/
theorem other (h : Inv v n s) {file : Option File} (hold : ∀ f ∈ s.kernel fd, f = .other)
    (hnew : ∀ f ∈ file, f = .other)
    (ht : t = { s with kernel := Function.update s.kernel fd file }) : Inv v n t := by
  have hkernel : ∀ fd' f, f ≠ File.other → (t.kernel fd' = some f ↔ s.kernel fd' = some f) := by
    intro fd' f hf
    subst ht
    by_cases heq : fd' = fd
    · subst heq
      simp only [Function.update_self]
      exact iff_of_false (fun hfile => hf (hnew f hfile)) fun hfile => hf (hold f hfile)
    · simp only [Function.update_of_ne heq]
  have hconn : ∀ fd' client, t.kernel fd' = some (.connection client) ↔
      s.kernel fd' = some (.connection client) := fun fd' client => hkernel fd' _ (by simp)
  have hlist : ∀ fd' l, t.kernel fd' = some (.listening l) ↔ s.kernel fd' = some (.listening l) :=
    fun fd' l => hkernel fd' _ (by simp)
  have hview : t.view = s.view := funext fun o => view_congr (ht ▸ rfl) (ht ▸ rfl) (ht ▸ .rfl)
    (ht ▸ .rfl) (ht ▸ .rfl) fun fd' c => and_congr (hconn fd' o) (ht ▸ .rfl)
  have hledger := h.ledger
  refine h.external (ht ▸ rfl) (ht ▸ rfl) (ht ▸ rfl) (ht ▸ h.exclusive)
    (fun fd' client => (hconn fd' client).mp) (fun q r hr => ht ▸ hr) hview ?_
    (fun task htask => .inl (by rw [ht] at htask; exact htask)) ?_
  · exact listening_congr fun fd' l c => and_congr (hlist fd' l) (ht ▸ .rfl)
  · constructor
    · intro fd' c hc
      rw [ht] at hc
      obtain ⟨f,hf,hsocket⟩ := hledger.managed fd' c hc
      refine ⟨f,(hkernel fd' f ?_).mpr hf,hsocket⟩
      rintro rfl
      cases hsocket
    · intro fd₁ fd₂ client h₁ h₂
      exact hledger.unique fd₁ fd₂ client ((hconn _ _).mp h₁) ((hconn _ _).mp h₂)
    · intro fd' client hfd'
      rw [hview]
      exact hledger.connection fd' client ((hconn _ _).mp hfd')
    · intro fd' l hfd'
      rw [hview]
      exact ht ▸ hledger.listening fd' l ((hlist _ _).mp hfd')
    · intro l hl
      obtain ⟨r,hr,hiff⟩ := hledger.socks l hl
      exact ⟨r,hview ▸ hr,fun fd' => (hlist fd' l).trans (hiff fd')⟩
    · exact ht ▸ hledger.m_socks
    · intro client hclient
      rw [ht] at hclient
      obtain ⟨hn,hopen⟩ := hledger.accepted client hclient
      rw [hview]
      exact ⟨hn,hopen.imp_right fun ⟨fd',hfd'⟩ => ⟨fd',(hconn _ _).mpr hfd'⟩⟩
    · exact ht ▸ hledger.nodup_accepted
    · exact ht ▸ hledger.handled
    · exact ht ▸ hledger.nodup_handled
    · rw [hview]
      exact ht ▸ hledger.closed
    · exact ht ▸ hledger.nodup_closed
    · rw [hview]
      exact ht ▸ hledger.allocated

theorem move (h : Inv v n s) {answer : Option ℕ} (hg : ∀ fd ∈ answer, fd*3/2 < 2^31)
    (hs : s.move f v answer = some t) : Inv v n t := by
  unfold Serving.move at hs
  split at hs
  next => cases hs
  next l hp => exact h.loop hp hs
  next l client r hp =>
    cases answer with
    | none => exact h.refuse hp (Option.some.inj hs).symm
    | some fd => exact h.accept hp (hg fd rfl) hs
  next l client fd hp => exact h.get hp hs
  next l client fd hp => exact h.create hp hs
  next l client fd hp => exact h.init hp hs
  next l client hp => exact h.setRecvTimeout hp hs
  next l client hp => exact Option.some.inj hs ▸ h.schedule hp
  next l client hp => exact h.next hp hs
  next client hp => exact h.handled hp hs
  next sock fd k hp => exact h.closeGet hp hs
  next sock fd k hp => exact h.del hp hs
  next sock fd k hp => exact h.close_f hp hs
  next hp => exact h.stopped hp (Option.some.inj hs).symm
  next l socks hp => exact h.stopNext hp hs

theorem step (h : Inv v n s) {i : Label F} (hg : Orderly s i) (hs : s.step v i = some t) :
    Inv v n t := by
  cases i with
  | start =>
    simp only [Serving.step] at hs
    split_ifs at hs
    · exact h.start (Option.some.inj hs).symm
    · cases hs
      exact h
  | stop => exact h.stop hg (Option.some.inj hs).symm
  | take f i =>
    simp only [Serving.step] at hs
    split at hs
    next task hp hi => exact h.take hp hi (Option.some.inj hs).symm
    next => cases hs
  | move f answer => exact h.move hg hs
  | set f setting =>
    simp only [Serving.step] at hs
    split at hs
    next client hp => exact h.set hp hs
    next => cases hs
  | close f =>
    simp only [Serving.step] at hs
    split at hs
    next client hp => exact h.close hp hs
    next => cases hs
  | other fd =>
    simp only [Serving.step] at hs
    split at hs
    next hnone =>
      exact h.other (by simp [hnone]) (by simp) (Option.some.inj hs).symm
    next hother =>
      exact h.other (by simp [hother]) (by simp) (Option.some.inj hs).symm
    next => cases hs

/-! ### Runs -/

/-- The server has been bound. -/
theorem of_bound (h : Bound s) : Inv v s.heap.length s := by
  have hphase : ∀ f, s.phase f = .idle := h.phase
  have hholds : ∀ q, s.holds q = [] := by
    rintro (_ | g)
    · rw [holds, h.tasks]
      rfl
    · rw [holds, hphase]
      rfl
  constructor
  · exact h.mgr
  · intro f
    rw [h.creating, hphase]
    rfl
  · exact ⟨fun q => by rw [hholds]; exact List.nodup_nil,fun hc _ => by rw [hholds] at hc; cases hc⟩
  · exact fun fd client hfd => absurd hfd (h.connection fd client)
  · intro f g client hf
    rw [hphase] at hf
    cases hf
  · intro client hc
    rw [h.refs] at hc
    cases hc
  · intro f
    rw [hphase]
    trivial
  · intro f
    rw [hphase]
    trivial
  · rw [h.tasks]
    exact List.forall_mem_nil _
  · constructor
    · intro fd c hc
      obtain ⟨sock,hsock⟩ := h.managed fd c hc
      exact ⟨_,hsock,rfl⟩
    · exact fun fd _ client hfd => absurd hfd (h.connection fd client)
    · exact fun fd client hfd => absurd hfd (h.connection fd client)
    · intro fd sock hfd
      refine ⟨?_,fun hclosed => ?_⟩
      · have hm_sock := (h.listening fd sock).mp hfd
        rw [h.m_socks, List.mem_range]
        by_contra hge
        rw [Serving.m_sock, List.getElem?_eq_none (not_lt.mp hge)] at hm_sock
        cases hm_sock
      · rw [view, h.closed] at hclosed
        cases hclosed
    · intro sock hsock
      refine ⟨_,m_sock?_eq_some.mpr ⟨_,List.getElem?_eq_getElem hsock,rfl⟩,fun fd => ?_⟩
      rw [h.listening, Serving.m_sock, List.getElem?_eq_getElem hsock]
      rfl
    · intro sock hsock
      rw [h.m_socks] at hsock
      exact List.mem_range.mp hsock
    · rw [h.accepted]
      exact List.forall_mem_nil _
    · rw [h.accepted]
      exact List.nodup_nil
    · rw [h.handled]
      exact List.forall_mem_nil _
    · rw [h.handled]
      exact List.nodup_nil
    · rw [h.closed]
      exact List.forall_mem_nil _
    · rw [h.closed]
      exact List.nodup_nil
    · intro sock hsock
      simp only [view, h.accepted, h.closed] at hsock
      exact absurd hsock (by simp)

theorem close_isSome {r : Option ℕ} (h : s.m_sock? o = some r) (f : F) (k : AfterClose) :
    (s.close f o k).isSome := by
  obtain ⟨c,hc,-⟩ := m_sock?_eq_some.mp h
  rw [Serving.close, hc]
  rfl

theorem release_isSome {r : Option ℕ} (h : s.m_sock? o = some r) (f : F) (left : Refs)
    (k : AfterClose) : (s.release f o left k).isSome := by
  unfold Serving.release
  split_ifs
  · rfl
  · exact close_isSome (s := s.setRefs o left) h f k

theorem close_f_isSome {r : Option ℕ} (h : s.m_sock? o = some r) (f : F) (k : AfterClose) :
    (s.close_f f o fd k).isSome := by
  obtain ⟨c,hc,-⟩ := m_sock?_eq_some.mp h
  rw [Serving.close_f, hc]
  rfl

/-- A fiber that has a callback can go on. -/
theorem moves (h : Inv v n s) (hp : s.phase f ≠ .idle) : (s.move f v none).isSome := by
  have hok := h.phases f
  have hfits := h.fits f
  have hget : (s.phase f).creating = none → ∀ fd, ∃ mgr, s.withGet f fd = some { s with mgr } :=
    fun hcreating fd => (h.withGet hcreating fd).imp fun _ hw => hw.1
  have hcreating := h.creating f
  have hsocks : ∀ l < n, ∃ r, s.m_sock? l = some r := fun l hl =>
    (h.ledger.socks l hl).imp fun _ hr => hr.1
  unfold Serving.move
  cases hphase : s.phase f with
  | idle => exact absurd hphase hp
  | loop l =>
    rw [hphase] at hfits hget
    obtain ⟨r,hr⟩ := hsocks l hfits
    obtain ⟨c,hc,-⟩ := m_sock?_eq_some.mp hr
    obtain ⟨mgr,hmgr⟩ := hget rfl c.m_sock
    dsimp only
    unfold Serving.loop
    split_ifs
    · rfl
    · rw [hc, Option.bind_some, hmgr]
      rfl
  | accept l client r => rfl
  | get l client fd =>
    rw [hphase] at hok hcreating
    have hlookup := h.lookup_eq_none (file_eq_some.mp hok.2.1).2
    obtain ⟨mgr,hstep,-⟩ := FdManager.step_get_true hcreating hlookup
    dsimp only
    rw [Serving.get, hstep]
    rfl
  | create l client fd =>
    rw [hphase] at hok hcreating
    obtain ⟨-,mgr,hstep,-⟩ := FdManager.step_create h.stable hcreating
      (file_eq_some.mp hok.2.1).2 hok.2.2 ((s.kernel fd).map File.isSocket)
    dsimp only
    rw [Serving.create, hstep]
    rfl
  | init l client fd =>
    rw [hphase] at hok hget
    obtain ⟨c,hc,-⟩ := m_sock?_eq_some.mp hok.1.m_sock
    obtain ⟨mgr,hmgr⟩ := hget rfl (some fd)
    dsimp only
    rw [Serving.init, hc, Option.bind_some, hmgr]
    rfl
  | setRecvTimeout l client =>
    rw [hphase] at hok
    obtain ⟨-,-,fd,hm_sock,hfile⟩ := hok
    obtain ⟨mgr,hset,-⟩ := h.setOption (f := f) (by rw [hphase]; rfl) hm_sock
      (file_eq_some.mp hfile).2 (.timeout .SO_RCVTIMEO (tv_ms v))
    dsimp only
    rw [hset]
    rfl
  | schedule l client => rfl
  | next l client =>
    rw [hphase] at hok
    obtain ⟨r,hr⟩ := Option.isSome_iff_exists.mp hok.1
    exact release_isSome hr f _ _
  | handleClient client =>
    rw [hphase] at hok
    obtain ⟨⟨-,⟨fd,c,hhas,-⟩ | ⟨hm_sock,-⟩⟩,-⟩ := hok
    · exact release_isSome hhas.m_sock f _ _
    · exact release_isSome hm_sock f _ _
  | close sock fd k =>
    rw [hphase] at hget
    obtain ⟨mgr,hmgr⟩ := hget rfl (some fd)
    dsimp only
    rw [hmgr]
    rfl
  | del sock fd k => rfl
  | close_f sock fd k =>
    rw [hphase] at hok hfits
    cases k with
    | stop socks =>
      obtain ⟨r,hr⟩ := hsocks sock hfits.1
      exact close_f_isSome hr f _
    | loop _ | done => exact close_f_isSome hok.1.1.m_sock f _
    | handleClient _ => exact close_f_isSome hok.1.2.1.m_sock f _
  | stop socks =>
    rw [hphase] at hfits
    cases socks with
    | nil => rfl
    | cons l socks =>
      obtain ⟨r,hr⟩ := hsocks l (hfits l List.mem_cons_self)
      exact close_isSome hr f _

end Inv

variable [DecidableEq F]

/-- What becomes of connections, of their contexts and of the fibers. -/
structure Serves (v : UInt64) (s : Serving F) : Prop where
  moves : ∀ f, s.phase f ≠ .idle → (s.move f v none).isSome
  one_ctx : s.mgr.OneCtx
  managed : ∀ fd c, s.mgr.ctx fd = some c → ∃ file, s.kernel fd = some file ∧ file.isSocket = true
  nodup_accepted : s.accepted.Nodup
  nodup_handled : (s.handled.map Prod.fst).Nodup
  nodup_closed : (s.closed.map Prod.fst).Nodup
  accepted : ∀ client ∈ s.accepted, client ∈ s.closed.map Prod.fst ∨
    ∃ fd, s.kernel fd = some (.connection client)
  handled : ∀ x ∈ s.handled, x.1 ∈ s.accepted ∧ ∃ fd, x.2 = some (timedCtx v fd)
  closed : ∀ x ∈ s.closed,
    x.2 = some (.connection x.1) ∧ x.1 ∈ s.handled.map Prod.fst ∨ x.2 = some (.listening x.1)
  quiet : (∀ f, s.phase f = .idle) → s.tasks = [] → ∀ client ∈ s.accepted,
    client ∈ s.handled.map Prod.fst ∧ (client,some (.connection client)) ∈ s.closed
  stopped : s.m_socks = [] → ∀ fd sock, s.kernel fd ≠ some (.listening sock)

theorem serves (h : (machine F v).Reaches Orderly s) : Serves v s := by
  obtain ⟨n,hinv⟩ : ∃ n, Inv v n s := h.invariant (I := fun s => ∃ n, Inv v n s)
    (fun s hi => ⟨s.heap.length,.of_bound hi⟩)
    fun s i t ⟨n,hs⟩ hg he => ⟨n,hs.step hg he⟩
  have hledger := hinv.ledger
  refine ⟨fun f hp => hinv.moves hp,FdManager.one_ctx hinv.mgr,hledger.managed,
    hledger.nodup_accepted,hledger.nodup_handled,hledger.nodup_closed,
    fun client hclient => (hledger.accepted client hclient).2,hledger.handled,
    fun x hx => (hledger.closed x hx).imp_right And.left,?_,?_⟩
  · intro hidle htasks client hclient
    have hnone : ∀ fd, s.kernel fd ≠ some (.connection client) := by
      intro fd hfd
      obtain ⟨_ | f,hq⟩ := hinv.owned fd client hfd
      · rw [holds, htasks] at hq
        cases hq
      · rw [holds, hidle] at hq
        cases hq
    obtain ⟨hn,hopen⟩ := hledger.accepted client hclient
    obtain ⟨x,hx,rfl⟩ := List.mem_map.mp (hopen.resolve_right (not_exists.mpr hnone))
    rcases hledger.closed x hx with ⟨hconn,hhandled⟩ | ⟨-,hlow⟩
    · exact ⟨hhandled,hconn ▸ hx⟩
    · exact absurd hn (not_le.mpr hlow)
  · intro hsocks fd sock hfd
    have hmem := (hledger.listening fd sock hfd).1
    rw [hsocks] at hmem
    cases hmem

/-- A server with one socket, whose descriptor is 3. -/
def one : Serving (Fin 2) where
  mgr := .initial
  kernel fd := if fd = 3 then some (.listening 0) else none
  heap := [{ m_sock := some 3, m_family := 2, m_type := Socket.TCP, m_protocol := 0 }]
  refs _ := {}
  m_socks := [0]
  m_isStop := true
  tasks := []
  phase _ := .idle
  accepted := []
  handled := []
  closed := []

theorem bound_one : Bound one := by
  have hctx : ∀ fd, one.mgr.ctx fd = none := by
    intro fd
    have hstable : FdManager.Stable (FdManager.initial : FdManager (Fin 2)) := .initial
    rw [show one.mgr = .initial from rfl, hstable.ctx_eq_none, FdManager.initial, FdManager.slot,
      FdManager.join_resized (Nat.zero_le _)]
    rfl
  refine ⟨.init rfl,fun _ => rfl,fun fd c hc => ?_,fun fd sock => ?_,fun fd client => ?_,rfl,rfl,
    fun _ => rfl,fun _ => rfl,rfl,rfl,rfl,rfl⟩
  · rw [hctx] at hc
    cases hc
  · rcases sock with _ | sock
    · simp [one, m_sock, eq_comm]
    · simp [one, m_sock]
  · simp [one]

/-- The first client is closed by its handler, and the second one, which gets the same descriptor,
with the last reference, in `startAccept`. Then the server stops. -/
theorem serves_two : ∃ s : Serving (Fin 2), s.accepted = [2,1] ∧
    s.closed = [(0,some (.listening 0)),(2,some (.connection 2)),(1,some (.connection 1))] ∧
    s.tasks = [] ∧ Serves 120000 s := by
  obtain ⟨s,hs,haccepted,hclosed,htasks⟩ := Transition.Machine.exists_reaches
    (M := machine (Fin 2) 120000) (G := Orderly) bound_one
    ([.start,.take 0 0,.move 0 none,.move 0 (some 5)]++List.replicate 5 (.move 0 none)++
      [.take 1 0,.close 1]++List.replicate 3 (.move 1 none)++
      [.move 0 none,.move 1 none,.move 0 none,.move 0 (some 5)]++List.replicate 5 (.move 0 none)++
      [.take 1 0,.move 1 none,.stop,.take 1 0]++List.replicate 5 (.move 0 none)++
      List.replicate 4 (.move 1 none))
    (fun s => s.accepted = [2,1] ∧
      s.closed = [(0,some (.listening 0)),(2,some (.connection 2)),(1,some (.connection 1))] ∧
      s.tasks = [])
    (by decide +kernel) (by decide +kernel)
  exact ⟨s,haccepted,hclosed,htasks,serves hs⟩

end CoroutineWebserve.Serving
