import CoroutineWebserve.TcpServer.Custody

/-!
# Steps and custody

A step of a fiber concerns one `Socket`, which the fiber has the right to close, or the listening
sockets. What the others rely on stays.
-/
namespace CoroutineWebserve.Serving
variable {F : Type*} {v : UInt64} {n : ℕ} {s t : Serving F} {f g : F} {p : ServerPhase}
  {l o fd : ℕ}

namespace Inv
variable [DecidableEq F]

theorem le_of_object (h : Inv v n s) (ho : (s.phase g).object = some o) : n ≤ o := by
  have hfits := h.fits g
  revert hfits ho
  cases s.phase g with
  | idle | loop _ | stop _ => nofun
  | handleClient client =>
    rintro ⟨⟩ hfits
    exact hfits
  | accept _ _ _ | get _ _ _ | create _ _ _ | init _ _ _ | setRecvTimeout _ _ | schedule _ _
  | next _ _ =>
    rintro ⟨⟩ hfits
    exact hfits.2
  | close sock _ k | del sock _ k | close_f sock _ k =>
    intro ho hfits
    cases k with
    | stop _ => cases ho
    | loop _ =>
      cases ho
      exact hfits.2
    | handleClient _ | done =>
      cases ho
      exact hfits

/-- Who has not the right to close a `Socket` does not rely on it. -/
theorem others (h : Inv v n s) {q : Option F} (ho : some o ∈ s.holds q)
    (hview : ∀ o', o' ≠ o → t.view o' = s.view o') (hlistening : t.listening = s.listening)
    (hnext : ∀ l g, some g ≠ q → s.phase g = .next l o → (s.refs o).callback = true →
      t.Ok v (.next l o)) :
    (∀ g, some g ≠ q → t.Ok v (s.phase g)) ∧
      (q ≠ none → ∀ task ∈ s.tasks, t.OkTask v task) := by
  constructor
  · intro g hg
    by_cases hobject : (s.phase g).object = some o
    · rcases rights_of_object hobject s.refs with hright | ⟨l,hl,hcallback⟩
      · exact absurd (h.exclusive.place_eq (p := some g) hright ho) hg
      · rw [hl]
        exact hnext l g hg hl hcallback
    · refine (h.phases g).congr (fun o' ho' => hview o' ?_) fun _ => hlistening
      rintro rfl
      exact hobject ho'
  · intro hq task htask
    refine (h.tasks task htask).2.congr fun o' ho' => hview o' ?_
    rintro rfl
    have hnone : some o' ∈ s.holds none := List.mem_flatMap.mpr ⟨task,htask,ho'⟩
    exact hq (h.exclusive.place_eq ho hnone)

/-- Who has not the right to close the listening sockets does not rely on them. -/
theorem othersStop (h : Inv v n s) {q : Option F} (ho : none ∈ s.holds q)
    (hview : ∀ o', n ≤ o' → t.view o' = s.view o') : (∀ g, some g ≠ q → t.Ok v (s.phase g)) ∧
      ∀ task ∈ s.tasks, t.OkTask v task := by
  constructor
  · intro g hg
    refine (h.phases g).congr (fun o' ho' => hview o' (h.le_of_object ho')) fun hnone => ?_
    exact absurd (h.exclusive.place_eq (p := some g) hnone ho) hg
  · intro task htask
    refine (h.tasks task htask).2.congr fun o' ho' => hview o' ?_
    cases task with
    | startAccept _ => cases ho'
    | stop => cases List.mem_singleton.mp ho'
    | handleClient client =>
      cases List.mem_singleton.mp ho'
      exact (h.tasks _ htask).1

/-- A fiber goes on. Its rights change, and a reference comes to it or is given up. -/
theorem advance (h : Inv v n s) (hphase : t.phase = Function.update s.phase f p)
    (hmgr : (FdManager.machine F).Reaches FdManager.StillNull t.mgr)
    (hcreating : t.mgr.creating = Function.update s.mgr.creating f p.creating)
    (hexclusive : Transition.Exclusive t.holds)
    (howned : ∀ fd client, t.kernel fd = some (.connection client) →
      ∃ q, some client ∈ t.holds q)
    (hclient : ∀ o, p.client = some o →
      (s.phase f).client = some o ∨ ∀ g, (s.phase g).client ≠ some o)
    (hreferred : ∀ o, (t.refs o).client = true →
      p.client = some o ∨ (s.phase f).client ≠ some o ∧ (s.refs o).client = true)
    (hfits : p.Fits n) (hok : t.Ok v p) (hothers : ∀ g, g ≠ f → t.Ok v (s.phase g))
    (htasks : ∀ task ∈ t.tasks, task.Fits n ∧ t.OkTask v task) (hledger : Ledger v n t) :
    Inv v n t := by
  have hself : t.phase f = p := by rw [hphase, Function.update_self]
  have hne : ∀ g, g ≠ f → t.phase g = s.phase g := by
    intro g hg
    rw [hphase, Function.update_of_ne hg]
  have hboth : ∀ g o, g ≠ f → p.client = some o → (s.phase g).client ≠ some o := by
    intro g o hg ho hgo
    rcases hclient o ho with hfo | hnone
    · exact hg (h.client g f o hgo hfo)
    · exact hnone g hgo
  refine ⟨hmgr,fun g => ?_,hexclusive,howned,?_,fun o ho => ?_,fun g => ?_,fun g => ?_,htasks,
    hledger⟩
  · rw [hcreating]
    by_cases hg : g = f
    · rw [hg, Function.update_self, hself]
    · rw [Function.update_of_ne hg, hne g hg]
      exact h.creating g
  · intro g g' o hg hg'
    by_cases hgf : g = f
    · by_cases hgf' : g' = f
      · rw [hgf, hgf']
      · rw [hgf, hself] at hg
        rw [hne g' hgf'] at hg'
        exact absurd hg' (hboth g' o hgf' hg)
    · rw [hne g hgf] at hg
      by_cases hgf' : g' = f
      · rw [hgf', hself] at hg'
        exact absurd hg (hboth g o hgf hg')
      · rw [hne g' hgf'] at hg'
        exact h.client g g' o hg hg'
  · rcases hreferred o ho with hp | ⟨hf,href⟩
    · exact ⟨f,hself ▸ hp⟩
    · obtain ⟨g,hg⟩ := h.referred o href
      have hgf : g ≠ f := by
        rintro rfl
        exact hf hg
      exact ⟨g,(hne g hgf).symm ▸ hg⟩
  · by_cases hg : g = f
    · rw [hg, hself]
      exact hfits
    · rw [hne g hg]
      exact h.fits g
  · by_cases hg : g = f
    · rw [hg, hself]
      exact hok
    · rw [hne g hg]
      exact hothers g hg

/-- A fiber goes on, and keeps what it has. -/
theorem keep (h : Inv v n s) (hphase : t.phase = Function.update s.phase f p)
    (htasks : t.tasks = s.tasks) (hrefs : t.refs = s.refs)
    (hrights : p.rights s.refs = (s.phase f).rights s.refs)
    (hclient : p.client = (s.phase f).client)
    (hmgr : (FdManager.machine F).Reaches FdManager.StillNull t.mgr)
    (hcreating : t.mgr.creating = Function.update s.mgr.creating f p.creating)
    (howned : ∀ fd client, t.kernel fd = some (.connection client) →
      ∃ q, some client ∈ s.holds q)
    (hfits : p.Fits n) (hok : t.Ok v p) (hothers : ∀ g, g ≠ f → t.Ok v (s.phase g))
    (htask : ∀ task ∈ s.tasks, t.OkTask v task) (hledger : Ledger v n t) : Inv v n t := by
  have hholds : t.holds = s.holds := by
    funext q
    cases q with
    | none => rw [holds, holds, htasks]
    | some g =>
      rw [holds, holds, hphase, hrefs]
      by_cases hg : g = f
      · rw [hg, Function.update_self, hrights]
      · rw [Function.update_of_ne hg]
  refine h.advance hphase hmgr hcreating (hholds ▸ h.exclusive) (hholds ▸ howned)
    (fun o ho => .inl (hclient ▸ ho)) (fun o ho => ?_) hfits hok hothers
    (fun task hmem => ?_) hledger
  · rw [hrefs] at ho
    by_cases hp : p.client = some o
    · exact .inl hp
    · exact .inr ⟨fun hf => hp (hclient.trans hf),ho⟩
  · rw [htasks] at hmem
    exact ⟨(h.tasks task hmem).1,htask task hmem⟩

/-- What happens outside of the fibers. -/
theorem external (h : Inv v n s) (hphase : t.phase = s.phase) (hrefs : t.refs = s.refs)
    (hmgr : t.mgr = s.mgr) (hexclusive : Transition.Exclusive t.holds)
    (hkernel : ∀ fd client, t.kernel fd = some (.connection client) →
      s.kernel fd = some (.connection client))
    (hholds : ∀ q r, r ∈ s.holds q → r ∈ t.holds q) (hview : t.view = s.view)
    (hlistening : t.listening = s.listening)
    (htasks : ∀ task ∈ t.tasks, task ∈ s.tasks ∨ task.Fits n ∧ t.OkTask v task)
    (hledger : Ledger v n t) : Inv v n t := by
  refine ⟨hmgr ▸ h.mgr,?_,hexclusive,fun fd client hfd => ?_,?_,?_,?_,fun f => ?_,?_,hledger⟩
  · rw [hmgr, hphase]
    exact h.creating
  · obtain ⟨q,hq⟩ := h.owned fd client (hkernel fd client hfd)
    exact ⟨q,hholds q _ hq⟩
  · rw [hphase]
    exact h.client
  · rw [hphase, hrefs]
    exact h.referred
  · rw [hphase]
    exact h.fits
  · rw [hphase]
    exact (h.phases f).congr (fun o _ => congrFun hview o) fun _ => hlistening
  · intro task htask
    rcases htasks task htask with hold | hnew
    · exact ⟨(h.tasks task hold).1,(h.tasks task hold).2.congr fun o _ => congrFun hview o⟩
    · exact hnew

theorem goto (h : Inv v n s) (hrights : p.rights s.refs = (s.phase f).rights s.refs)
    (hclient : p.client = (s.phase f).client) (hcreating : p.creating = (s.phase f).creating)
    (hfits : p.Fits n) (hok : s.Ok v p) : Inv v n (s.goto f p) := by
  have hsame : ∀ q, s.Ok v q → (s.goto f p).Ok v q := fun q hq => hq.congr (fun _ _ => rfl) fun _ => rfl
  refine h.keep rfl rfl rfl hrights hclient h.mgr ?_ h.owned hfits (hsame p hok)
    (fun g _ => hsame _ (h.phases g))
    (fun task htask => (h.tasks task htask).2.congr fun _ _ => rfl)
    (h.ledger.congr rfl (fun fd c hc => ⟨c,hc⟩) rfl rfl rfl rfl le_rfl fun _ _ => rfl)
  rw [hcreating, ← h.creating f, Function.update_eq_self]
  rfl

/-- Where a fiber stands in `get` does not change. -/
theorem creating_eq (h : Inv v n s) (hcreating : (s.phase f).creating = p.creating) :
    s.mgr.creating = Function.update s.mgr.creating f p.creating := by
  rw [← hcreating, ← h.creating f, Function.update_eq_self]

/-- A call that only looks for a context. -/
theorem withGet (h : Inv v n s) (hcreating : (s.phase f).creating = none) (fd : Option ℕ) :
    ∃ mgr, s.withGet f fd = some { s with mgr } ∧ mgr.ctx = s.mgr.ctx ∧
      mgr.lookup = s.mgr.lookup ∧ Inv v n { s with mgr } := by
  have hbusy := (h.creating f).trans hcreating
  obtain ⟨mgr,hstep,hctx,hlookup,hmgr,hcreating⟩ : ∃ mgr, s.withGet f fd = some { s with mgr } ∧
      mgr.ctx = s.mgr.ctx ∧ mgr.lookup = s.mgr.lookup ∧
      (FdManager.machine F).Reaches FdManager.StillNull mgr ∧
      mgr.creating = s.mgr.creating := by
    cases fd with
    | none => exact ⟨s.mgr,rfl,rfl,rfl,h.mgr,rfl⟩
    | some fd =>
      obtain ⟨mgr,hstep,hctx,hlookup,hcreating⟩ := FdManager.step_get hbusy fd
      refine ⟨mgr,?_,hctx,hlookup,h.mgr.step (i := .get f fd false) trivial hstep,hcreating⟩
      rw [Serving.withGet, hstep]
      rfl
  have hview : ∀ o, view { s with mgr } o = s.view o := by
    refine fun o => view_congr rfl rfl .rfl .rfl .rfl fun fd c => ?_
    rw [hctx]
  have hlistening : listening { s with mgr } = s.listening := by
    funext fd
    simp only [listening, hctx]
  have hok : ∀ q, s.Ok v q → Ok v { s with mgr } q :=
    fun q hq => hq.congr (fun o _ => hview o) fun _ => hlistening
  refine ⟨mgr,hstep,hctx,hlookup,?_⟩
  refine h.keep (f := f) (p := s.phase f) ?_ rfl rfl rfl rfl hmgr ?_ h.owned (h.fits f)
    (hok _ (h.phases f)) (fun g _ => hok _ (h.phases g))
    (fun task htask => (h.tasks task htask).2.congr fun o _ => hview o)
    (h.ledger.congr rfl (fun fd c hc => ⟨c,hctx ▸ hc⟩) rfl rfl rfl rfl le_rfl fun _ _ => rfl)
  · rw [Function.update_eq_self]
  · rw [hcreating, ← h.creating f, Function.update_eq_self]

/-- A fiber goes on with a `Socket` that it has the right to close. -/
theorem act (h : Inv v n s) (ho : some o ∈ (s.phase f).rights s.refs)
    (hphase : t.phase = Function.update s.phase f p) (htasks : t.tasks = s.tasks)
    (hrefs : t.refs = s.refs) (hrights : p.rights s.refs = (s.phase f).rights s.refs)
    (hclient : p.client = (s.phase f).client)
    (hmgr : (FdManager.machine F).Reaches FdManager.StillNull t.mgr)
    (hcreating : t.mgr.creating = Function.update s.mgr.creating f p.creating)
    (hview : ∀ o', o' ≠ o → t.view o' = s.view o') (hlistening : t.listening = s.listening)
    (hm_sock : (t.view o).m_sock.isSome) (haccepted : (s.view o).accepted → (t.view o).accepted)
    (hfits : p.Fits n) (hok : t.Ok v p) (hledger : Ledger v n t) : Inv v n t := by
  obtain ⟨hothers,htask⟩ := h.others (q := some f) ho hview hlistening fun l g _ hg hcallback => by
    have hnext := h.phases g
    rw [hg] at hnext
    have hrefs' : (t.view o).refs = (s.view o).refs := congrFun hrefs o
    refine ⟨hm_sock,haccepted hnext.2.1,?_,fun hfalse => ?_⟩
    · rw [hrefs']
      exact hnext.2.2.1
    · rw [hrefs'] at hfalse
      exact absurd (hcallback.symm.trans hfalse) (by decide)
  refine h.keep hphase htasks hrefs hrights hclient hmgr hcreating ?_ hfits hok
    (fun g hg => hothers g (by simpa using hg)) (htask (by simp)) hledger
  intro fd client hfd
  by_cases hc : client = o
  · exact ⟨some f,hc ▸ ho⟩
  · have hfile := file_isSome.mpr hfd
    rw [hview client hc] at hfile
    exact h.owned fd client (file_isSome.mp hfile)

theorem stable (h : Inv v n s) : s.mgr.Stable := FdManager.stable_of_reaches h.mgr

theorem lookup_eq_none (h : Inv v n s) (hctx : s.mgr.ctx fd = none) : s.mgr.lookup fd = none := by
  have hsome := h.stable.lookup_isSome fd
  rw [hctx] at hsome
  exact Option.not_isSome_iff_eq_none.mp fun hlookup => by simp [hsome] at hlookup

/-- A fiber that has the right to close a client changes the context of its descriptor. -/
theorem actMgr (h : Inv v n s) {mgr : FdManager F}
    (ho : some o ∈ (s.phase f).rights s.refs) (hkernel : s.kernel fd = some (.connection o))
    (hrights : p.rights s.refs = (s.phase f).rights s.refs)
    (hclient : p.client = (s.phase f).client)
    (hmgr : (FdManager.machine F).Reaches FdManager.StillNull mgr)
    (hcreating : mgr.creating = Function.update s.mgr.creating f p.creating)
    (hctx : ∀ fd', fd' ≠ fd → mgr.ctx fd' = s.mgr.ctx fd') (hm_sock : (s.view o).m_sock.isSome)
    (hfits : p.Fits n) (hok : Ok v ({ s with mgr }.goto f p) p) : Inv v n ({ s with mgr }.goto f p) := by
  have hother : ∀ fd' file, s.kernel fd' = some file → file ≠ .connection o →
      mgr.ctx fd' = s.mgr.ctx fd' := by
    refine fun fd' file hfd' hne => hctx fd' ?_
    rintro rfl
    exact hne (Option.some.inj (hfd'.symm.trans hkernel))
  refine h.act ho rfl rfl rfl hrights hclient hmgr hcreating ?_ ?_ hm_sock id hfits
    hok ?_
  · refine fun o' ho' => view_congr rfl rfl .rfl .rfl .rfl fun fd' c => and_congr_right fun hfd' => ?_
    rw [goto_mgr, hother fd' _ hfd' (by simpa using ho')]
  · refine listening_congr fun fd' sock c => and_congr_right fun hfd' => ?_
    rw [goto_mgr, hother fd' _ hfd' (by simp)]
  · have hledger := h.ledger
    refine ⟨fun fd' c hc => ?_,hledger.unique,hledger.connection,hledger.listening,hledger.socks,
      hledger.m_socks,hledger.accepted,hledger.nodup_accepted,hledger.handled,
      hledger.nodup_handled,hledger.closed,hledger.nodup_closed,hledger.allocated⟩
    by_cases hfd' : fd' = fd
    · exact ⟨_,hfd' ▸ hkernel,rfl⟩
    · exact hledger.managed fd' c (hctx fd' hfd' ▸ hc)

/-! ### Rights that move -/

/-- The other fibers have the rights that they had. -/
theorem holds_of_ne (hphase : t.phase = Function.update s.phase f p) (hg : g ≠ f)
    (hnext : ∀ l o, s.phase g = .next l o → (t.refs o).callback = (s.refs o).callback) :
    t.holds (some g) = s.holds (some g) := by
  rw [holds, holds, hphase, Function.update_of_ne hg]
  cases hp : s.phase g with
  | next l o => simp [ServerPhase.rights, hnext l o hp]
  | _ => rfl

theorem holds_self (hphase : t.phase = Function.update s.phase f p) :
    t.holds (some f) = p.rights t.refs := by
  rw [holds, hphase, Function.update_self]

/-- There is one variable for a client. -/
theorem ne_next (h : Inv v n s) (ho : (s.phase f).client = some o) (hg : g ≠ f) :
    ∀ l, s.phase g ≠ .next l o := by
  intro l hl
  exact hg (h.client g f o (by rw [hl]; rfl) ho)

end Inv
end CoroutineWebserve.Serving
