import CoroutineWebserve.TcpServer.Frame

/-!
# Closing

The hooked `close`: the context goes before the descriptor, so that no new connection finds it.
-/
namespace CoroutineWebserve.Serving
variable {F : Type*} {v : UInt64} {n : ℕ} {s t : Serving F} {f g : F} {p : ServerPhase}
  {l o fd : ℕ}

/-- The end of a connection or of a listening socket. -/
theorem Ledger.close_f (h : Ledger v n s) {sock : ℕ} {c : Socket} (hc : s.heap[sock]? = some c)
    (hctx : s.mgr.ctx fd = none)
    (hkernel : (s.kernel fd = some (.connection sock) ∧ (s.view sock).handled) ∧ n ≤ sock ∨
      s.kernel fd = some (.listening sock) ∧ sock < n) : Ledger v n { s with
        kernel := Function.update s.kernel fd none
        closed := (sock,s.kernel fd) :: s.closed
        heap := s.heap.set sock { c with m_sock := none } } := by
  have hkept : ∀ fd' file, Function.update s.kernel fd none fd' = some file ↔
      fd' ≠ fd ∧ s.kernel fd' = some file := by
    intro fd' file
    by_cases hfd' : fd' = fd
    · simp [hfd']
    · simp [hfd']
  have hlt : sock < s.heap.length := (List.getElem?_eq_some_iff.mp hc).1
  have hopen : ¬(s.view sock).closed := by
    rcases hkernel with ⟨⟨hconn,-⟩,-⟩ | ⟨hlist,-⟩
    · exact (h.connection fd sock hconn).2
    · exact (h.listening fd sock hlist).2
  constructor
  · intro fd' c hc'
    obtain ⟨file,hfile,hsocket⟩ := h.managed fd' c hc'
    refine ⟨file,(hkept fd' file).mpr ⟨?_,hfile⟩,hsocket⟩
    rintro rfl
    cases hctx.symm.trans hc'
  · intro fd₁ fd₂ client h₁ h₂
    exact h.unique fd₁ fd₂ client ((hkept _ _).mp h₁).2 ((hkept _ _).mp h₂).2
  · intro fd' client hfd'
    obtain ⟨hne,hold⟩ := (hkept _ _).mp hfd'
    obtain ⟨hacc,hclosed⟩ := h.connection fd' client hold
    refine ⟨hacc,fun hmem => ?_⟩
    rcases List.mem_cons.mp hmem with rfl | hmem
    · rcases hkernel with ⟨⟨hconn,-⟩,-⟩ | ⟨-,hlow⟩
      · exact hne (h.unique fd' fd _ hold hconn)
      · exact absurd (h.accepted _ hacc).1 (not_le.mpr hlow)
    · exact hclosed hmem
  · intro fd' l hfd'
    obtain ⟨hne,hold⟩ := (hkept _ _).mp hfd'
    obtain ⟨hsocks,hclosed⟩ := h.listening fd' l hold
    refine ⟨hsocks,fun hmem => ?_⟩
    rcases List.mem_cons.mp hmem with rfl | hmem
    · rcases hkernel with ⟨-,hhigh⟩ | ⟨hlist,hlow⟩
      · exact absurd hhigh (not_le.mpr (h.m_socks _ hsocks))
      · obtain ⟨r,-,hiff⟩ := h.socks _ hlow
        exact hne (Option.some.inj (((hiff fd').mp hold).symm.trans ((hiff fd).mp hlist)))
    · exact hclosed hmem
  · intro l hl
    obtain ⟨r,hr,hiff⟩ := h.socks l hl
    by_cases heq : l = sock
    · subst heq
      refine ⟨none,m_sock?_eq_some.mpr ⟨_,List.getElem?_set_self hlt,rfl⟩,fun fd' => ?_⟩
      refine iff_of_false (fun hfd' => ?_) nofun
      obtain ⟨hne,hold⟩ := (hkept _ _).mp hfd'
      rcases hkernel with ⟨-,hhigh⟩ | ⟨hlist,-⟩
      · exact absurd hhigh (not_le.mpr hl)
      · exact hne (Option.some.inj (((hiff fd').mp hold).symm.trans ((hiff fd).mp hlist)))
    · refine ⟨r,?_,fun fd' => ?_⟩
      · obtain ⟨c',hc',hm_sock⟩ := m_sock?_eq_some.mp hr
        exact m_sock?_eq_some.mpr ⟨c',(List.getElem?_set_ne (Ne.symm heq)).trans hc',hm_sock⟩
      · rw [hkept, ← hiff]
        refine and_iff_right_of_imp ?_
        rintro hold rfl
        rcases hkernel with ⟨⟨hconn,-⟩,-⟩ | ⟨hlist,-⟩
        · cases hconn.symm.trans hold
        · cases hlist.symm.trans hold
          exact heq rfl
  · exact h.m_socks
  · intro client hclient
    obtain ⟨hhigh,hold⟩ := h.accepted client hclient
    refine ⟨hhigh,?_⟩
    rcases hold with hclosed | ⟨fd',hfd'⟩
    · exact .inl (List.mem_cons_of_mem _ hclosed)
    · by_cases heq : fd' = fd
      · subst heq
        rcases hkernel with ⟨⟨hconn,-⟩,-⟩ | ⟨hlist,-⟩
        · cases hconn.symm.trans hfd'
          exact .inl List.mem_cons_self
        · cases hlist.symm.trans hfd'
      · exact .inr ⟨fd',(hkept _ _).mpr ⟨heq,hfd'⟩⟩
  · exact h.nodup_accepted
  · exact h.handled
  · exact h.nodup_handled
  · intro x hx
    rcases List.mem_cons.mp hx with rfl | hx
    · exact hkernel.imp_left And.left
    · exact h.closed x hx
  · exact List.nodup_cons.mpr ⟨hopen,h.nodup_closed⟩
  · intro sock' hsock'
    simp only [List.length_set]
    rcases hsock' with hacc | hclosed
    · exact h.allocated sock' (.inl hacc)
    · rcases List.mem_cons.mp hclosed with rfl | hclosed
      · exact hlt
      · exact h.allocated sock' (.inr hclosed)

namespace Inv
variable [DecidableEq F]

/-- The context is looked for. -/
theorem closeGet (h : Inv v n s) {sock : ℕ} {k : AfterClose} (hp : s.phase f = .close sock fd k)
    (hs : (s.withGet f (some fd)).map
      (·.goto f (if (s.mgr.lookup fd).isSome then .del sock fd k else .close_f sock fd k)) =
        some t) : Inv v n t := by
  obtain ⟨mgr,hget,hctx,-,h'⟩ := h.withGet (f := f) (by rw [hp]; rfl) (some fd)
  have hp' : phase { s with mgr } f = .close sock fd k := hp
  have hfits := h'.fits f
  have hok := h'.phases f
  rw [hp'] at hfits hok
  rw [hget] at hs
  cases hs
  split_ifs with hsome
  · exact h'.goto (by rw [hp']; rfl) (by rw [hp']; rfl) (by rw [hp']; rfl) hfits hok
  · refine h'.goto (by rw [hp']; rfl) (by rw [hp']; rfl) (by rw [hp']; rfl) hfits ⟨hok,?_⟩
    rw [h.stable.lookup_isSome] at hsome
    exact (congrFun hctx fd).trans (Option.not_isSome_iff_eq_none.mp hsome)

/-- The context goes. -/
theorem del (h : Inv v n s) {sock : ℕ} {k : AfterClose} (hp : s.phase f = .del sock fd k)
    (hs : (s.mgr.step (.del fd)).map (fun mgr => { s with mgr }.goto f (.close_f sock fd k)) =
      some t) : Inv v n t := by
  have hfits := h.fits f
  have hok := h.phases f
  rw [hp] at hfits hok
  obtain ⟨mgr,hstep,hctx,hcreating⟩ := FdManager.step_del h.stable fd
  rw [hstep] at hs
  cases hs
  have hgone : mgr.ctx fd = none := (hctx fd).trans (if_pos rfl)
  have hmgr : (FdManager.machine F).Reaches FdManager.StillNull mgr :=
    h.mgr.step (i := .del fd) trivial hstep
  have hcreating := hcreating.trans (h.creating_eq (p := .close_f sock fd k) (by rw [hp]; rfl))
  have hclient : (s.view sock).Closing fd → k.right sock = some sock →
      Inv v n ({ s with mgr }.goto f (.close_f sock fd k)) := by
    intro hclosing hright
    have hkernel : s.kernel fd = some (.connection sock) := file_isSome.mp hclosing.file
    refine h.actMgr ?_ hkernel (by rw [hp]; rfl) (by rw [hp]; rfl) hmgr
      hcreating (fun fd' hfd' => (hctx fd').trans (if_neg hfd')) (by rw [hclosing.m_sock]; rfl)
      hfits ⟨?_,hgone⟩
    · rw [hp]
      exact List.mem_singleton.mpr hright.symm
    · have hclosing' : (view { s with mgr } sock).Closing fd :=
        ⟨hclosing.handled,hclosing.m_sock,file_isSome.mpr hkernel⟩
      cases k with
      | stop _ => cases hright
      | loop _ | done => exact ⟨hclosing',hok.2⟩
      | handleClient _ => exact ⟨hok.1,hclosing',hok.2.2⟩
  cases k with
  | loop _ | done => exact hclient hok.1 rfl
  | handleClient _ => exact hclient hok.2.1 rfl
  | stop socks =>
    obtain ⟨⟨c,hc⟩,hrest⟩ := hok
    obtain ⟨hkernel,-⟩ := listening_eq_some.mp hc
    have hfrom : none ∈ s.holds (some f) := by
      rw [holds, hp]
      exact List.mem_cons_self
    have hview : ∀ o, view ({ s with mgr }.goto f (.close_f sock fd (.stop socks))) o =
        s.view o := by
      refine fun o => view_congr rfl rfl .rfl .rfl .rfl fun fd' c => and_congr_right fun hfd' => ?_
      have hne : fd' ≠ fd := by
        rintro rfl
        cases hkernel.symm.trans hfd'
      exact ((hctx fd').trans (if_neg hne)).symm ▸ .rfl
    obtain ⟨hothers,htasks⟩ := h.othersStop hfrom fun o _ => hview o
    refine h.keep rfl rfl rfl (by rw [hp]; rfl) (by rw [hp]; rfl) hmgr hcreating h.owned hfits
      ⟨⟨⟨none,listening_eq_some.mpr ⟨hkernel,hgone⟩⟩,?_⟩,hgone⟩
      (fun g hg => hothers g (by simpa using hg)) htasks ?_
    · intro fd' l c hfd'
      exact hrest fd' l _ (listening_eq_some.mpr ⟨(listening_eq_some.mp hfd').1,rfl⟩)
    · refine h.ledger.congr rfl (fun fd' c hc => ⟨c,?_⟩) rfl rfl rfl rfl le_rfl fun _ _ => rfl
      by_cases hfd' : fd' = fd
      · rw [goto_mgr, hfd', hgone] at hc
        cases hc
      · rwa [goto_mgr, hctx, if_neg hfd'] at hc

/-- The connection of a client ends. -/
theorem disconnect (h : Inv v n s) {k : AfterClose} (hp : s.phase f = .close_f o fd k)
    (hright : k.right o = some o) (hclosing : (s.view o).Closing fd) (hn : n ≤ o) {c : Socket}
    (hc : s.heap[o]? = some c) (ht : t = { s with
      kernel := Function.update s.kernel fd none
      closed := (o,s.kernel fd) :: s.closed
      heap := s.heap.set o { c with m_sock := none } }.goto f k.phase) : Inv v n t := by
  have hok := h.phases f
  have hfits := h.fits f
  rw [hp] at hok hfits
  have hkernel := file_isSome.mp hclosing.file
  have hfrom : s.holds (some f) = [some o] := by
    rw [holds, hp]
    exact congrArg (fun r => [r]) hright
  have hphase : t.phase = Function.update s.phase f k.phase := by
    rw [ht]
    rfl
  have hrefs : t.refs = s.refs := by
    rw [ht]
    rfl
  have hself : t.holds (some f) = k.phase.rights s.refs := by rw [holds_self hphase, hrefs]
  have hqueue : t.holds none = s.holds none := by
    rw [ht]
    rfl
  have hother : ∀ g, g ≠ f → t.holds (some g) = s.holds (some g) :=
    fun g hg => holds_of_ne hphase hg fun l' o' _ => by rw [hrefs]
  have hplaces : ∀ q, q ≠ some f → (t.holds q).Perm (s.holds q) := by
    rintro (_ | g) hg
    · rw [hqueue]
    · rw [hother g (by simpa using hg)]
  have hview : ∀ o', o' ≠ o → t.view o' = s.view o' := by
    intro o' ho'
    subst ht
    refine view_congr (congrArg (Option.map Socket.m_sock) (List.getElem?_set_ne ho'.symm)) rfl .rfl
      .rfl (by simp [ho']) fun fd' c => ?_
    by_cases hfd' : fd' = fd
    · simp [hfd', hkernel, Ne.symm ho']
    · simp [hfd']
  have hlistening : t.listening = s.listening := by
    subst ht
    refine listening_congr fun fd' l c => ?_
    by_cases hfd' : fd' = fd
    · simp [hfd', hkernel]
    · simp [hfd']
  have hclosed : (t.view o).m_sock = some none ∧ (t.view o).closed := by
    subst ht
    have hlt := (List.getElem?_eq_some_iff.mp hc).1
    exact ⟨m_sock?_eq_some.mpr ⟨_,List.getElem?_set_self hlt,rfl⟩,List.mem_cons_self⟩
  have hgone : ∀ fd' client, t.kernel fd' = some (.connection client) →
      client ≠ o ∧ s.kernel fd' = some (.connection client) := by
    intro fd' client hfd'
    subst ht
    by_cases heq : fd' = fd
    · simp [heq] at hfd'
    · replace hfd' : s.kernel fd' = some (.connection client) := by simpa [heq] using hfd'
      refine ⟨?_,hfd'⟩
      rintro rfl
      exact heq (h.ledger.unique fd' fd client hfd' hkernel)
  obtain ⟨hothers,htasks⟩ := h.others (t := t) (q := some f) (o := o)
    (hfrom ▸ List.mem_cons_self) hview hlistening fun l' g _ hg _ => by
      have hnext := h.phases g
      rw [hg] at hnext
      have hrefs' : (t.view o).refs = (s.view o).refs := congrFun hrefs o
      refine ⟨by rw [hclosed.1]; rfl,ht ▸ hnext.2.1,hrefs' ▸ hnext.2.2.1,fun _ => ?_⟩
      exact ⟨ht ▸ hclosing.handled,.inr hclosed⟩
  have hreferred : ∀ o', (t.refs o').client = true → k.phase.client = some o' ∨
      (s.phase f).client ≠ some o' ∧ (s.refs o').client = true := by
    intro o' ho'
    rw [hrefs] at ho'
    rw [hp]
    exact .inr ⟨by rintro ⟨⟩,ho'⟩
  have hledger : Ledger v n t := by
    rw [ht]
    exact (h.ledger.close_f hc hok.2 (.inl ⟨⟨hkernel,hclosing.handled⟩,hn⟩)).congr rfl
      (fun fd c hc => ⟨c,hc⟩) rfl rfl rfl rfl le_rfl fun _ _ => rfl
  have hwaiting : ∀ task ∈ t.tasks, task.Fits n ∧ t.OkTask v task := by
    rw [ht]
    exact fun task htask => ⟨(h.tasks task htask).1,ht ▸ htasks (by simp) task htask⟩
  -- A handler has the right still, and a destructor has given it up.
  have hleaves : k.phase.rights s.refs = [] → k.phase.client = none → k.phase.creating = none →
      k.phase.Fits n → t.Ok v k.phase → Inv v n t := by
    intro hrights hclient hcreating hfits hok
    refine h.advance hphase (ht ▸ h.mgr) (ht ▸ h.creating_eq (by rw [hp, hcreating]; rfl)) ?_ ?_
      (by simp [hclient]) hreferred hfits hok (fun g hg => hothers g (by simpa using hg)) hwaiting
      hledger
    · exact (h.exclusive.remove (p := some f) (c := some o) (by rw [hself, hrights, hfrom])
        hplaces).1
    · intro fd' client hfd'
      obtain ⟨hne,hold⟩ := hgone fd' client hfd'
      obtain ⟨q,hq⟩ := h.owned fd' client hold
      refine ⟨q,(hplaces q ?_).mem_iff.mpr hq⟩
      rintro rfl
      rw [hfrom, List.mem_singleton, Option.some_inj] at hq
      exact hne hq
  cases k with
  | stop _ => cases hright
  | loop l => exact hleaves rfl rfl rfl hfits.1 trivial
  | done => exact hleaves rfl rfl rfl trivial trivial
  | handleClient client =>
    obtain ⟨rfl,-,hcallback⟩ := hok.1
    have hplaces' : ∀ q, (t.holds q).Perm (s.holds q) := by
      intro q
      by_cases hq : q = some f
      · rw [hq, hself, hfrom]
        rfl
      · exact hplaces q hq
    refine h.advance hphase (ht ▸ h.mgr) (ht ▸ h.creating_eq (by rw [hp]; rfl))
      (h.exclusive.perm hplaces') (fun fd' client' hfd' => ?_) (by rintro _ ⟨⟩) hreferred hfits
      ⟨⟨ht ▸ hclosing.handled,.inr hclosed⟩,?_⟩ (fun g hg => hothers g (by simpa using hg)) hwaiting
      hledger
    · obtain ⟨q,hq⟩ := h.owned fd' client' (hgone fd' client' hfd').2
      exact ⟨q,(hplaces' q).mem_iff.mpr hq⟩
    · exact (congrArg Refs.callback (congrFun hrefs client)).trans hcallback

/-- A listening socket is closed. -/
theorem unlisten (h : Inv v n s) {socks : List ℕ} (hp : s.phase f = .close_f l fd (.stop socks))
    {c : Socket} (hc : s.heap[l]? = some c) (ht : t = { s with
      kernel := Function.update s.kernel fd none
      closed := (l,s.kernel fd) :: s.closed
      heap := s.heap.set l { c with m_sock := none } }.goto f (.stop socks)) : Inv v n t := by
  have hok := h.phases f
  have hfits := h.fits f
  rw [hp] at hok hfits
  obtain ⟨⟨⟨x,hx⟩,hrest⟩,hctx⟩ := hok
  obtain ⟨hl,hsocks⟩ := hfits
  obtain ⟨hkernel,-⟩ := listening_eq_some.mp hx
  have hfrom : none ∈ s.holds (some f) := by
    rw [holds, hp]
    exact List.mem_cons_self
  have hkept : ∀ fd' file, t.kernel fd' = some file → fd' ≠ fd ∧ s.kernel fd' = some file := by
    intro fd' file hfd'
    subst ht
    by_cases heq : fd' = fd
    · simp [heq] at hfd'
    · exact ⟨heq,by simpa [heq] using hfd'⟩
  have hview : ∀ o, n ≤ o → t.view o = s.view o := by
    intro o ho
    have hne : o ≠ l := (hl.trans_le ho).ne'
    subst ht
    refine view_congr (congrArg (Option.map Socket.m_sock) (List.getElem?_set_ne hne.symm)) rfl .rfl
      .rfl (by simp [hne]) fun fd' c => ?_
    by_cases hfd' : fd' = fd
    · simp [hfd', hkernel]
    · simp [hfd']
  obtain ⟨hothers,htasks⟩ := h.othersStop hfrom hview
  refine h.keep (f := f) (p := .stop socks) (ht ▸ rfl) (ht ▸ rfl) (ht ▸ rfl) (by rw [hp]; rfl)
    (by rw [hp]; rfl) (ht ▸ h.mgr) (ht ▸ h.creating_eq (by rw [hp]; rfl))
    (fun fd' client hfd' => h.owned fd' client (hkept fd' _ hfd').2) hsocks ?_
    (fun g hg => hothers g (by simpa using hg)) htasks ?_
  · intro fd' l' c' hfd'
    obtain ⟨hne,hold⟩ := hkept fd' _ (listening_eq_some.mp hfd').1
    refine (hrest fd' l' _ (listening_eq_some.mpr ⟨hold,rfl⟩)).resolve_left ?_
    rintro rfl
    obtain ⟨r,-,hiff⟩ := h.ledger.socks l' hl
    exact hne (Option.some.inj (((hiff fd').mp hold).symm.trans ((hiff fd).mp hkernel)))
  · rw [ht]
    exact (h.ledger.close_f hc hctx (.inr ⟨hkernel,hl⟩)).congr rfl (fun fd c hc => ⟨c,hc⟩) rfl rfl
      rfl rfl le_rfl fun _ _ => rfl

theorem close_f (h : Inv v n s) {sock : ℕ} {k : AfterClose} (hp : s.phase f = .close_f sock fd k)
    (hs : s.close_f f sock fd k = some t) : Inv v n t := by
  obtain ⟨c,hc,ht⟩ := Option.map_eq_some_iff.mp hs
  have hok := h.phases f
  have hfits := h.fits f
  rw [hp] at hok hfits
  cases k with
  | stop socks => exact h.unlisten hp hc ht.symm
  | loop l => exact h.disconnect hp rfl hok.1.1 hfits.2 hc ht.symm
  | done => exact h.disconnect hp rfl hok.1.1 hfits hc ht.symm
  | handleClient client => exact h.disconnect hp rfl hok.1.2.1 hfits hc ht.symm

end Inv
end CoroutineWebserve.Serving
