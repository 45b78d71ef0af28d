import CoroutineWebserve.TcpServer.Frame

/-!
# Accepting

From the `Socket` of `Socket::accept` to the callback: the new connection has no context, gets a new
one, and is not given up.
-/
namespace CoroutineWebserve.Serving
variable {F : Type*} {v : UInt64} {n : ℕ} {s t : Serving F} {f g : F} {p : ServerPhase}
  {l o fd : ℕ}

/-- A new connection. -/
theorem Ledger.accept (h : Ledger v n s) (hfree : s.kernel fd = none) (hnew : (s.view o).New)
    (ho : n ≤ o) (hfresh : ¬(s.view o).accepted) : Ledger v n { s with
      kernel := Function.update s.kernel fd (some (.connection o))
      accepted := o :: s.accepted } := by
  have hkernel : ∀ fd' file, Function.update s.kernel fd (some (.connection o)) fd' = some file ↔
      fd' = fd ∧ file = .connection o ∨ s.kernel fd' = some file := by
    intro fd' file
    by_cases hfd' : fd' = fd
    · subst hfd'
      simp [hfree, eq_comm]
    · simp [hfd']
  have hlistening : ∀ fd' sock, Function.update s.kernel fd (some (.connection o)) fd' =
      some (.listening sock) ↔ s.kernel fd' = some (.listening sock) := by
    simp [hkernel]
  have hno : ∀ fd', s.kernel fd' ≠ some (.connection o) := fun fd' hfd' =>
    hfresh (h.connection fd' o hfd').1
  constructor
  · intro fd' c hc
    obtain ⟨file,hfile,hsocket⟩ := h.managed fd' c hc
    exact ⟨file,(hkernel fd' file).mpr (.inr hfile),hsocket⟩
  · intro fd₁ fd₂ client h₁ h₂
    rcases (hkernel _ _).mp h₁ with ⟨rfl,hc⟩ | hold₁
    · rcases (hkernel _ _).mp h₂ with ⟨rfl,-⟩ | hold₂
      · rfl
      · cases hc
        exact absurd hold₂ (hno fd₂)
    · rcases (hkernel _ _).mp h₂ with ⟨rfl,hc⟩ | hold₂
      · cases hc
        exact absurd hold₁ (hno fd₁)
      · exact h.unique fd₁ fd₂ client hold₁ hold₂
  · intro fd' client hfd'
    rcases (hkernel _ _).mp hfd' with ⟨-,hc⟩ | hold
    · cases hc
      exact ⟨List.mem_cons_self,hnew.closed⟩
    · obtain ⟨hacc,hclosed⟩ := h.connection fd' client hold
      exact ⟨List.mem_cons_of_mem _ hacc,hclosed⟩
  · exact fun fd' sock hfd' => h.listening fd' sock ((hlistening fd' sock).mp hfd')
  · intro sock hsock
    obtain ⟨r,hr,hiff⟩ := h.socks sock hsock
    exact ⟨r,hr,fun fd' => (hlistening fd' sock).trans (hiff fd')⟩
  · exact h.m_socks
  · intro client hclient
    rcases List.mem_cons.mp hclient with rfl | hclient
    · exact ⟨ho,.inr ⟨fd,(hkernel _ _).mpr (.inl ⟨rfl,rfl⟩)⟩⟩
    · exact (h.accepted client hclient).imp_right fun hold => hold.imp_right fun ⟨fd',hfd'⟩ =>
        ⟨fd',(hkernel _ _).mpr (.inr hfd')⟩
  · exact List.nodup_cons.mpr ⟨hfresh,h.nodup_accepted⟩
  · exact fun x hx => (h.handled x hx).imp_left (List.mem_cons_of_mem _)
  · exact h.nodup_handled
  · exact h.closed
  · exact h.nodup_closed
  · intro sock hsock
    rcases hsock with hacc | hclosed
    · rcases List.mem_cons.mp hacc with rfl | hacc
      · obtain ⟨c,hc,-⟩ := m_sock?_eq_some.mp hnew.m_sock
        exact (List.getElem?_eq_some_iff.mp hc).1
      · exact h.allocated sock (.inl hacc)
    · exact h.allocated sock (.inr hclosed)

namespace Inv
variable [DecidableEq F]

/-! ### New sockets -/

/-- Nobody has a right to a `Socket` that has not been allocated. -/
theorem lt_of_holds (h : Inv v n s) {q : Option F} (ho : some o ∈ s.holds q) :
    o < s.heap.length := by
  cases q with
  | none =>
    obtain ⟨task,hmem,hright⟩ := List.mem_flatMap.mp ho
    exact (h.tasks task hmem).2.lt hright
  | some g => exact (h.phases g).lt (object_of_rights ho)

theorem le_length (h : Inv v n s) : n ≤ s.heap.length := by
  by_contra hlt
  obtain ⟨r,hr,-⟩ := h.ledger.socks s.heap.length (not_le.mp hlt)
  exact absurd (lt_of_m_sock hr) (lt_irrefl _)

/-- `Socket::accept` begins with a new `Socket`. -/
theorem allocate (h : Inv v n s) (hp : s.phase f = .loop l) (c : Socket) (r : Option ℕ)
    (ht : t = ({ s with heap := s.heap++[c.fresh] }.setRefs s.heap.length ⟨true,false⟩).goto f
      (.accept l s.heap.length r)) : Inv v n t := by
  have hfits := h.fits f
  rw [hp] at hfits
  have hobject : ∀ g, (s.phase g).object ≠ some s.heap.length := fun g hg =>
    absurd ((h.phases g).lt hg) (lt_irrefl _)
  have hnone : ∀ q, some s.heap.length ∉ s.holds q := fun q hq =>
    absurd (h.lt_of_holds hq) (lt_irrefl _)
  have hphase : t.phase = Function.update s.phase f (.accept l s.heap.length r) := by
    rw [ht]
    rfl
  have hrefs : t.refs = Function.update s.refs s.heap.length ⟨true,false⟩ := by
    rw [ht]
    rfl
  have hview : ∀ o, o ≠ s.heap.length → t.view o = s.view o := by
    intro o ho
    subst ht
    refine view_congr (congrArg (Option.map Socket.m_sock) ?_) (Function.update_of_ne ho ..) .rfl .rfl
      .rfl fun _ _ => .rfl
    change (s.heap++[c.fresh])[o]? = _
    rcases lt_or_gt_of_ne ho with hlt | hgt
    · exact List.getElem?_append_left hlt
    · rw [List.getElem?_eq_none hgt.le, List.getElem?_eq_none (by simpa using Nat.succ_le_of_lt hgt)]
  have hother : ∀ g, g ≠ f → t.holds (some g) = s.holds (some g) := by
    refine fun g hg => holds_of_ne hphase hg fun l' o hl' => ?_
    have ho : o ≠ s.heap.length := by
      rintro rfl
      exact hobject g (by rw [hl']; rfl)
    rw [hrefs, Function.update_of_ne ho]
  have hqueue : t.holds none = s.holds none := by
    rw [ht]
    rfl
  have hself : t.holds (some f) = [some s.heap.length] := by
    rw [holds_self hphase]
    rfl
  have hfrom : s.holds (some f) = [] := by
    rw [holds, hp]
    rfl
  have hunknown : ∀ {P : Prop}, (s.view s.heap.length).accepted ∨ (s.view s.heap.length).closed →
      P := fun hmem => absurd (h.ledger.allocated _ hmem) (lt_irrefl _)
  have hnew : (t.view s.heap.length).New := by
    subst ht
    refine ⟨?_,Function.update_self ..,fun hmem => ?_,fun hmem => hunknown (.inr hmem)⟩
    · exact m_sock?_eq_some.mpr ⟨c.fresh,List.getElem?_concat_length,rfl⟩
    · obtain ⟨x,hx,hlength⟩ := List.mem_map.mp hmem
      exact hunknown (.inl (hlength ▸ (h.ledger.handled x hx).1))
  refine h.advance hphase (ht ▸ h.mgr) (ht ▸ h.creating_eq (by rw [hp]; rfl)) ?_ ?_ ?_ ?_
    ⟨hfits,h.le_length⟩ ⟨hnew,?_⟩ (fun g _ => (h.phases g).congr (fun o ho => hview o ?_) fun _ => ?_)
    ?_ ?_
  · refine h.exclusive.add (q := some f) (c := some s.heap.length) hnone ?_ ?_
    · rw [hself, hfrom]
    · rintro (_ | g) hg
      · rw [hqueue]
      · rw [hother g (by simpa using hg)]
  · intro fd client hfd
    rw [ht] at hfd
    obtain ⟨_ | g,hmem⟩ := h.owned fd client hfd
    · exact ⟨none,hqueue ▸ hmem⟩
    · have hg : g ≠ f := by
        rintro rfl
        rw [hfrom] at hmem
        cases hmem
      exact ⟨some g,hother g hg ▸ hmem⟩
  · rintro o ⟨⟩
    exact .inr fun g hg => hobject g (object_of_client hg)
  · intro o ho
    by_cases heq : o = s.heap.length
    · exact .inl (heq ▸ rfl)
    · rw [hrefs, Function.update_of_ne heq] at ho
      refine .inr ⟨?_,ho⟩
      rw [hp]
      rintro ⟨⟩
  · rw [ht]
    exact fun hmem => hunknown (.inl hmem)
  · rintro rfl
    exact hobject g ho
  · rw [ht]
    rfl
  · rw [ht]
    refine fun task htask => ⟨(h.tasks task htask).1,?_⟩
    refine (h.tasks task htask).2.congr fun o ho => ?_
    rw [← ht]
    refine hview o ?_
    rintro rfl
    exact hnone none (List.mem_flatMap.mpr ⟨task,htask,ho⟩)
  · refine h.ledger.congr (ht ▸ rfl) (fun fd c hc => ⟨c,?_⟩) (ht ▸ rfl) (ht ▸ rfl) (ht ▸ rfl)
      (ht ▸ rfl) ?_ ?_
    · rw [ht] at hc
      exact hc
    · rw [ht]
      simp
    · intro sock hsock
      rw [hview sock (hsock.trans_le h.le_length).ne]

/-- The test of `while`. -/
theorem loop (h : Inv v n s) (hp : s.phase f = .loop l) (hs : s.loop f l = some t) : Inv v n t := by
  unfold Serving.loop at hs
  split_ifs at hs with hstop
  · cases hs
    exact h.goto (by rw [hp]; rfl) (by rw [hp]; rfl) (by rw [hp]; rfl) trivial trivial
  · obtain ⟨c,-,hs⟩ := Option.bind_eq_some_iff.mp hs
    obtain ⟨mgr,hget,-,-,h'⟩ := h.withGet (f := f) (by rw [hp]; rfl) c.m_sock
    rw [hget] at hs
    exact h'.allocate hp c c.m_sock (Option.some.inj hs).symm

/-! ### From the kernel to the callback -/

/-- The kernel answers. -/
theorem accept (h : Inv v n s) {r : Option ℕ} (hp : s.phase f = .accept l o r)
    (hfd : fd*3/2 < 2^31) (hs : s.accept f l o r (some fd) = some t) : Inv v n t := by
  obtain ⟨hfree,rfl⟩ : s.kernel fd = none ∧ t = { s with
      kernel := Function.update s.kernel fd (some (.connection o))
      accepted := o :: s.accepted }.goto f (.get l o fd) := by
    simp only [Serving.accept] at hs
    split at hs
    · next hnone => exact ⟨hnone,(Option.some.inj hs).symm⟩
    · cases hs
  have hfits := h.fits f
  have hok := h.phases f
  rw [hp] at hfits hok
  obtain ⟨hnew,hfresh⟩ := hok
  have hctx : s.mgr.ctx fd = none := by
    cases hc : s.mgr.ctx fd with
    | none => rfl
    | some c =>
      obtain ⟨file,hfile,-⟩ := h.ledger.managed fd c hc
      cases hfree.symm.trans hfile
  have hno : ∀ fd', s.kernel fd' ≠ some (.connection o) := fun fd' hfd' =>
    hfresh (h.ledger.connection fd' o hfd').1
  have ho : some o ∈ (s.phase f).rights s.refs := by
    rw [hp]
    exact List.mem_cons_self
  refine h.act (f := f) (p := .get l o fd) ho rfl rfl rfl ?_ ?_ h.mgr ?_ ?_ ?_ ?_ ?_ hfits ?_ ?_
  · rw [hp]
    rfl
  · rw [hp]
    rfl
  · exact h.creating_eq (by rw [hp]; rfl)
  · intro o' ho'
    refine view_congr rfl rfl (by simp [ho']) .rfl .rfl fun fd' c => ?_
    by_cases hfd' : fd' = fd
    · subst hfd'
      simp [hfree, Ne.symm ho']
    · simp [hfd']
  · refine listening_congr fun fd' sock c => ?_
    by_cases hfd' : fd' = fd
    · subst hfd'
      simp [hfree]
    · simp [hfd']
  · change (s.view o).m_sock.isSome
    rw [hnew.m_sock]
    rfl
  · exact fun hacc => absurd hacc hfresh
  · refine ⟨⟨hnew.m_sock,hnew.refs,hnew.handled,hnew.closed⟩,?_,hfd⟩
    exact file_eq_some.mpr ⟨Function.update_self ..,hctx⟩
  · exact (h.ledger.accept hfree hnew hfits.2 hfresh).congr rfl (fun fd c hc => ⟨c,hc⟩) rfl rfl rfl
      rfl le_rfl fun _ _ => rfl

/-- The table has no context for a new connection. -/
theorem get (h : Inv v n s) (hp : s.phase f = .get l o fd) (hs : s.get f l o fd = some t) :
    Inv v n t := by
  have hok := h.phases f
  rw [hp] at hok
  obtain ⟨hnew,hfile,hfd⟩ := hok
  obtain ⟨hkernel,hnull⟩ := file_eq_some.mp hfile
  have hlookup := h.lookup_eq_none hnull
  obtain ⟨mgr,hstep,hctx,hcreating⟩ :=
    FdManager.step_get_true ((h.creating f).trans (by rw [hp]; rfl)) hlookup
  rw [Serving.get, hstep, hlookup] at hs
  cases hs
  refine h.actMgr (o := o) (by rw [hp]; exact List.mem_cons_self) hkernel (by rw [hp]; rfl)
    (by rw [hp]; rfl) (h.mgr.step (i := .get f fd true) trivial hstep) hcreating
    (fun fd' _ => congrFun hctx fd') (by rw [hnew.m_sock]; rfl) (hp ▸ h.fits f :) ?_
  refine ⟨⟨hnew.m_sock,hnew.refs,hnew.handled,hnew.closed⟩,file_eq_some.mpr ⟨hkernel,?_⟩,hfd⟩
  exact (congrFun hctx fd).trans hnull

/-- The context of a new connection is new. -/
theorem create (h : Inv v n s) (hp : s.phase f = .create l o fd) (hs : s.create f l o fd = some t) :
    Inv v n t := by
  have hok := h.phases f
  rw [hp] at hok
  obtain ⟨hnew,hfile,hfd⟩ := hok
  obtain ⟨hkernel,hnull⟩ := file_eq_some.mp hfile
  obtain ⟨hstill,mgr,hstep,hctx,hcreating⟩ := FdManager.step_create h.stable
    ((h.creating f).trans (by rw [hp]; rfl)) hnull hfd (some true)
  rw [Serving.create, hkernel, Option.map_some, File.isSocket, hstep] at hs
  cases hs
  refine h.actMgr (o := o) (by rw [hp]; exact List.mem_cons_self) hkernel (by rw [hp]; rfl)
    (by rw [hp]; rfl) (h.mgr.step hstill hstep) hcreating
    (fun fd' hfd' => (hctx fd').trans (if_neg hfd'.symm)) (by rw [hnew.m_sock]; rfl) (hp ▸ h.fits f :) ?_
  refine ⟨⟨hnew.m_sock,hnew.refs,hnew.handled,hnew.closed⟩,file_eq_some.mpr ⟨hkernel,?_⟩⟩
  exact (hctx fd).trans (if_pos rfl)

/-- `init` finds the context, and does not give the connection up. -/
theorem init (h : Inv v n s) (hp : s.phase f = .init l o fd) (hs : s.init f l o fd = some t) :
    Inv v n t := by
  have hok := h.phases f
  rw [hp] at hok
  obtain ⟨hnew,hfile⟩ := hok
  obtain ⟨hkernel,hfound⟩ := file_eq_some.mp hfile
  obtain ⟨c,hc,-⟩ := m_sock?_eq_some.mp hnew.m_sock
  have hself := List.getElem?_set_self (a := { c with m_sock := some fd, m_isConnected := true })
    (List.getElem?_eq_some_iff.mp hc).1
  obtain ⟨mgr,hget,hctx,-,h'⟩ := h.withGet (f := f) (by rw [hp]; rfl) (some fd)
  have hp' : phase { s with mgr } f = .init l o fd := hp
  have hsocket : (s.mgr.ctx fd).any (fun ctx => ctx.isSocket && !ctx.isClosed) = true := by
    rw [hfound]
    rfl
  rw [Serving.init, hc, hget, Option.bind_some, Option.map_some, if_pos hsocket] at hs
  cases hs
  refine h'.act (f := f) (o := o) (p := .setRecvTimeout l o) (by rw [hp']; exact List.mem_cons_self)
    rfl rfl rfl (by rw [hp']; rfl) (by rw [hp']; rfl) h'.mgr (h'.creating_eq (by rw [hp']; rfl))
    ?_ rfl ?_ id (hp ▸ h.fits f :) ?_ ?_
  · intro o' ho'
    exact view_congr (congrArg _ (List.getElem?_set_ne ho'.symm)) rfl .rfl .rfl .rfl fun _ _ => .rfl
  · exact Option.isSome_iff_exists.mpr ⟨_,m_sock?_eq_some.mpr ⟨_,hself,rfl⟩⟩
  · refine ⟨hnew.refs,hnew.handled,fd,m_sock?_eq_some.mpr ⟨_,hself,rfl⟩,?_⟩
    exact file_eq_some.mpr ⟨hkernel,(congrFun hctx fd).trans hfound⟩
  · refine h'.ledger.congr rfl (fun fd' c hc => ⟨c,hc⟩) rfl rfl rfl rfl List.length_set.ge ?_
    intro sock hsock
    have hfits := h.fits f
    rw [hp] at hfits
    have hne : o ≠ sock := (hsock.trans_le hfits.2).ne'
    exact congrArg (Option.map Socket.m_sock) (List.getElem?_set_ne hne)

theorem isSocket_set (c : FdCtx) (setting : FdCtx.Setting) : (c.set setting).isSocket = c.isSocket ∧
    (c.set setting).isClosed = c.isClosed := by
  rcases setting with ⟨_ | _,_⟩ | _ <;> exact ⟨rfl,rfl⟩

/-- A setting reaches the context of a connection. -/
theorem setOption (h : Inv v n s) (hcreating : (s.phase f).creating = none)
    (hm_sock : s.m_sock? o = some (some fd)) {c : FdCtx} (hc : s.mgr.ctx fd = some c)
    (setting : FdCtx.Setting) : ∃ mgr, s.setOption f o setting = some { s with mgr } ∧
      (FdManager.machine F).Reaches FdManager.StillNull mgr ∧ mgr.creating = s.mgr.creating ∧
      ∀ fd', mgr.ctx fd' = if fd' = fd then some (c.set setting) else s.mgr.ctx fd' := by
  have hsock : s.m_sock o = some fd := by
    obtain ⟨x,hx,hfd⟩ := m_sock?_eq_some.mp hm_sock
    rw [Serving.m_sock, hx]
    exact hfd
  obtain ⟨mgr,hget,hctx,hlookup,h'⟩ := h.withGet hcreating (some fd)
  obtain ⟨i,hi⟩ : ∃ i, s.mgr.lookup fd = some i := by
    rw [← Option.isSome_iff_exists, h.stable.lookup_isSome, hc]
    rfl
  obtain ⟨mgr',hstep,hctx',hcreating'⟩ :=
    FdManager.step_set h'.stable ((congrFun hlookup fd).trans hi) setting
  refine ⟨mgr',?_,h'.mgr.step (i := .set i setting) trivial hstep,?_,fun fd' => ?_⟩
  · rw [Serving.setOption, hsock, hget, Option.bind_some, Option.bind_some, hi]
    exact congrArg (Option.map _) hstep
  · exact hcreating'.trans (funext fun g => (h'.creating g).trans (h.creating g).symm)
  · rw [hctx', show FdManager.ctx mgr = _ from hctx]
    by_cases hfd' : fd' = fd
    · rw [if_pos hfd', if_pos hfd', hfd', hc]
      rfl
    · rw [if_neg hfd', if_neg hfd']

/-- The timeout of the server is set before the callback is scheduled. -/
theorem setRecvTimeout (h : Inv v n s) (hp : s.phase f = .setRecvTimeout l o)
    (hs : (s.setOption f o (.timeout .SO_RCVTIMEO (tv_ms v))).map (·.goto f (.schedule l o)) =
      some t) : Inv v n t := by
  have hok := h.phases f
  rw [hp] at hok
  obtain ⟨hrefs,hhandled,fd,hm_sock,hfile⟩ := hok
  obtain ⟨hkernel,hc⟩ := file_eq_some.mp hfile
  obtain ⟨mgr,hset,hmgr,hcreating,hctx⟩ := h.setOption (f := f) (by rw [hp]; rfl) hm_sock hc
    (.timeout .SO_RCVTIMEO (tv_ms v))
  rw [hset] at hs
  cases hs
  refine h.actMgr (o := o) (by rw [hp]; exact List.mem_cons_self) hkernel (by rw [hp]; rfl)
    (by rw [hp]; rfl) hmgr (hcreating.trans (h.creating_eq (by rw [hp]; rfl)))
    (fun fd' hfd' => (hctx fd').trans (if_neg hfd')) (by rw [hm_sock]; rfl) (hp ▸ h.fits f :) ?_
  exact ⟨hrefs,hhandled,fd,hm_sock,file_eq_some.mpr ⟨hkernel,(hctx fd).trans (if_pos rfl)⟩⟩

/-- A handler sets something. -/
theorem set (h : Inv v n s) (hp : s.phase f = .handleClient o) {setting : FdCtx.Setting}
    (hs : s.setOption f o setting = some t) : Inv v n t := by
  have hok := h.phases f
  rw [hp] at hok
  obtain ⟨⟨hhandled,hserved⟩,hcallback⟩ := hok
  rcases hserved with ⟨fd,c,⟨hm_sock,hfile⟩,hsocket,hclosed⟩ | ⟨hm_sock,hclosed⟩
  · obtain ⟨hkernel,hc⟩ := file_eq_some.mp hfile
    obtain ⟨mgr,hset,hmgr,hcreating,hctx⟩ := h.setOption (f := f) (by rw [hp]; rfl) hm_sock hc
      setting
    obtain rfl : t = { s with mgr }.goto f (.handleClient o) := by
      rw [hset] at hs
      rw [← Option.some.inj hs, Serving.goto, ← hp, Function.update_eq_self]
    refine h.actMgr (o := o) (by rw [hp]; exact List.mem_cons_self) hkernel (by rw [hp]) (by rw [hp])
      hmgr (hcreating.trans (h.creating_eq (by rw [hp])))
      (fun fd' hfd' => (hctx fd').trans (if_neg hfd')) (by rw [hm_sock]; rfl) (hp ▸ h.fits f :) ?_
    refine ⟨⟨hhandled,.inl ⟨fd,c.set setting,⟨hm_sock,?_⟩,?_⟩⟩,hcallback⟩
    · exact file_eq_some.mpr ⟨hkernel,(hctx fd).trans (if_pos rfl)⟩
    · rw [(isSocket_set c setting).1, (isSocket_set c setting).2]
      exact ⟨hsocket,hclosed⟩
  · obtain ⟨c,hc,hnone⟩ := m_sock?_eq_some.mp hm_sock
    have hsock : s.m_sock o = none := by
      rw [Serving.m_sock, hc]
      exact hnone
    rw [Serving.setOption, hsock] at hs
    cases hs
    exact h

/-- The callback has a reference of its own. -/
theorem schedule (h : Inv v n s) (hp : s.phase f = .schedule l o) : Inv v n (s.schedule f l o) := by
  have hfits := h.fits f
  have hok := h.phases f
  rw [hp] at hfits hok
  obtain ⟨hrefs,hwaits⟩ := hok
  have hfrom : s.holds (some f) = [some o] := by
    rw [holds, hp]
    rfl
  have ho : some o ∈ s.holds (some f) := hfrom ▸ List.mem_cons_self
  have hclient : (s.phase f).client = some o := by
    rw [hp]
    rfl
  have hphase : (s.schedule f l o).phase = Function.update s.phase f (.next l o) := rfl
  have hrefs' : (s.schedule f l o).refs = Function.update s.refs o ⟨true,true⟩ := by
    have hcallback : { s.refs o with callback := true } = Refs.mk true true := by
      rw [show s.refs o = _ from hrefs]
    rw [← hcallback]
    rfl
  have hself : (s.schedule f l o).holds (some f) = [] := by
    rw [holds_self hphase, hrefs']
    simp [ServerPhase.rights]
  have hqueue : (s.schedule f l o).holds none = s.holds none++[some o] := by
    simp [holds, Serving.schedule, ServerTask.rights]
  have hother : ∀ g, g ≠ f → (s.schedule f l o).holds (some g) = s.holds (some g) := by
    refine fun g hg => holds_of_ne hphase hg fun l' o' hl' => ?_
    have hne : o' ≠ o := by
      rintro rfl
      exact h.ne_next hclient hg l' hl'
    rw [hrefs', Function.update_of_ne hne]
  have hview : ∀ o', o' ≠ o → (s.schedule f l o).view o' = s.view o' := by
    refine fun o' ho' => view_congr rfl ?_ .rfl .rfl .rfl fun _ _ => .rfl
    rw [hrefs', Function.update_of_ne ho']
  have hrefsView : ((s.schedule f l o).view o).refs = ⟨true,true⟩ := by
    rw [view, hrefs', Function.update_self]
  obtain ⟨hothers,htasks⟩ := h.others ho hview rfl fun l' g _ _ hcallback => by
    rw [show s.refs o = _ from hrefs] at hcallback
    cases hcallback
  obtain ⟨hhandled,fd,hm_sock,hfile⟩ := hwaits
  have haccepted := (h.ledger.connection fd o (file_eq_some.mp hfile).1).1
  refine h.advance hphase h.mgr (h.creating_eq (by rw [hp]; rfl)) ?_ ?_ ?_ ?_ hfits ?_
    (fun g hg => hothers g (by simpa using hg)) ?_ ?_
  · refine h.exclusive.move (p := some f) (q := none) (c := some o) (by simp) ?_ ?_ ?_
    · rw [hfrom, hself]
    · rw [hqueue]
      exact List.perm_append_singleton _ _
    · rintro (_ | g) hg hnone
      · exact absurd rfl hnone
      · rw [hother g (by simpa using hg)]
  · intro fd' client hfd'
    obtain ⟨_ | g,hmem⟩ := h.owned fd' client hfd'
    · exact ⟨none,hqueue ▸ List.mem_append_left _ hmem⟩
    · by_cases hg : g = f
      · rw [hg, hfrom] at hmem
        exact ⟨none,hqueue ▸ List.mem_append_right _ hmem⟩
      · exact ⟨some g,hother g hg ▸ hmem⟩
  · exact fun o' ho' => .inl (hclient.trans ho')
  · intro o' ho'
    by_cases heq : o' = o
    · exact .inl (heq ▸ rfl)
    · rw [hrefs', Function.update_of_ne heq] at ho'
      refine .inr ⟨fun hc => heq ?_,ho'⟩
      rw [hclient] at hc
      exact (Option.some.inj hc).symm
  · refine ⟨?_,haccepted,?_,fun hfalse => ?_⟩
    · exact Option.isSome_iff_exists.mpr ⟨_,hm_sock⟩
    · rw [hrefsView]
    · rw [hrefsView] at hfalse
      cases hfalse
  · intro task htask
    rcases List.mem_append.mp htask with htask | htask
    · exact ⟨(h.tasks task htask).1,htasks (by simp) task htask⟩
    · rw [List.mem_singleton.mp htask]
      exact ⟨hfits.2,⟨hhandled,fd,hm_sock,hfile⟩,by rw [hrefsView]⟩
  · exact h.ledger.congr rfl (fun fd c hc => ⟨c,hc⟩) rfl rfl rfl rfl le_rfl fun _ _ => rfl

end Inv
end CoroutineWebserve.Serving
