import CoroutineWebserve.TcpServer.Frame

/-!
# References

The last reference to a `Socket` closes it. It is the one of `startAccept` or that of the callback, and
the handler may have closed before.
-/
namespace CoroutineWebserve.Serving
variable {F : Type*} {v : UInt64} {n : ℕ} {s t : Serving F} {f g : F} {p : ServerPhase}
  {l o fd : ℕ}

namespace View
variable {w w' : View}

/-- Two `Socket`s that differ in the references to them. -/
structure Alike (w w' : View) : Prop where
  m_sock : w'.m_sock = w.m_sock
  handled : w'.handled = w.handled
  closed : w'.closed = w.closed
  file : w'.file = w.file

theorem Has.alike {c : FdCtx} (h : w.Has fd c) (hw : Alike w w') : w'.Has fd c :=
  ⟨hw.m_sock.trans h.m_sock,(congrFun hw.file fd).trans h.file⟩

theorem Waits.alike {c : ℕ → FdCtx} (h : w.Waits c) (hw : Alike w w') : w'.Waits c := by
  obtain ⟨hhandled,fd,hhas⟩ := h
  exact ⟨hw.handled ▸ hhandled,fd,hhas.alike hw⟩

theorem Served.alike (h : w.Served) (hw : Alike w w') : w'.Served := by
  refine ⟨hw.handled ▸ h.1,h.2.imp ?_ fun hclosed => ?_⟩
  · rintro ⟨fd,c,hhas,hsocket⟩
    exact ⟨fd,c,hhas.alike hw,hsocket⟩
  · exact ⟨hw.m_sock.trans hclosed.1,hw.closed ▸ hclosed.2⟩

theorem Closing.alike (h : w.Closing fd) (hw : Alike w w') : w'.Closing fd :=
  ⟨hw.handled ▸ h.handled,hw.m_sock.trans h.m_sock,hw.file ▸ h.file⟩

end View

/-- What relies on the callback's reference does not need the other one. -/
theorem Ok.setRefs (h : s.Ok v p) (ho : p.object = some o) (hnext : ∀ l, p ≠ .next l o)
    (hrefs : s.refs o = ⟨true,true⟩) : (s.setRefs o ⟨false,true⟩).Ok v p := by
  have hcallback : ((s.setRefs o ⟨false,true⟩).view o).refs.callback = true := by simp [view]
  have habsurd : ∀ {r : Refs}, (s.view o).refs = r → r ≠ ⟨true,true⟩ → (s.setRefs o ⟨false,true⟩).Ok v p :=
    fun hr hne => absurd (hr.symm.trans hrefs) hne
  have hafter : ∀ {sock fd k}, s.OkAfter sock fd k → AfterClose.right sock k = some o →
      (s.setRefs o ⟨false,true⟩).OkAfter sock fd k := by
    intro sock fd k hk hright
    cases k with
    | stop _ => cases hright
    | loop _ | done =>
      cases hright
      exact absurd (hk.2.symm.trans hrefs) (by decide)
    | handleClient client =>
      cases hright
      exact ⟨hk.1,hk.2.1.alike ⟨rfl,rfl,rfl,rfl⟩,hcallback⟩
  cases p with
  | idle | loop _ | stop _ => cases ho
  | accept _ _ _ | get _ _ _ | create _ _ _ | init _ _ _ =>
    cases ho
    exact habsurd h.1.refs (by decide)
  | setRecvTimeout _ _ | schedule _ _ =>
    cases ho
    exact habsurd h.1 (by decide)
  | next l _ =>
    cases ho
    exact absurd rfl (hnext l)
  | handleClient _ =>
    cases ho
    exact ⟨h.1.alike ⟨rfl,rfl,rfl,rfl⟩,hcallback⟩
  | close sock fd k | del sock fd k => exact hafter (k := k) h ho
  | close_f sock fd k => exact ⟨hafter h.1 ho,h.2⟩

namespace Inv
variable [DecidableEq F]

/-- The last reference to a `Socket` is given up, by the fiber that has the right to close it. Where
the right is given up as well, there is no connection. -/
theorem drop (h : Inv v n s) (ho : (s.phase f).rights s.refs = [some o])
    (hnext : ∀ g, g ≠ f → ∀ l, s.phase g ≠ .next l o)
    (ht : t = (s.setRefs o {}).goto f p)
    (hrights : p.rights t.refs = [some o] ∨
      p.rights t.refs = [] ∧ ∀ fd, s.kernel fd ≠ some (.connection o))
    (hclient : p.client = none) (hcreating : (s.phase f).creating = p.creating) (hfits : p.Fits n)
    (hok : t.Ok v p) : Inv v n t := by
  have hfrom : s.holds (some f) = [some o] := ho
  have hmem : some o ∈ s.holds (some f) := hfrom ▸ List.mem_cons_self
  have hphase : t.phase = Function.update s.phase f p := by
    rw [ht]
    rfl
  have hrefs : t.refs = Function.update s.refs o {} := by
    rw [ht]
    rfl
  have hself := holds_self (t := t) hphase
  have hqueue : t.holds none = s.holds none := by
    rw [ht]
    rfl
  have hother : ∀ g, g ≠ f → t.holds (some g) = s.holds (some g) := by
    refine fun g hg => holds_of_ne hphase hg fun l o' hl => ?_
    have hne : o' ≠ o := by
      rintro rfl
      exact hnext g hg l hl
    rw [hrefs, Function.update_of_ne hne]
  have hview : ∀ o', o' ≠ o → t.view o' = s.view o' := by
    intro o' ho'
    subst ht
    exact view_congr rfl (Function.update_of_ne ho' ..) .rfl .rfl .rfl fun _ _ => .rfl
  obtain ⟨hothers,htasks⟩ := h.others (t := t) hmem hview (ht ▸ rfl) fun l g hg hl _ =>
    absurd hl (hnext g (by simpa using hg) l)
  have hplaces : ∀ q, q ≠ some f → (t.holds q).Perm (s.holds q) := by
    rintro (_ | g) hg
    · rw [hqueue]
    · rw [hother g (by simpa using hg)]
  refine h.advance hphase (ht ▸ h.mgr) (ht ▸ h.creating_eq hcreating) ?_ ?_ (by simp [hclient]) ?_ hfits
    hok (fun g hg => hothers g (by simpa using hg)) ?_ ?_
  · rcases hrights with hkept | ⟨hgone,-⟩
    · refine h.exclusive.perm fun q => ?_
      by_cases hq : q = some f
      · rw [hq, hself, hkept, hfrom]
      · exact hplaces q hq
    · exact (h.exclusive.remove (p := some f) (c := some o) (by rw [hself, hgone, hfrom])
        hplaces).1
  · intro fd client hfd
    rw [ht] at hfd
    obtain ⟨q,hq⟩ := h.owned fd client hfd
    by_cases hf : q = some f
    · rw [hf, hfrom, List.mem_singleton, Option.some_inj] at hq
      rcases hrights with hkept | ⟨-,hno⟩
      · exact ⟨some f,by rw [hself, hkept, hq]; exact List.mem_cons_self⟩
      · exact absurd (hq ▸ hfd) (hno fd)
    · exact ⟨q,(hplaces q hf).mem_iff.mpr hq⟩
  · intro o' ho'
    by_cases heq : o' = o
    · rw [hrefs, heq, Function.update_self] at ho'
      cases ho'
    · rw [hrefs, Function.update_of_ne heq] at ho'
      refine .inr ⟨fun hc => heq ?_,ho'⟩
      exact Option.some.inj ((object_of_client hc).symm.trans (object_of_rights hmem))
  · rw [ht]
    exact fun task htask => ⟨(h.tasks task htask).1,ht ▸ htasks (by simp) task htask⟩
  · exact h.ledger.congr (ht ▸ rfl) (fun fd c hc => ⟨c,by rw [ht] at hc; exact hc⟩) (ht ▸ rfl)
      (ht ▸ rfl) (ht ▸ rfl) (ht ▸ rfl) (ht ▸ le_rfl) fun _ _ => ht ▸ rfl

/-- There is no connection. -/
theorem refuse (h : Inv v n s) {r : Option ℕ} (hp : s.phase f = .accept l o r)
    (ht : t = (s.setRefs o {}).goto f (.loop l)) : Inv v n t := by
  have hfits := h.fits f
  have hok := h.phases f
  rw [hp] at hfits hok
  refine h.drop (by rw [hp]; rfl) (fun g hg l' => h.ne_next (by rw [hp]; rfl) hg l') ht
    (.inr ⟨rfl,fun fd hfd => ?_⟩) rfl (by rw [hp]; rfl) hfits.1 trivial
  exact hok.2 (h.ledger.connection fd o hfd).1

/-- What `Socket::close` writes before the call of `::close` concerns nobody. -/
theorem setHeap (h : Inv v n s) (f : F) {heap : List Socket}
    (hm_sock : ∀ o, heap[o]?.map (·.m_sock) = s.m_sock? o) (hlength : heap.length = s.heap.length) :
    Inv v n { s with heap } := by
  have hview : ∀ o, view { s with heap } o = s.view o :=
    fun o => view_congr (hm_sock o) rfl .rfl .rfl .rfl fun _ _ => .rfl
  have hok : ∀ q, s.Ok v q → Ok v { s with heap } q := fun q hq => hq.congr (fun o _ => hview o) fun _ => rfl
  refine h.keep (f := f) (p := s.phase f) (Function.update_eq_self ..).symm rfl rfl rfl rfl h.mgr
    (h.creating_eq rfl) h.owned (h.fits f) (hok _ (h.phases f)) (fun g _ => hok _ (h.phases g))
    (fun task htask => (h.tasks task htask).2.congr fun o _ => hview o)
    (h.ledger.congr rfl (fun fd c hc => ⟨c,hc⟩) rfl rfl rfl rfl hlength.ge fun o _ => ?_)
  rw [hview]

/-- What `Socket::close` does before the call of `::close`. -/
theorem of_close {k : AfterClose} {r : Option ℕ} (hr : s.m_sock? o = some r)
    (hs : s.close f o k = some t) :
    ∃ heap : List Socket, (∀ o', heap[o']?.map (·.m_sock) = s.m_sock? o') ∧
      heap.length = s.heap.length ∧ t = { s with heap }.goto f (k.entry o r) := by
  obtain ⟨c,hc,rfl⟩ := m_sock?_eq_some.mp hr
  rw [Serving.close, hc] at hs
  have hset : ∀ o', (s.heap.set o { c with m_isConnected := false })[o']?.map (·.m_sock) =
      s.m_sock? o' := by
    intro o'
    by_cases ho' : o = o'
    · subst ho'
      rw [List.getElem?_set_self (List.getElem?_eq_some_iff.mp hc).1, Serving.m_sock?, hc]
      rfl
    · rw [List.getElem?_set_ne ho']
      rfl
  simp only [Option.map_some, Option.some.injEq] at hs
  split_ifs at hs with hclosed
  · refine ⟨s.heap,fun _ => rfl,rfl,?_⟩
    rw [Bool.and_eq_true, Option.isNone_iff_eq_none] at hclosed
    rw [← hs, hclosed.2]
    rfl
  · exact ⟨_,hset,List.length_set,hs.symm⟩

/-- `~Socket` of a client. -/
theorem destroy (h : Inv v n s) (ho : (s.phase f).rights s.refs = [some o])
    (hserved : (s.view o).Served) (hnext : ∀ g, g ≠ f → ∀ l, s.phase g ≠ .next l o)
    (hcreating : (s.phase f).creating = none) {k : AfterClose}
    (hk : k = .done ∨ ∃ l < n, k = .loop l) (hfits : n ≤ o)
    (hs : (s.setRefs o {}).close f o k = some t) : Inv v n t := by
  obtain ⟨hhandled,⟨fd,c,⟨hm_sock,hfile⟩,-⟩ | ⟨hm_sock,hclosed⟩⟩ := hserved
  · obtain ⟨heap,hheap,hlength,ht⟩ := of_close (s := s.setRefs o {}) hm_sock hs
    have h' := h.setHeap f hheap hlength
    have hright : k.right o = some o := by
      rcases hk with rfl | ⟨l,-,rfl⟩ <;> rfl
    refine h'.drop (p := .close o fd k) ho hnext ht (.inl ?_) rfl hcreating ?_ ?_
    · exact congrArg (fun r => [r]) hright
    · rcases hk with rfl | ⟨l,hl,rfl⟩
      · exact hfits
      · exact ⟨hl,hfits⟩
    · have hclosing : (t.view o).Closing fd := by
        rw [ht]
        exact ⟨hhandled,(hheap o).trans hm_sock,Option.isSome_iff_exists.mpr ⟨_,hfile⟩⟩
      have hrefs : (t.view o).refs = {} := by
        rw [ht]
        exact Function.update_self ..
      rcases hk with rfl | ⟨l,-,rfl⟩
      · exact ⟨hclosing,hrefs⟩
      · exact ⟨hclosing,hrefs⟩
  · obtain ⟨heap,hheap,hlength,ht⟩ := of_close (s := s.setRefs o {}) hm_sock hs
    have h' := h.setHeap f hheap hlength
    have hno : ∀ fd, s.kernel fd ≠ some (.connection o) := fun fd hfd =>
      (h.ledger.connection fd o hfd).2 hclosed
    refine h'.drop (p := k.phase) ho hnext ht (.inr ⟨?_,hno⟩) ?_ ?_ ?_ ?_
    · rcases hk with rfl | ⟨l,-,rfl⟩ <;> rfl
    · rcases hk with rfl | ⟨l,-,rfl⟩ <;> rfl
    · rcases hk with rfl | ⟨l,-,rfl⟩ <;> exact hcreating
    · rcases hk with rfl | ⟨l,hl,rfl⟩
      · trivial
      · exact hl
    · rcases hk with rfl | ⟨l,-,rfl⟩ <;> trivial

/-- `handleClient` closes its client. -/
theorem close (h : Inv v n s) (hp : s.phase f = .handleClient o)
    (hs : s.close f o (.handleClient o) = some t) : Inv v n t := by
  have hfits := h.fits f
  have hok := h.phases f
  rw [hp] at hfits hok
  obtain ⟨⟨hhandled,hserved⟩,hcallback⟩ := hok
  rcases hserved with ⟨fd,c,⟨hm_sock,hfile⟩,-⟩ | ⟨hm_sock,-⟩
  · obtain ⟨heap,hheap,hlength,rfl⟩ := of_close hm_sock hs
    have h' := h.setHeap f hheap hlength
    have hp' : phase { s with heap } f = .handleClient o := hp
    refine h'.goto (by rw [hp']; rfl) (by rw [hp']; rfl) (by rw [hp']; rfl) hfits ⟨rfl,?_,hcallback⟩
    exact ⟨hhandled,(hheap o).trans hm_sock,Option.isSome_iff_exists.mpr ⟨_,hfile⟩⟩
  · obtain ⟨heap,hheap,hlength,rfl⟩ := of_close hm_sock hs
    have h' := h.setHeap f hheap hlength
    have hok' := h'.phases f
    have hp' : phase { s with heap } f = .handleClient o := hp
    rw [hp'] at hok'
    exact h'.goto (by rw [hp']; rfl) (by rw [hp']; rfl) (by rw [hp']; rfl) hfits hok'

/-- The callback of `stop` comes to the next socket. -/
theorem stopNext (h : Inv v n s) {socks : List ℕ} (hp : s.phase f = .stop (l :: socks))
    (hs : s.close f l (.stop socks) = some t) : Inv v n t := by
  have hfits := h.fits f
  have hok := h.phases f
  rw [hp] at hfits hok
  obtain ⟨hl,hsocks⟩ := List.forall_mem_cons.mp hfits
  obtain ⟨r,hm_sock,hiff⟩ := h.ledger.socks l hl
  obtain ⟨heap,hheap,hlength,rfl⟩ := of_close hm_sock hs
  have h' := h.setHeap f hheap hlength
  have hp' : phase { s with heap } f = .stop (l :: socks) := hp
  cases r with
  | none =>
    refine h'.goto (by rw [hp']; rfl) (by rw [hp']; rfl) (by rw [hp']; rfl) hsocks ?_
    intro fd l' c hfd
    refine (List.mem_cons.mp (hok fd l' c hfd)).resolve_left ?_
    rintro rfl
    exact absurd ((hiff fd).mp (listening_eq_some.mp hfd).1) nofun
  | some fd =>
    refine h'.goto (by rw [hp']; rfl) (by rw [hp']; rfl) (by rw [hp']; rfl) ⟨hl,hsocks⟩ ⟨?_,?_⟩
    · exact ⟨_,listening_eq_some.mpr ⟨(hiff fd).mpr rfl,rfl⟩⟩
    · exact fun fd' l' c hfd' => List.mem_cons.mp (hok fd' l' c hfd')

/-- The end of an iteration of `startAccept`. -/
theorem next (h : Inv v n s) (hp : s.phase f = .next l o)
    (hs : s.release f o { s.refs o with client := false } (.loop l) = some t) : Inv v n t := by
  have hfits := h.fits f
  have hok := h.phases f
  rw [hp] at hfits hok
  obtain ⟨hm_sock,haccepted,href,hserved⟩ := hok
  cases hcallback : (s.refs o).callback with
  | false =>
    have hrefs : { s.refs o with client := false } = ({} : Refs) := by simp [hcallback]
    rw [hrefs] at hs
    refine h.destroy ?_ (hserved hcallback) (fun g hg l' => h.ne_next (by rw [hp]; rfl) hg l')
      (by rw [hp]; rfl) (.inr ⟨l,hfits.1,rfl⟩) hfits.2 hs
    rw [hp]
    exact if_neg (by simp [hcallback])
  | true =>
    have hrefs : s.refs o = ⟨true,true⟩ := Refs.ext href hcallback
    have hleft : { s.refs o with client := false } = Refs.mk false true := by simp [hcallback]
    rw [hleft] at hs
    obtain rfl : t = (s.setRefs o ⟨false,true⟩).goto f (.loop l) := (Option.some.inj hs).symm
    have hsame : ∀ o', (Function.update s.refs o ⟨false,true⟩ o').callback = (s.refs o').callback := by
      intro o'
      by_cases ho' : o' = o
      · rw [ho', Function.update_self, hcallback]
      · rw [Function.update_of_ne ho']
    have hholds : ((s.setRefs o ⟨false,true⟩).goto f (.loop l)).holds = s.holds := by
      funext q
      cases q with
      | none => rfl
      | some g =>
        by_cases hg : g = f
        · rw [hg, holds_self rfl, holds, hp]
          simp [ServerPhase.rights, hcallback]
        · exact holds_of_ne rfl hg fun l' o' _ => hsame o'
    have hview : ∀ o', o' ≠ o → ((s.setRefs o ⟨false,true⟩).goto f (.loop l)).view o' = s.view o' :=
      fun o' ho' => view_congr rfl (Function.update_of_ne ho' ..) .rfl .rfl .rfl fun _ _ => .rfl
    refine h.advance rfl h.mgr (h.creating_eq (by rw [hp]; rfl)) (hholds ▸ h.exclusive)
      (hholds ▸ h.owned) (by rintro _ ⟨⟩) ?_ hfits.1 trivial ?_ ?_ ?_
    · intro o' ho'
      by_cases heq : o' = o
      · rw [heq, goto_refs, setRefs_refs, Function.update_self] at ho'
        cases ho'
      · rw [goto_refs, setRefs_refs, Function.update_of_ne heq] at ho'
        refine .inr ⟨?_,ho'⟩
        rw [hp]
        exact fun hc => heq (Option.some.inj hc).symm
    · intro g hg
      by_cases hobject : (s.phase g).object = some o
      · have hnext := h.ne_next (f := f) (by rw [hp]; rfl) hg
        exact ((h.phases g).setRefs hobject hnext hrefs).congr (fun _ _ => rfl) fun _ => rfl
      · refine (h.phases g).congr (fun o' ho' => hview o' ?_) fun _ => rfl
        rintro rfl
        exact hobject ho'
    · intro task htask
      obtain ⟨hfit,htask⟩ := h.tasks task htask
      refine ⟨hfit,?_⟩
      cases task with
      | startAccept _ | stop => trivial
      | handleClient client =>
        exact ⟨htask.1.alike ⟨rfl,rfl,rfl,rfl⟩,(hsame client).trans htask.2⟩
    · exact h.ledger.congr rfl (fun fd c hc => ⟨c,hc⟩) rfl rfl rfl rfl le_rfl fun _ _ => rfl

/-- While the callback lives, the variable of a client is at the end of an iteration. -/
theorem exists_next (h : Inv v n s) (hrefs : s.refs o = ⟨true,true⟩) :
    ∃ g l, s.phase g = .next l o := by
  obtain ⟨g,hg⟩ := h.referred o (by rw [hrefs])
  have hok := h.phases g
  have habsurd : ∀ {r : Refs}, (s.view o).refs = r → r = ⟨true,true⟩ := fun hr =>
    hr.symm.trans hrefs
  refine ⟨g,?_⟩
  revert hg hok
  cases s.phase g with
  | idle | loop _ | stop _ | handleClient _ | close _ _ _ | del _ _ _ | close_f _ _ _ => nofun
  | accept _ _ _ | get _ _ _ | create _ _ _ | init _ _ _ =>
    rintro ⟨⟩ hok
    exact absurd (habsurd hok.1.refs) (by decide)
  | setRecvTimeout _ _ | schedule _ _ =>
    rintro ⟨⟩ hok
    exact absurd (habsurd hok.1) (by decide)
  | next l _ =>
    rintro ⟨⟩ -
    exact ⟨l,rfl⟩

/-- The callback ends before the iteration: the right goes back to the variable. -/
theorem pass (h : Inv v n s) (hp : s.phase f = .handleClient o) (hrefs : s.refs o = ⟨true,true⟩)
    (ht : t = (s.setRefs o ⟨true,false⟩).goto f .idle) : Inv v n t := by
  have hok := h.phases f
  rw [hp] at hok
  obtain ⟨g,l,hg⟩ := h.exists_next hrefs
  have hgf : g ≠ f := by
    rintro rfl
    cases hp.symm.trans hg
  have hfrom : s.holds (some f) = [some o] := by
    rw [holds, hp]
    rfl
  have hphase : t.phase = Function.update s.phase f .idle := by
    rw [ht]
    rfl
  have hrefs' : t.refs = Function.update s.refs o ⟨true,false⟩ := by
    rw [ht]
    rfl
  have hqueue : t.holds none = s.holds none := by
    rw [ht]
    rfl
  have hself : t.holds (some f) = [] := holds_self hphase
  have hunique : ∀ g' l', s.phase g' = .next l' o → g' = g := fun g' l' hg' =>
    h.client g' g o (by rw [hg']; rfl) (by rw [hg]; rfl)
  have hto : s.holds (some g) = [] ∧ t.holds (some g) = [some o] := by
    constructor
    · rw [holds, hg]
      simp [ServerPhase.rights, hrefs]
    · rw [holds, hphase, Function.update_of_ne hgf, hg, hrefs']
      simp [ServerPhase.rights]
  have hother : ∀ g', g' ≠ f → g' ≠ g → t.holds (some g') = s.holds (some g') := by
    refine fun g' hf hne => holds_of_ne hphase hf fun l' o' hl' => ?_
    have ho' : o' ≠ o := by
      rintro rfl
      exact hne (hunique g' l' hl')
    rw [hrefs', Function.update_of_ne ho']
  have hview : ∀ o', o' ≠ o → t.view o' = s.view o' := by
    intro o' ho'
    subst ht
    exact view_congr rfl (Function.update_of_ne ho' ..) .rfl .rfl .rfl fun _ _ => .rfl
  obtain ⟨hothers,htasks⟩ := h.others (t := t) (q := some f) (o := o)
    (hfrom ▸ List.mem_cons_self) hview (ht ▸ rfl) fun l' g' _ hg' _ => by
      have hnext := h.phases g'
      rw [hg'] at hnext
      subst ht
      exact ⟨hnext.1,hnext.2.1,by simp [view],fun _ => hok.1.alike ⟨rfl,rfl,rfl,rfl⟩⟩
  refine h.advance hphase (ht ▸ h.mgr) (ht ▸ h.creating_eq (by rw [hp]; rfl)) ?_ ?_
    (by rintro _ ⟨⟩) ?_ trivial trivial (fun g' hg' => hothers g' (by simpa using hg')) ?_ ?_
  · refine h.exclusive.move (p := some f) (q := some g) (c := some o) (by simpa using hgf.symm) ?_ ?_ ?_
    · rw [hfrom, hself]
    · rw [hto.1, hto.2]
    · rintro (_ | g') hf hne
      · rw [hqueue]
      · rw [hother g' (by simpa using hf) (by simpa using hne)]
  · intro fd client hfd
    rw [ht] at hfd
    obtain ⟨_ | g',hright⟩ := h.owned fd client hfd
    · exact ⟨none,hqueue ▸ hright⟩
    · by_cases hf : g' = f
      · rw [hf, hfrom] at hright
        exact ⟨some g,hto.2 ▸ hright⟩
      · have hne : g' ≠ g := by
          rintro rfl
          rw [hto.1] at hright
          cases hright
        exact ⟨some g',hother g' hf hne ▸ hright⟩
  · intro o' ho'
    rw [hp]
    refine .inr ⟨by rintro ⟨⟩,?_⟩
    by_cases heq : o' = o
    · rw [heq, hrefs]
    · rwa [hrefs', Function.update_of_ne heq] at ho'
  · rw [ht]
    exact fun task htask => ⟨(h.tasks task htask).1,ht ▸ htasks (by simp) task htask⟩
  · exact h.ledger.congr (ht ▸ rfl) (fun fd c hc => ⟨c,by rw [ht] at hc; exact hc⟩) (ht ▸ rfl)
      (ht ▸ rfl) (ht ▸ rfl) (ht ▸ rfl) (ht ▸ le_rfl) fun _ _ => ht ▸ rfl

/-- `handleClient` returns. -/
theorem handled (h : Inv v n s) (hp : s.phase f = .handleClient o)
    (hs : s.release f o { s.refs o with callback := false } .done = some t) : Inv v n t := by
  have hfits := h.fits f
  have hok := h.phases f
  rw [hp] at hfits hok
  obtain ⟨hserved,hcallback⟩ := hok
  cases hclient : (s.refs o).client with
  | false =>
    have hleft : { s.refs o with callback := false } = ({} : Refs) := by simp [hclient]
    rw [hleft] at hs
    refine h.destroy (by rw [hp]; rfl) hserved (fun g hg l hl => ?_) (by rw [hp]; rfl) (.inl rfl)
      hfits hs
    have hnext := h.phases g
    rw [hl] at hnext
    exact absurd (hclient.symm.trans hnext.2.2.1) (by decide)
  | true =>
    have hleft : { s.refs o with callback := false } = Refs.mk true false := by simp [hclient]
    rw [hleft] at hs
    exact h.pass hp (Refs.ext hclient hcallback) (Option.some.inj hs).symm

end Inv
end CoroutineWebserve.Serving
