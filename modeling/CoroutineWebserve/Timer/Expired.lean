import CoroutineWebserve.Timer.Delivery

/-!
# The timers that `listExpiredCb` takes

The timers that are due are taken from the front of the set, whatever the address of the bound.
Each is stopped or armed anew, and nothing else changes.
-/
namespace CoroutineWebserve.TimerManager
variable {F : Type*} {m m' : TimerManager F} {x y : ℕ} {timer : Timer F}

/-- The deadline of a timer has come. -/
def Due (m : TimerManager F) (now_ms : UInt64) (x : ℕ) : Prop :=
  ∃ timer ∈ m.heap[x]?, timer.next ≤ now_ms

/-- The callback that is set. -/
def callback (m : TimerManager F) (x : ℕ) : Option F := m.heap[x]?.bind Timer.cb

/-- The timer behind its delivery. -/
def delivered (now_ms : UInt64) (timer : Timer F) : Timer F :=
  if timer.recurring then { timer with next := now_ms+timer.ms } else { timer with cb := none }

theorem delivered_addr (now_ms : UInt64) (timer : Timer F) :
    (delivered now_ms timer).addr = timer.addr := by
  unfold delivered
  split_ifs <;> rfl

/-! ### The loop -/

/-- What the loop does with the timers that are taken. -/
structure Delivered (now_ms : UInt64) (taken : List ℕ) (m m' : TimerManager F) : Prop where
  heap : ∀ y, m'.heap[y]? =
    if y ∈ taken then m.heap[y]?.map (delivered now_ms) else m.heap[y]?
  timers : ∀ y, y ∈ m'.timers ↔
    y ∈ m.timers ∨ y ∈ taken ∧ ∃ timer ∈ m.heap[y]?, timer.recurring = true
  history : m'.history = (taken.map fun x => .deliver x (m.callback x)).reverse++m.history
  lined : Lined m' []

/-- One round. -/
theorem deliver_step (now_ms : UInt64) {taken : List ℕ} (h : Lined m (x :: taken))
    (hx : m.heap[x]? = some timer) :
    Lined (deliver now_ms m x) taken ∧
    (∀ y, (deliver now_ms m x).heap[y]? =
      if x = y then some (delivered now_ms timer) else m.heap[y]?) ∧
    (∀ y, y ∈ (deliver now_ms m x).timers ↔ y ∈ m.timers ∨ y = x ∧ timer.recurring = true) ∧
    (deliver now_ms m x).history = .deliver x timer.cb :: m.history := by
  have hrecord : Lined (m.record (.deliver x timer.cb)) (x :: taken) :=
    ⟨h.sorted,h.addr,h.known⟩
  have hx' : (m.record (.deliver x timer.cb)).heap[x]? = some timer := hx
  have hset := hrecord.setTimer (delivered now_ms timer) hx' (delivered_addr now_ms timer)
  have hheap : ∀ y,
      ((m.record (.deliver x timer.cb)).setTimer x (delivered now_ms timer)).heap[y]? =
        if x = y then some (delivered now_ms timer) else m.heap[y]? := getElem?_setTimer hx'
  unfold deliver
  rw [hx]
  dsimp only
  unfold delivered at hset hheap ⊢
  split_ifs at hset hheap ⊢ with hrecurring
  · refine ⟨hset.insert,hheap,fun y => ?_,rfl⟩
    rw [hset.insert_perm.mem_iff, List.mem_cons, or_comm, and_iff_left hrecurring]
    rfl
  · refine ⟨hset.tail,hheap,fun y => ?_,rfl⟩
    rw [or_iff_left (fun hy => hrecurring hy.2)]
    rfl

theorem foldl_deliver (now_ms : UInt64) {taken : List ℕ} (h : Lined m taken) :
    Delivered now_ms taken m (taken.foldl (deliver now_ms) m) := by
  induction taken generalizing m with
  | nil => exact ⟨fun _ => rfl,fun y => by simp,rfl,h⟩
  | cons x taken ih =>
    obtain ⟨timer,hx⟩ := h.known x (List.mem_append_right _ List.mem_cons_self)
    obtain ⟨hlined,hheap,htimers,hhistory⟩ := deliver_step now_ms h hx
    have hnot : x ∉ taken := (List.nodup_cons.mp (List.nodup_append'.mp h.nodup).2.1).1
    have hrest := ih hlined
    have hsame : ∀ y ∈ taken, (deliver now_ms m x).heap[y]? = m.heap[y]? := by
      intro y hy
      rw [hheap, if_neg]
      rintro rfl
      exact hnot hy
    rw [List.foldl_cons]
    refine ⟨fun y => ?_,fun y => ?_,?_,hrest.lined⟩
    · rw [hrest.heap]
      by_cases hy : y ∈ taken
      · rw [if_pos hy, if_pos (List.mem_cons_of_mem x hy), hsame y hy]
      · rw [if_neg hy, hheap]
        split_ifs with hxy hmem hmem
        · rw [← hxy, hx]
          rfl
        · exact absurd (List.mem_cons.mpr (.inl hxy.symm)) hmem
        · exact absurd hmem (by simp [Ne.symm hxy, hy])
        · rfl
    · have hfirst : (y = x ∧ timer.recurring = true) ↔
          y = x ∧ ∃ timer ∈ m.heap[y]?, timer.recurring = true := by
        refine and_congr_right ?_
        rintro rfl
        simp [hx]
      have hmore : (y ∈ taken ∧ ∃ timer ∈ (deliver now_ms m x).heap[y]?, timer.recurring = true) ↔
          y ∈ taken ∧ ∃ timer ∈ m.heap[y]?, timer.recurring = true :=
        and_congr_right fun hy => by rw [hsame y hy]
      rw [hrest.timers, htimers, hmore, hfirst, or_assoc, ← or_and_right, List.mem_cons]
    · have hcallbacks : (taken.map fun y => Event.deliver y ((deliver now_ms m x).callback y)) =
          taken.map fun y => .deliver y (m.callback y) :=
        List.map_congr_left fun y hy => by rw [callback, callback, hsame y hy]
      have hx' : m.callback x = timer.cb := by rw [callback, hx, Option.bind_some]
      rw [hrest.history, hcallbacks, hhistory, List.map_cons, List.reverse_cons, hx',
        List.append_assoc, List.singleton_append]

/-! ### The whole call -/

/-- The call at `now_ms` delivers the timers `taken`, in this order. -/
structure Expires (now_ms : UInt64) (m m' : TimerManager F) (taken : List ℕ) : Prop where
  due : ∀ x, x ∈ taken ↔ x ∈ m.timers ∧ m.Due now_ms x
  once : taken.Nodup
  order : taken.Pairwise fun x y =>
    ∀ timer ∈ m.heap[x]?, ∀ timer' ∈ m.heap[y]?, timer.next ≤ timer'.next
  cbs : m'.history = (taken.map fun x => .deliver x (m.callback x)).reverse++m.history
  stopped : ∀ x ∈ taken, ∀ timer ∈ m.heap[x]?, timer.recurring = false →
    x ∉ m'.timers ∧ m'.heap[x]? = some { timer with cb := none }
  rearmed : ∀ x ∈ taken, ∀ timer ∈ m.heap[x]?, timer.recurring = true →
    x ∈ m'.timers ∧ m'.heap[x]? = some { timer with next := now_ms+timer.ms }
  other : ∀ x, x ∉ taken → m'.heap[x]? = m.heap[x]? ∧ (x ∈ m'.timers ↔ x ∈ m.timers)
  left : ∀ x ∈ m'.timers, x ∈ taken ∨ ∃ timer ∈ m'.heap[x]?, now_ms < timer.next
  lined : Lined m' []

theorem not_rollover {now_ms : UInt64} (hclock : m.previouseTime ≤ now_ms) :
    ¬m.Rollover now_ms := fun h => absurd h.1 (UInt64.not_lt.mpr hclock)

theorem next_le_of_before {timer' : Timer F} (hx : m.heap[x]? = some timer)
    (hy : m.heap[y]? = some timer') (h : m.Before x y) : timer.next ≤ timer'.next := by
  rw [Before, hx, hy] at h
  simp only [Comparator] at h
  rcases h with h | ⟨h,-⟩
  · exact UInt64.le_of_lt h
  · exact UInt64.not_lt.mp h

/-- The timers that are taken are the due ones. -/
theorem mem_expired (h : Lined m []) {now_ms : UInt64} (hclock : m.previouseTime ≤ now_ms)
    (addr : ℕ) : x ∈ m.expired now_ms addr ↔ x ∈ m.timers ∧ m.Due now_ms x := by
  cases hx : m.heap[x]? with
  | none =>
    have hnot : x ∉ m.timers := by
      intro hmem
      obtain ⟨timer,ht⟩ := h.known x (List.mem_append_left _ hmem)
      rw [hx] at ht
      cases ht
    exact iff_of_false (fun hmem => hnot ((expired_isPrefix m now_ms addr).subset hmem))
      fun hmem => hnot hmem.1
  | some timer =>
    rw [mem_expired_iff h hx, or_iff_right (not_rollover hclock), Due, hx]
    simp

/-- The call runs the loop over the timers that are taken, of which there are none when it
returns before that. -/
theorem listExpiredCb_delivered (h : Lined m []) {now_ms : UInt64}
    (hclock : m.previouseTime ≤ now_ms) (addr : ℕ) :
    Delivered now_ms (m.expired now_ms addr)
      { m with timers := m.timers.drop (m.expired now_ms addr).length }
      (m.listExpiredCb now_ms addr) := by
  have hempty : m.expired now_ms addr = [] → ∀ previouseTime,
      Delivered now_ms (m.expired now_ms addr)
        { m with timers := m.timers.drop (m.expired now_ms addr).length }
        { m with previouseTime } := by
    intro hnone previouseTime
    rw [hnone]
    exact ⟨fun _ => rfl,fun _ => by simp,rfl,⟨h.sorted,h.addr,h.known⟩⟩
  unfold listExpiredCb
  split
  · next hnil =>
    refine hempty ?_ m.previouseTime
    exact List.prefix_nil.mp (hnil ▸ expired_isPrefix m now_ms addr)
  · next first rest hcons =>
    split_ifs with hlate
    · refine hempty (List.eq_nil_iff_forall_not_mem.mpr fun x hx => ?_) now_ms
      obtain ⟨-,timer,hfirst,hlt⟩ := hlate
      obtain ⟨hmem,timer',ht',hdue⟩ := (mem_expired h hclock addr).mp hx
      have hle : timer.next ≤ timer'.next := by
        rw [hcons] at hmem
        rcases List.mem_cons.mp hmem with rfl | hmem
        · rw [hfirst] at ht'
          cases ht'
          exact UInt64.le_refl _
        · exact next_le_of_before hfirst ht'
            ((List.pairwise_cons.mp (hcons ▸ h.sorted)).1 x hmem)
      exact absurd (UInt64.lt_of_lt_of_le hlt hle) (UInt64.not_lt.mpr hdue)
    · have hloop := foldl_deliver now_ms (h.take now_ms addr now_ms)
      exact ⟨hloop.heap,hloop.timers,hloop.history,hloop.lined⟩

/-- The timers that are due are delivered in the order of their deadlines. Afterwards each is
stopped or armed anew, and the others are as they were. -/
theorem listExpiredCb_expires (h : Lined m []) {now_ms : UInt64}
    (hclock : m.previouseTime ≤ now_ms) (addr : ℕ) :
    ∃ taken, Expires now_ms m (m.listExpiredCb now_ms addr) taken := by
  have hloop := listExpiredCb_delivered h hclock addr
  have hdue := fun x => mem_expired (x := x) h hclock addr
  have hfront := expired_isPrefix m now_ms addr
  generalize m.expired now_ms addr = taken at hloop hdue hfront
  have hsplit := List.prefix_iff_eq_append.mp hfront
  have hnodup : (taken++m.timers.drop taken.length).Nodup := by
    rw [hsplit, ← List.append_nil m.timers]
    exact h.nodup
  have hbehind : ∀ x, x ∈ m.timers.drop taken.length ↔ x ∈ m.timers ∧ x ∉ taken := by
    intro x
    refine ⟨fun hx => ⟨List.mem_of_mem_drop hx,fun htaken => ?_⟩,fun ⟨hx,hnot⟩ => ?_⟩
    · exact (List.nodup_append'.mp hnodup).2.2 htaken hx
    · rw [← hsplit, List.mem_append] at hx
      exact hx.resolve_left hnot
  have hset : ∀ x, x ∈ (m.listExpiredCb now_ms addr).timers ↔ x ∈ m.timers ∧ x ∉ taken ∨
      x ∈ taken ∧ ∃ timer ∈ m.heap[x]?, timer.recurring = true := by
    intro x
    rw [hloop.timers, hbehind]
  refine ⟨taken,hdue,(List.nodup_append'.mp hnodup).1,?_,hloop.history,?_,?_,?_,?_,hloop.lined⟩
  · refine (h.sorted.sublist hfront.sublist).imp fun hbefore timer hx timer' hy => ?_
    exact next_le_of_before hx hy hbefore
  · intro x hx timer ht hrecurring
    rw [hset, hloop.heap, if_pos hx]
    refine ⟨?_,?_⟩
    · rintro (⟨-,hnot⟩ | ⟨-,timer',ht',hrecurring'⟩)
      · exact hnot hx
      · cases ht.symm.trans ht'
        rw [hrecurring] at hrecurring'
        cases hrecurring'
    · rw [ht, Option.map_some, delivered, if_neg (by simp [hrecurring])]
  · intro x hx timer ht hrecurring
    rw [hset, hloop.heap, if_pos hx, ht, Option.map_some, delivered, if_pos hrecurring]
    exact ⟨.inr ⟨hx,timer,rfl,hrecurring⟩,rfl⟩
  · intro x hx
    rw [hset, hloop.heap, if_neg hx]
    refine ⟨rfl,fun hmem => ?_,fun hmem => .inl ⟨hmem,hx⟩⟩
    exact hmem.elim And.left fun h => absurd h.1 hx
  · intro x hmem
    rcases (hset x).mp hmem with ⟨hx,hnot⟩ | ⟨hx,-⟩
    · obtain ⟨timer,ht⟩ := h.known x (List.mem_append_left _ hx)
      refine .inr ⟨timer,?_,?_⟩
      · rw [hloop.heap, if_neg hnot]
        exact ht
      · exact UInt64.not_le.mp fun hle => hnot ((hdue x).mpr ⟨hx,timer,ht,hle⟩)
    · exact .inl hx

/-- Two timers with one deadline on both sides of the bound, a recurring one whose period is 0
among them, and one that is not due. -/
theorem listExpiredCb_expires_three : ∃ m : TimerManager ℕ,
    (m.listExpiredCb 10 64).history = [.deliver 1 (some 8),.deliver 0 (some 7)] ∧
    (m.listExpiredCb 10 64).timers = [0,2] ∧
    ∃ taken, Expires 10 m (m.listExpiredCb 10 64) taken := by
  let m : TimerManager ℕ := ⟨[0,1,2],false,5,
    [⟨32,true,0,10,some 7⟩,⟨96,false,4,10,some 8⟩,⟨48,false,9,11,some 9⟩],[]⟩
  have hlined : Lined m [] := ⟨by decide +kernel,by decide,by simp [m]⟩
  exact ⟨m,by decide +kernel,by decide,listExpiredCb_expires hlined (by decide) 64⟩

end CoroutineWebserve.TimerManager
