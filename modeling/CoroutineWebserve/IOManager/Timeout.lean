import CoroutineWebserve.IOManager.Timers
import CoroutineWebserve.Timer.Expired

/-!
# The timeout that `idle` hands to `epoll_wait`

The distance to the earliest deadline is a `uint64_t`. It is compared as an `int`, and what is left
of it is cast to one.
-/
namespace CoroutineWebserve

namespace TimerManager
variable {F : Type*}

/-- What `getNextTimer` returns. -/
def getNextTimer (m : TimerManager F) (now_ms : UInt64) : UInt64 :=
  match m.timers.head?.bind (m.heap[·]?) with
  | none => ~~~0
  | some next => if now_ms ≥ next.next then 0 else next.next-now_ms

/-- The earliest deadline in the set. -/
def Earliest (m : TimerManager F) (next : UInt64) : Prop :=
  (∃ x ∈ m.timers, ∃ timer ∈ m.heap[x]?, timer.next = next) ∧
    ∀ x ∈ m.timers, ∀ timer ∈ m.heap[x]?, next ≤ timer.next

variable {m : TimerManager F} {now next : UInt64}

theorem getNextTimer_nil (h : m.timers = []) : m.getNextTimer now = ~~~0 := by
  rw [getNextTimer, h]
  rfl

/-- The first timer of the set has the earliest deadline. -/
theorem earliest_cons (h : Lined m []) {x : ℕ} {xs : List ℕ} (hx : m.timers = x :: xs) :
    ∃ timer, m.heap[x]? = some timer ∧ m.Earliest timer.next := by
  obtain ⟨timer,ht⟩ := h.known x (by simp [hx])
  refine ⟨timer,ht,⟨x,by simp [hx],timer,ht,rfl⟩,fun y hy timer' ht' => ?_⟩
  rw [hx] at hy
  rcases List.mem_cons.mp hy with rfl | hy
  · rw [ht] at ht'
    cases ht'
    exact UInt64.le_refl _
  · exact next_le_of_before ht ht' ((List.pairwise_cons.mp (hx ▸ h.sorted)).1 y hy)

theorem Earliest.unique {next' : UInt64} (h : m.Earliest next) (h' : m.Earliest next') :
    next = next' := by
  obtain ⟨⟨x,hx,t,ht,rfl⟩,hle⟩ := h
  obtain ⟨⟨y,hy,u,hu,rfl⟩,hle'⟩ := h'
  exact UInt64.le_antisymm (hle y hy u hu) (hle' x hx t ht)

/-- The distance to the earliest deadline. -/
theorem toNat_getNextTimer (h : Lined m []) (hnext : m.Earliest next) :
    (m.getNextTimer now).toNat = next.toNat-now.toNat := by
  cases hm : m.timers with
  | nil =>
    obtain ⟨⟨x,hx,-⟩,-⟩ := hnext
    rw [hm] at hx
    cases hx
  | cons x xs =>
    obtain ⟨timer,ht,hfirst⟩ := earliest_cons h hm
    obtain rfl := hnext.unique hfirst
    rw [getNextTimer, hm, List.head?_cons, Option.bind_some, ht]
    dsimp only
    split_ifs with hdue
    · exact (Nat.sub_eq_zero_of_le (UInt64.le_iff_toNat_le.mp hdue)).symm
    · exact UInt64.toNat_sub_of_le _ _ (UInt64.le_of_lt (UInt64.not_le.mp hdue))

end TimerManager

namespace IOManager
open TimerManager
variable {F : Type*} {m : TimerManager F} {now : UInt64}

/-- What one round of the loop around `epoll_wait` makes of `next_timeout`. -/
def clip (next_timeout : UInt64) : UInt64 :=
  if next_timeout ≠ ~~~0 then
    if Timers.int next_timeout.toNat > Timers.MAX_TIMEOUT then UInt64.ofNat Timers.MAX_TIMEOUT
    else next_timeout
  else UInt64.ofNat Timers.MAX_TIMEOUT

/-- The timeout of a call of `epoll_wait` that `EINTR` has repeated `retries` times; `next_timeout`
is not computed anew. -/
def idleTimeout (m : TimerManager F) (now : UInt64) (retries : ℕ) : ℤ :=
  Timers.int (clip^[retries+1] (m.getNextTimer now)).toNat

/-- The timeout is an `int` that is neither negative nor too large, and it reaches to the earliest
deadline. -/
structure RightTimeout (m : TimerManager F) (now : UInt64) (timeout : ℤ) : Prop where
  nonneg : 0 ≤ timeout
  le : timeout ≤ 3000
  empty : m.timers = [] → timeout = 3000
  earliest : ∀ next, m.Earliest next → timeout = min 3000 ((next.toNat-now.toNat : ℕ) : ℤ)

/-- The distance is short, its lower half is a large `int`, or it is all ones. -/
def Fits (d : ℕ) : Prop := d ≤ 3000 ∨ 3000 ≤ d%2^32 ∧ d%2^32 < 2^31 ∨ d = 2^64-1

/-- The cast to `int` takes the lower half as it is or as a negative number. -/
theorem int_cases (n : ℕ) : n%2^32 < 2^31 ∧ Timers.int n = (n%2^32 : ℕ) ∨
    2^31 ≤ n%2^32 ∧ Timers.int n < 0 := by
  unfold Timers.int
  rw [Int.bmod_def]
  split_ifs with h
  · exact .inl ⟨by omega,by omega⟩
  · exact .inr ⟨by omega,by omega⟩

theorem clip_clip (d : UInt64) : clip (clip d) = clip d := by
  have hmax : clip (UInt64.ofNat Timers.MAX_TIMEOUT) = UInt64.ofNat Timers.MAX_TIMEOUT := by
    decide +kernel
  by_cases hnone : d ≠ ~~~0 ∧ ¬Timers.int d.toNat > Timers.MAX_TIMEOUT
  · have hd : clip d = d := by rw [clip, if_pos hnone.1, if_neg hnone.2]
    rw [hd, hd]
  · have hd : clip d = UInt64.ofNat Timers.MAX_TIMEOUT := by
      unfold clip
      split_ifs with hne hgt
      · rfl
      · exact absurd ⟨hne,hgt⟩ hnone
      · rfl
    rw [hd, hmax]

/-- A repeated call has the timeout of the first. -/
theorem idleTimeout_eq (m : TimerManager F) (now : UInt64) (retries : ℕ) :
    idleTimeout m now retries = Timers.int (clip (m.getNextTimer now)).toNat := by
  have hround : ∀ d, clip^[retries+1] d = clip d := by
    intro d
    induction retries with
    | zero => rfl
    | succ n ih => rw [Function.iterate_succ_apply', ih, clip_clip]
  rw [idleTimeout, hround]

theorem int_clip (d : UInt64) : Timers.int (clip d).toNat =
    if d.toNat = 2^64-1 ∨ Timers.int d.toNat > 3000 then 3000 else Timers.int d.toNat := by
  have hones : d = ~~~0 ↔ d.toNat = 2^64-1 := by
    rw [← UInt64.toNat_inj]
    rfl
  have hmax : Timers.int (UInt64.ofNat Timers.MAX_TIMEOUT).toNat = 3000 := by decide
  unfold clip
  split_ifs with hne hgt hor hor hor
  · exact hmax
  · exact absurd (.inr hgt) hor
  · exact absurd hor (not_or.mpr ⟨mt hones.mpr hne,hgt⟩)
  · rfl
  · exact hmax
  · exact absurd (.inl (hones.mp (not_not.mp hne))) hor

theorem fits_iff {n : ℕ} (hn : n < 2^64) :
    (if n = 2^64-1 ∨ Timers.int n > 3000 then 3000 else Timers.int n) = min 3000 (n : ℤ) ↔
      Fits n := by
  unfold Fits
  rcases int_cases n with ⟨hlow,hint⟩ | ⟨hhigh,hneg⟩
  · rw [hint]
    split_ifs with h <;> omega
  · split_ifs with h <;> omega

/-- Every timeout of `idle` is right exactly if there is no timer or the distance to the earliest
deadline comes through the casts. -/
theorem idleTimeout_iff (h : Lined m []) (now : UInt64) :
    (∀ retries, RightTimeout m now (idleTimeout m now retries)) ↔
      ∀ next, m.Earliest next → Fits (next.toNat-now.toNat) := by
  have hvalue : ∀ next, m.Earliest next → ∀ retries,
      (idleTimeout m now retries = min 3000 ((next.toNat-now.toNat : ℕ) : ℤ) ↔
        Fits (next.toNat-now.toNat)) := by
    intro next hnext retries
    rw [idleTimeout_eq, int_clip, toNat_getNextTimer h hnext]
    exact fits_iff ((Nat.sub_le _ _).trans_lt next.toNat_lt)
  constructor
  · intro hright next hnext
    exact (hvalue next hnext 0).mp ((hright 0).earliest next hnext)
  · intro hfits retries
    cases hm : m.timers with
    | nil =>
      have hmax : idleTimeout m now retries = 3000 := by
        rw [idleTimeout_eq, getNextTimer_nil hm]
        decide
      rw [hmax]
      refine ⟨by norm_num,le_refl _,fun _ => rfl,fun next hnext => ?_⟩
      obtain ⟨⟨x,hx,-⟩,-⟩ := hnext
      rw [hm] at hx
      cases hx
    | cons x xs =>
      obtain ⟨timer,-,hfirst⟩ := earliest_cons h hm
      have hmin := (hvalue _ hfirst retries).mpr (hfits _ hfirst)
      rw [hmin]
      refine ⟨by omega,by omega,fun hnil => ?_,fun next hnext => ?_⟩
      · rw [hm] at hnil
        cases hnil
      · rw [hnext.unique hfirst]

/-- A timer that is due in six milliseconds. -/
theorem idleTimeout_six : ∃ m : TimerManager ℕ, idleTimeout m 4 0 = 6 ∧
    ((∀ retries, RightTimeout m 4 (idleTimeout m 4 retries)) ↔
      ∀ next, m.Earliest next → Fits (next.toNat-(4 : UInt64).toNat)) := by
  let m : TimerManager ℕ := ⟨[0],false,0,[⟨64,false,10,10,some 7⟩],[]⟩
  have hlined : Lined m [] := ⟨by decide,by decide,by simp [m]⟩
  exact ⟨m,by decide,idleTimeout_iff hlined 4⟩

/-- For a timer that is due in 2^31 milliseconds, `idle` waits without limit. -/
theorem not_rightTimeout : ∃ m : TimerManager ℕ, (TimerManager.machine ℕ).Reachable m ∧
    idleTimeout m 0 0 = -2^31 ∧ ¬RightTimeout m 0 (idleTimeout m 0 0) := by
  obtain ⟨m,hm,htimeout⟩ := Transition.Machine.exists_reaches (M := TimerManager.machine ℕ)
    (G := fun _ _ => True) ⟨0,rfl⟩ [.addTimer (2^31) 7 false 0 64]
    (fun m => idleTimeout m 0 0 = -2^31) (Transition.Machine.guarded_true ..) (by decide)
  refine ⟨m,hm,htimeout,fun hright => ?_⟩
  have hnonneg := hright.nonneg
  rw [htimeout] at hnonneg
  exact absurd hnonneg (by norm_num)

end IOManager
end CoroutineWebserve
