import CoroutineWebserve.FdManager.Table

/-!
# `O_NONBLOCK` of managed sockets

The hooked calls keep a virtual flag in the context of a socket, while the flag of the kernel
should stay set. Descriptors name files of their own here; a call is one step.
-/
namespace CoroutineWebserve

/-- The status flags of the open descriptors, the contexts, and a ghost record of the last
choice that the user of a descriptor has made. -/
structure Sockets where
  flags : ℕ → Option (BitVec 32)
  ctxs : ℕ → Option FdCtx
  chosen : ℕ → Bool

namespace Sockets

def O_NONBLOCK : BitVec 32 := 0x800

/-- `flags & O_NONBLOCK`, as a condition. -/
def nonblock (flags : BitVec 32) : Bool := flags &&& O_NONBLOCK ≠ 0

/-- The flags that `F_SETFL` changes: `O_APPEND`, `O_NONBLOCK`, `O_ASYNC`, `O_DIRECT` and
`O_NOATIME`. -/
def settable : BitVec 32 := 0x46c00

/-! ### The kernel -/

/-- `fcntl_f(fd, F_GETFL)`; an error is `-1`. -/
def getfl_f (s : Sockets) (fd : ℕ) : BitVec 32 := (s.flags fd).getD (-1)

/-- `fcntl_f(fd, F_SETFL, arg)`. -/
def setfl_f (s : Sockets) (fd : ℕ) (arg : BitVec 32) : Sockets :=
  { s with flags := Function.update s.flags fd ((s.flags fd).map fun flags =>
      flags &&& ~~~settable ||| arg &&& settable) }

/-- `ioctl_f(fd, FIONBIO, &v)`. -/
def ioctl_f (s : Sockets) (fd : ℕ) (v : BitVec 32) : Sockets :=
  { s with flags := Function.update s.flags fd ((s.flags fd).map fun flags =>
      if v ≠ 0 then flags ||| O_NONBLOCK else flags &&& ~~~O_NONBLOCK) }

/-! ### The hooked calls -/

def setCtx (s : Sockets) (fd : ℕ) (c : Option FdCtx) : Sockets :=
  { s with ctxs := Function.update s.ctxs fd c }

/-- `FdMgr::get(fd, true)` for a descriptor that `fstat` knows to be a socket. -/
def create (s : Sockets) (fd : ℕ) : Sockets :=
  match s.ctxs fd with
  | some _ => s
  | none =>
    let flags := s.getfl_f fd
    let s := if nonblock flags then s else s.setfl_f fd (flags ||| O_NONBLOCK)
    s.setCtx fd (some (.new fd (some true)))

/-- The context of a socket that is not closed. -/
def managed (s : Sockets) (fd : ℕ) : Option FdCtx :=
  (s.ctxs fd).filter fun c => !c.isClosed && c.isSocket

/-- `fcntl(fd, F_SETFL, arg)`. -/
def setfl (s : Sockets) (fd : ℕ) (arg : BitVec 32) : Sockets :=
  match s.managed fd with
  | none => s.setfl_f fd arg
  | some c =>
    (s.setCtx fd (some (c.setUserNonblock (nonblock arg)))).setfl_f fd
      (if c.sysNonblock then arg ||| O_NONBLOCK else arg &&& ~~~O_NONBLOCK)

/-- `fcntl(fd, F_GETFL)`. -/
def getfl (s : Sockets) (fd : ℕ) : BitVec 32 :=
  match s.managed fd with
  | none => s.getfl_f fd
  | some c =>
    if c.userNonblock then s.getfl_f fd ||| O_NONBLOCK else s.getfl_f fd &&& ~~~O_NONBLOCK

/-- `ioctl(fd, FIONBIO, &v)`. -/
def ioctl (s : Sockets) (fd : ℕ) (v : BitVec 32) : Sockets :=
  match s.managed fd with
  | none => s.ioctl_f fd v
  | some c => (s.setCtx fd (some (c.setUserNonblock (v ≠ 0)))).ioctl_f fd v

/-- `setsockopt(fd, SOL_SOCKET, optname, ..)` with a timeout. -/
def setsockopt (s : Sockets) (fd : ℕ) (optname : FdCtx.TimeoutType) (v : UInt64) : Sockets :=
  s.setCtx fd ((s.ctxs fd).map (·.setTimeout optname v))

/-- `close(fd)`. -/
def close (s : Sockets) (fd : ℕ) : Sockets :=
  { s.setCtx fd none with flags := Function.update s.flags fd none }

/-- A call on a hook-enabled thread, with the answers of the kernel: the number and the flags
of a new socket. -/
inductive Call
  | socket (fd : Option ℕ) (flags : BitVec 32)
  | accept (fd : Option ℕ) (flags : BitVec 32)
  | setfl (fd : ℕ) (arg : BitVec 32)
  | getfl (fd : ℕ)
  | ioctl (fd : ℕ) (v : BitVec 32)
  | setsockopt (fd : ℕ) (optname : FdCtx.TimeoutType) (v : UInt64)
  | close (fd : ℕ)

/-- The user of a descriptor chooses. -/
def choose (s : Sockets) (fd : ℕ) (v : Bool) : Sockets :=
  { s with chosen := Function.update s.chosen fd v }

/-- The kernel opens a socket under a free number, and the hook makes its context. -/
def opened (s : Sockets) (fd : ℕ) (flags : BitVec 32) : Option Sockets :=
  if (s.flags fd).isSome then none
  else some (({ s with flags := Function.update s.flags fd (some flags) }.create fd).choose fd
    false)

def step (s : Sockets) : Call → Option Sockets
  | .socket none _ | .accept none _ => some s
  | .socket (some fd) flags | .accept (some fd) flags => s.opened fd flags
  | .setfl fd arg => some ((s.setfl fd arg).choose fd (nonblock arg))
  | .getfl _ => some s
  | .ioctl fd v => some ((s.ioctl fd v).choose fd (v ≠ 0))
  | .setsockopt fd optname v => some (s.setsockopt fd optname v)
  | .close fd => some (s.close fd)

/-- Descriptors that are open before have no context. -/
def machine : Transition.Machine Sockets Call where
  init s := ∀ fd, s.ctxs fd = none
  step := step

/-- The kernel's flags of managed sockets are set, and what is reported is what was chosen. -/
structure NonBlocking (s : Sockets) : Prop where
  kernel : ∀ fd c, s.ctxs fd = some c → c.isSocket → c.sysNonblock →
    ∃ flags, s.flags fd = some flags ∧ nonblock flags
  reported : ∀ fd c, s.ctxs fd = some c → c.isSocket → c.sysNonblock →
    nonblock (s.getfl fd) = s.chosen fd

/-- No `ioctl` turns non-blocking mode off where a socket is managed. -/
def KeepsMode (s : Sockets) : Call → Prop
  | .ioctl fd v => v = 0 → s.managed fd = none
  | _ => True

instance (s : Sockets) : DecidablePred (KeepsMode s) := fun call => by
  cases call <;> unfold KeepsMode <;> infer_instance

/-! ### Flags -/

theorem nonblock_eq (flags : BitVec 32) : nonblock flags = flags.getLsbD 11 := by
  have hbit : O_NONBLOCK = BitVec.twoPow 32 11 := by decide
  rw [nonblock, hbit, BitVec.and_twoPow]
  cases flags.getLsbD 11 <;> decide

@[simp] theorem nonblock_or (flags : BitVec 32) : nonblock (flags ||| O_NONBLOCK) = true := by
  rw [nonblock_eq, BitVec.getLsbD_or, show O_NONBLOCK.getLsbD 11 = true by decide, Bool.or_true]

@[simp] theorem nonblock_and_not (flags : BitVec 32) :
    nonblock (flags &&& ~~~O_NONBLOCK) = false := by
  rw [nonblock_eq, BitVec.getLsbD_and, show (~~~O_NONBLOCK).getLsbD 11 = false by decide,
    Bool.and_false]

@[simp] theorem nonblock_set (flags arg : BitVec 32) :
    nonblock (flags &&& ~~~settable ||| arg &&& settable) = nonblock arg := by
  rw [nonblock_eq, nonblock_eq, BitVec.getLsbD_or, BitVec.getLsbD_and, BitVec.getLsbD_and,
    show settable.getLsbD 11 = true by decide, show (~~~settable).getLsbD 11 = false by decide,
    Bool.and_false, Bool.and_true, Bool.false_or]

/-! ### One descriptor -/

/-- The context of a descriptor is that of an open socket which does not block, and knows what
was chosen. -/
def Sound (flags : Option (BitVec 32)) (ctx : Option FdCtx) (chosen : Bool) : Prop :=
  ∀ c ∈ ctx, c.isSocket = true ∧ c.isClosed = false ∧ c.sysNonblock = true ∧
    c.userNonblock = chosen ∧ ∃ f, flags = some f ∧ nonblock f = true

/-- A call changes nothing but its descriptor. -/
def Elsewhere (s t : Sockets) (fd : ℕ) : Prop :=
  ∀ fd', fd' ≠ fd → t.flags fd' = s.flags fd' ∧ t.ctxs fd' = s.ctxs fd' ∧
    t.chosen fd' = s.chosen fd'

variable {s t : Sockets}

theorem managed_eq {fd : ℕ} (h : Sound (s.flags fd) (s.ctxs fd) (s.chosen fd)) :
    s.managed fd = s.ctxs fd := by
  unfold managed
  cases hc : s.ctxs fd with
  | none => rfl
  | some c =>
    obtain ⟨hsocket,hclosed,-⟩ := h c hc
    simp [hsocket, hclosed]

/-- Every descriptor is sound. -/
def Inv (s : Sockets) : Prop := ∀ fd, Sound (s.flags fd) (s.ctxs fd) (s.chosen fd)

/-- A call that leaves the other descriptors alone has to be looked at for its own. -/
theorem Inv.of_elsewhere (h : Inv s) (fd : ℕ) (helse : Elsewhere s t fd)
    (hfd : Sound (t.flags fd) (t.ctxs fd) (t.chosen fd)) : Inv t := by
  intro fd'
  by_cases heq : fd' = fd
  · exact heq ▸ hfd
  · obtain ⟨hflags,hctxs,hchosen⟩ := helse fd' heq
    rw [hflags, hctxs, hchosen]
    exact h fd'

theorem Inv.opened (h : Inv s) {fd : ℕ} {flags : BitVec 32} (hs : s.opened fd flags = some t) :
    Inv t := by
  unfold Sockets.opened at hs
  split_ifs at hs with hopen
  cases hs
  have hctx : s.ctxs fd = none := by
    cases hc : s.ctxs fd with
    | none => rfl
    | some c =>
      obtain ⟨-,-,-,-,f,hf,-⟩ := h fd c hc
      exact absurd (hf ▸ rfl) hopen
  apply h.of_elsewhere fd
  · intro fd' hne
    simp only [choose, create, hctx, setCtx, setfl_f]
    split_ifs <;> simp [Function.update_of_ne hne]
  · by_cases hset : nonblock flags = true
    · simp [Sound, choose, create, hctx, setCtx, getfl_f, FdCtx.new, hset]
    · simp [Sound, choose, create, hctx, setCtx, setfl_f, getfl_f, FdCtx.new, hset]

theorem Inv.setfl (h : Inv s) (fd : ℕ) (arg : BitVec 32) :
    Inv ((s.setfl fd arg).choose fd (nonblock arg)) := by
  apply h.of_elsewhere fd
  · intro fd' hne
    unfold Sockets.setfl
    split <;> simp [choose, setfl_f, setCtx, Function.update_of_ne hne]
  · unfold Sockets.setfl
    rw [managed_eq (h fd)]
    cases hc : s.ctxs fd with
    | none => simp [Sound, choose, setfl_f, hc]
    | some c =>
      obtain ⟨hsocket,hclosed,hsys,-,f,hf,-⟩ := h fd c hc
      simp [Sound, choose, setfl_f, setCtx, FdCtx.setUserNonblock, hsocket, hclosed, hsys, hf]

/-- Non-blocking mode is turned on, or nothing is managed. -/
theorem Inv.ioctl (h : Inv s) (fd : ℕ) {v : BitVec 32} (hg : v = 0 → s.managed fd = none) :
    Inv ((s.ioctl fd v).choose fd (v ≠ 0)) := by
  apply h.of_elsewhere fd
  · intro fd' hne
    unfold Sockets.ioctl
    split <;> simp [choose, ioctl_f, setCtx, Function.update_of_ne hne]
  · unfold Sockets.ioctl
    rw [managed_eq (h fd)] at hg ⊢
    cases hc : s.ctxs fd with
    | none => simp [Sound, choose, ioctl_f, hc]
    | some c =>
      obtain ⟨hsocket,hclosed,hsys,-,f,hf,-⟩ := h fd c hc
      have hv : ¬v = 0#32 := fun hv => nomatch hc.symm.trans (hg hv)
      simp [Sound, choose, ioctl_f, setCtx, FdCtx.setUserNonblock, hsocket, hclosed, hsys, hf, hv]

theorem Inv.setsockopt (h : Inv s) (fd : ℕ) (optname : FdCtx.TimeoutType) (v : UInt64) :
    Inv (s.setsockopt fd optname v) := by
  apply h.of_elsewhere fd
  · intro fd' hne
    simp [Sockets.setsockopt, setCtx, Function.update_of_ne hne]
  · intro c hc
    simp only [Sockets.setsockopt, setCtx, Function.update_self, Option.mem_def,
      Option.map_eq_some_iff] at hc
    obtain ⟨c,hc,rfl⟩ := hc
    cases optname <;> exact h fd c hc

theorem Inv.close (h : Inv s) (fd : ℕ) : Inv (s.close fd) := by
  apply h.of_elsewhere fd
  · intro fd' hne
    simp [Sockets.close, setCtx, Function.update_of_ne hne]
  · simp [Sound, Sockets.close, setCtx]

theorem Inv.step (h : Inv s) {call : Call} (hg : KeepsMode s call) (hs : s.step call = some t) :
    Inv t := by
  cases call with
  | socket fd flags | accept fd flags =>
    cases fd with
    | none =>
      cases hs
      exact h
    | some fd => exact h.opened hs
  | setfl fd arg =>
    cases hs
    exact h.setfl fd arg
  | getfl fd =>
    cases hs
    exact h
  | ioctl fd v =>
    cases hs
    exact h.ioctl fd hg
  | setsockopt fd optname v =>
    cases hs
    exact h.setsockopt fd optname v
  | close fd =>
    cases hs
    exact h.close fd

/-- As long as no `ioctl` turns non-blocking mode off where a socket is managed, the kernel's
flags stay set, and users see what they have chosen. -/
theorem non_blocking (h : machine.Reaches KeepsMode s) : NonBlocking s := by
  have hinv : Inv s := by
    refine h.invariant (fun s hi fd c hc => ?_) fun _ _ _ hs hg => hs.step hg
    rw [hi fd] at hc
    cases hc
  constructor
  · intro fd c hc _ _
    exact (hinv fd c hc).2.2.2.2
  · intro fd c hc _ _
    rw [getfl, managed_eq (hinv fd), hc, ← (hinv fd c hc).2.2.2.1]
    cases hu : c.userNonblock <;> simp [hu]

/-- A user turns non-blocking mode on by both calls, and off by `fcntl`. -/
theorem non_blocking_setfl : ∃ s : Sockets, s.flags 3 = some 0x802 ∧ s.getfl 3 = 2 ∧
    NonBlocking s := by
  obtain ⟨s,hs,hflags,hgetfl⟩ := Transition.Machine.exists_reaches (M := machine)
    (G := KeepsMode) (s := ⟨fun _ => none,fun _ => none,fun _ => false⟩) (fun _ => rfl)
    [.socket (some 3) 2,.setfl 3 0x800,.ioctl 3 1,.setfl 3 0]
    (fun s => s.flags 3 = some 0x802 ∧ s.getfl 3 = 2) (by decide +kernel) (by decide)
  exact ⟨s,hflags,hgetfl,non_blocking hs⟩

/-- `ioctl` with `FIONBIO` and 0 on a new socket. -/
theorem not_non_blocking : ¬∀ s : Sockets, machine.Reachable s → NonBlocking s := by
  intro h
  obtain ⟨s,hs,hflags,hctx⟩ := Transition.Machine.exists_reaches (M := machine)
    (G := fun _ _ => True) (s := ⟨fun _ => none,fun _ => none,fun _ => false⟩) (fun _ => rfl)
    [.socket (some 3) 2,.ioctl 3 0]
    (fun s => s.flags 3 = some 2 ∧ s.ctxs 3 = some (.new 3 (some true)))
    (Transition.Machine.guarded_true ..) (by decide +kernel)
  obtain ⟨f,hf,hset⟩ := (h s hs).kernel 3 _ hctx rfl rfl
  cases hflags.symm.trans hf
  exact absurd hset (by decide)

end Sockets
end CoroutineWebserve
