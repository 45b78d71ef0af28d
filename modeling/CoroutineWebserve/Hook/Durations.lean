import CoroutineWebserve.Address.Model
import CoroutineWebserve.Hook.Model
import CoroutineWebserve.Timer.Delivery

/-!
# Durations in the hook

`sleep`, `usleep` and `nanosleep` register timers, and `setsockopt` stores the timeouts that `do_io`
registers. Seconds, microseconds and nanoseconds become milliseconds in the types of the arguments
first and in `uint64_t` then.
-/
namespace CoroutineWebserve.Hook

/-- A result of type `long`. -/
def long (n : ℤ) : Except Undefined ℤ :=
  if -2^63 ≤ n ∧ n < 2^63 then .ok n else .error .overflow

/-- Seconds as milliseconds, and the milliseconds of the rest. -/
def milliseconds (sec rest : ℤ) : Except Undefined ℤ := do
  let product ← long (sec*1000)
  long (product+rest)

/-- Neither the product nor the sum overflows. -/
def InLong (sec rest : ℤ) : Prop :=
  (-2^63 ≤ sec*1000 ∧ sec*1000 < 2^63) ∧ -2^63 ≤ sec*1000+rest ∧ sec*1000+rest < 2^63

instance (sec rest : ℤ) : Decidable (InLong sec rest) := inferInstanceAs (Decidable (_ ∧ _))

theorem milliseconds_of_inLong {sec rest : ℤ} (h : InLong sec rest) :
    milliseconds sec rest = .ok (sec*1000+rest) := by
  unfold milliseconds long
  rw [if_pos h.1]
  exact if_pos h.2

theorem milliseconds_of_not_inLong {sec rest : ℤ} (h : ¬InLong sec rest) :
    milliseconds sec rest = .error .overflow := by
  unfold milliseconds long
  by_cases hproduct : -2^63 ≤ sec*1000 ∧ sec*1000 < 2^63
  · rw [if_pos hproduct]
    exact if_neg fun hsum => h ⟨hproduct,hsum⟩
  · rw [if_neg hproduct]
    rfl

/-! ### Sleeping -/

section Sleep
open TimerManager
variable {F : Type*} (m : TimerManager F) (fiber : F) (now : UInt64) (addr : ℕ)

/-- `time_t` and the type of `tv_nsec` have 64 bits. -/
structure Timespec where
  tv_sec : Int64
  tv_nsec : Int64
deriving DecidableEq

/-- `sleep`, with the hook enabled. The callback of the timer schedules the fiber. -/
def sleep (seconds : UInt32) : TimerManager F :=
  m.addTimer (seconds*1000).toUInt64 fiber false now addr

def usleep (usec : UInt32) : TimerManager F :=
  m.addTimer (usec/1000).toUInt64 fiber false now addr

/-- `timeout_ms` is an `int`. -/
def nanosleep (req : Timespec) : Except Undefined (TimerManager F) :=
  (milliseconds req.tv_sec.toInt ((req.tv_nsec.toInt.tdiv 1000).tdiv 1000)).map fun sum =>
    let timeout_ms := Int.bmod sum (2^32)
    m.addTimer (UInt64.ofInt timeout_ms) fiber false now addr

/-- A timer has been registered that is due when `ms` have passed, or later. -/
def Registers (m m' : TimerManager F) (now : UInt64) (ms : ℕ) : Prop :=
  ∃ timer, m'.heap[m.heap.length]? = some timer ∧ now.toNat+ms ≤ timer.next.toNat

variable {m fiber now addr}

theorem registers_addTimer {ms : UInt64} {asked : ℕ} :
    Registers m (m.addTimer ms fiber false now addr) now asked ↔
      now.toNat+asked ≤ (now.toNat+ms.toNat)%2^64 := by
  have hcell : (m.addTimer ms fiber false now addr).heap[m.heap.length]? =
      some ⟨addr,false,ms,now+ms,some fiber⟩ := by
    rw [addTimer, heap_addLocked, List.getElem?_concat_length]
  rw [Registers, hcell]
  constructor
  · rintro ⟨_,⟨⟩,hle⟩
    exact hle
  · intro hle
    exact ⟨_,rfl,hle⟩

theorem sleep_iff {seconds : UInt32} (hnow : now.toNat+seconds.toNat*1000 < 2^64) :
    Registers m (sleep m fiber now addr seconds) now (seconds.toNat*1000) ↔
      seconds.toNat ≤ 4294967 := by
  have hms : (seconds*1000).toUInt64.toNat = seconds.toNat*1000%2^32 := by
    rw [UInt32.toNat_toUInt64, UInt32.toNat_mul]
    rfl
  have hlt : now.toNat+seconds.toNat*1000%2^32 < 2^64 :=
    (Nat.add_le_add_left (Nat.mod_le _ _) _).trans_lt hnow
  rw [sleep, registers_addTimer, hms, Nat.mod_eq_of_lt hlt]
  omega

theorem usleep_registers {usec : UInt32} (hnow : now.toNat+usec.toNat/1000 < 2^64) :
    Registers m (usleep m fiber now addr usec) now (usec.toNat/1000) := by
  have hms : (usec/1000).toUInt64.toNat = usec.toNat/1000 := by
    rw [UInt32.toNat_toUInt64, UInt32.toNat_div]
    rfl
  rw [usleep, registers_addTimer, hms, Nat.mod_eq_of_lt hnow]

/-- The whole milliseconds of a duration. -/
def Timespec.ms (req : Timespec) : ℕ := req.tv_sec.toInt.toNat*1000+req.tv_nsec.toInt.toNat/10^6

/-- The duration is an `int`, or it is cast to a negative one and the time is so small that the
deadline does not wrap around. -/
def Sleepable (now : UInt64) (ms : ℕ) : Prop :=
  ms < 2^31 ∨ ms < 2^63 ∧ 2^31 ≤ ms%2^32 ∧ now.toNat+ms%2^32 < 2^32

theorem toNat_ofInt (n : ℤ) : (UInt64.ofInt n).toNat = (n%2^64).toNat := by
  refine UInt64.toNat_ofNat_of_lt' ?_
  change (n%2^64).toNat < 2^64
  omega

/-- The cast to `int` and back keeps a short duration and makes others shorter or, when the `int`
is negative, very long. -/
theorem toNat_narrowed (ms : ℕ) : (UInt64.ofInt (Int.bmod ms (2^32))).toNat =
    if ms%2^32 < 2^31 then ms%2^32 else ms%2^32+(2^64-2^32) := by
  rw [toNat_ofInt, Int.bmod_def]
  split_ifs <;> omega

theorem nanosleep_iff {req : Timespec} (hsec : 0 ≤ req.tv_sec.toInt)
    (hnsec : 0 ≤ req.tv_nsec.toInt) (hnow : now.toNat+req.ms < 2^64) :
    (∃ m', nanosleep m fiber now addr req = .ok m' ∧ Registers m m' now req.ms) ↔
      Sleepable now req.ms := by
  have hsub : (req.tv_nsec.toInt.tdiv 1000).tdiv 1000 = (req.tv_nsec.toInt.toNat/10^6 : ℕ) := by
    rw [Int.tdiv_eq_ediv_of_nonneg hnsec, Int.tdiv_eq_ediv_of_nonneg (by omega)]
    omega
  have hsum : req.tv_sec.toInt*1000+(req.tv_nsec.toInt.toNat/10^6 : ℕ) = req.ms := by
    rw [Timespec.ms]
    omega
  rw [nanosleep, hsub]
  by_cases hlong : req.ms < 2^63
  · have hin : InLong req.tv_sec.toInt (req.tv_nsec.toInt.toNat/10^6 : ℕ) := by
      unfold InLong
      omega
    rw [milliseconds_of_inLong hin, hsum]
    have hregisters : Registers m (m.addTimer (UInt64.ofInt (Int.bmod req.ms (2^32))) fiber
        false now addr) now req.ms ↔ Sleepable now req.ms := by
      rw [registers_addTimer, toNat_narrowed, Sleepable]
      split_ifs with hlow <;> omega
    refine Iff.trans ⟨?_,fun h => ⟨_,rfl,h⟩⟩ hregisters
    rintro ⟨_,⟨⟩,h⟩
    exact h
  · have hout : ¬InLong req.tv_sec.toInt (req.tv_nsec.toInt.toNat/10^6 : ℕ) := by
      unfold InLong
      omega
    rw [milliseconds_of_not_inLong hout]
    refine iff_of_false ?_ ?_
    · rintro ⟨_,⟨⟩,-⟩
    · unfold Sleepable
      omega

/-- The hooked functions do not wake their fibers early exactly if the seconds of `sleep` and the
duration of `nanosleep` come through the conversions. -/
theorem registers_iff (seconds usec : UInt32) (req : Timespec) (hsec : 0 ≤ req.tv_sec.toInt)
    (hnsec : 0 ≤ req.tv_nsec.toInt) (hsleep : now.toNat+seconds.toNat*1000 < 2^64)
    (husleep : now.toNat+usec.toNat/1000 < 2^64) (hnanosleep : now.toNat+req.ms < 2^64) :
    Registers m (sleep m fiber now addr seconds) now (seconds.toNat*1000) ∧
      Registers m (usleep m fiber now addr usec) now (usec.toNat/1000) ∧
      (∃ m', nanosleep m fiber now addr req = .ok m' ∧ Registers m m' now req.ms) ↔
    seconds.toNat ≤ 4294967 ∧ Sleepable now req.ms := by
  rw [sleep_iff hsleep, nanosleep_iff hsec hnsec hnanosleep,
    and_iff_right (usleep_registers husleep)]

/-- The largest number of seconds, and the largest duration of `nanosleep`. -/
theorem registers_largest :
    let m : TimerManager ℕ := TimerManager.initial 0
    Registers m (sleep m 7 5 64 4294967) 5 4294967000 ∧
    Registers m (usleep m 7 5 64 4294967295) 5 4294967 ∧
    ∃ m', nanosleep m 7 5 64 ⟨2147483,647999999⟩ = .ok m' ∧ Registers m m' 5 2147483647 :=
  (registers_iff 4294967 4294967295 ⟨2147483,647999999⟩ (by decide) (by decide) (by decide)
    (by decide) (by decide)).mpr ⟨by decide,.inl (by decide)⟩

/-- After a sleep of 4294968 seconds the timer is due in 704 milliseconds. -/
theorem not_registers_sleep :
    let m : TimerManager ℕ := TimerManager.initial 0
    (sleep m 7 5 64 4294968).heap[0]? = some ⟨64,false,704,709,some 7⟩ ∧
      ¬Registers m (sleep m 7 5 64 4294968) 5 4294968000 := by
  intro m
  have hcell : (sleep m 7 5 64 4294968).heap[0]? = some ⟨64,false,704,709,some 7⟩ := by
    decide
  refine ⟨hcell,?_⟩
  rintro ⟨timer,htimer,hle⟩
  obtain rfl := Option.some_inj.mp (hcell.symm.trans htimer)
  exact absurd hle (by decide)

end Sleep

/-! ### The timeouts of a socket -/

/-- The fields have 64 bits. -/
structure Timeval where
  tv_sec : Int64
  tv_usec : Int64
deriving DecidableEq

/-- A call of `setsockopt` for one of the two timeouts, and whether `setsockopt_f` succeeds. -/
structure Setsockopt where
  optname : TimeoutSo
  v : Timeval
  accepted : Bool
deriving DecidableEq

namespace Timeval

/-- The microseconds. -/
def us (v : Timeval) : ℤ := v.tv_sec.toInt*1000000+v.tv_usec.toInt

/-- The milliseconds that the hook computes. -/
def ms (v : Timeval) : ℤ := v.tv_sec.toInt*1000+v.tv_usec.toInt.tdiv 1000

/-- They are computed without overflow. -/
def InLong (v : Timeval) : Prop := Hook.InLong v.tv_sec.toInt (v.tv_usec.toInt.tdiv 1000)

end Timeval

/-- A `uint64_t` as the timeout of an `FdCtx`. -/
def timeoutOf (v : UInt64) : Option ℕ := if v = ~~~0 then none else some v.toNat

/-- The hooked `setsockopt` of a managed descriptor stores the timeout, and then the kernel
answers. -/
def setsockopt (ctx : FdCtx) (call : Setsockopt) : Except Undefined (FdCtx × Bool) :=
  (milliseconds call.v.tv_sec.toInt (call.v.tv_usec.toInt.tdiv 1000)).map fun ms =>
    (ctx.setTimeout (timeoutOf (UInt64.ofInt ms)) call.optname,call.accepted)

/-- Calls one after the other. -/
def setsockopts (ctx : FdCtx) (calls : List Setsockopt) : Except Undefined FdCtx :=
  calls.foldlM (fun ctx call => (setsockopt ctx call).map Prod.fst) ctx

/-- The last value that the kernel has accepted. -/
def lastAccepted (so : TimeoutSo) (calls : List Setsockopt) : Option Timeval :=
  ((calls.filter fun call => call.optname = so ∧ call.accepted).getLast?).map Setsockopt.v

/-- What a timeout of `do_io` means for the value that the kernel has. -/
def Means (given : Option Timeval) (timeout : Option ℕ) : Prop :=
  match given with
  | none => timeout = none
  | some v => if v = ⟨0,0⟩ then timeout = none else ∀ ms ∈ timeout, v.us ≤ ms*1000

/-- Every element of a list has a property that may depend on those before it. -/
inductive Each {α : Type*} (P : List α → α → Prop) : List α → Prop
  | nil : Each P []
  | snoc {earlier : List α} (h : Each P earlier) (a : α) (ha : P earlier a) : Each P (earlier++[a])

theorem Each.concat_iff {α : Type*} {P : List α → α → Prop} {earlier : List α} {a : α} :
    Each P (earlier++[a]) ↔ Each P earlier ∧ P earlier a := by
  refine ⟨fun h => ?_,fun h => .snoc h.1 a h.2⟩
  generalize hl : earlier++[a] = l at h
  cases h with
  | nil => simp at hl
  | snoc h b hb =>
    obtain ⟨rfl,hab⟩ := List.append_inj' hl rfl
    cases hab
    exact ⟨h,hb⟩

/-- The calls that the kernel has rejected have changed nothing. -/
def Unchanged (ctx : FdCtx) : List Setsockopt → Prop := Each fun earlier call =>
  call.accepted = false → setsockopts ctx (earlier++[call]) = setsockopts ctx earlier

/-- The timeout that the last accepted value gives. -/
def stored (given : Option Timeval) : Option ℕ := given.bind fun v => timeoutOf (UInt64.ofInt v.ms)

/-- Every call that the kernel rejects gives the timeout that the last accepted one has given. -/
def Repeats : List Setsockopt → Prop := Each fun earlier call =>
  call.accepted = false →
    timeoutOf (UInt64.ofInt call.v.ms) = stored (lastAccepted call.optname earlier)

/-- A value other than zero of which no part of a millisecond is cut off. -/
def Timeval.Whole (v : Timeval) : Prop :=
  v ≠ ⟨0,0⟩ ∧ (v.ms < 0 ∨ v.tv_usec.toInt ≤ 0 ∨ 1000 ∣ v.tv_usec.toInt)

/-- `do_io` reads the timeout for the calls that it makes for a function. -/
def DoIoUses (ctx : FdCtx) (origin : Origin) (timeout : Option ℕ) : Prop :=
  ∀ (m : Hook) (f : ℕ) (d : DoIo), m.ctxs d.fd = some ctx → d.origin = origin →
    (m.lookupIo f d).fibers f = .io { d with phase := .retry, timeout, tinfo := m.tinfos }

/-- Behind the calls, `do_io` uses the timeouts that the kernel has. -/
def Agrees (calls : List Setsockopt) : Prop :=
  ∃ ctx, setsockopts (.init true) calls = .ok ctx ∧ Unchanged (.init true) calls ∧
    ∀ origin : Origin, ∃ timeout, DoIoUses ctx origin timeout ∧
      Means (lastAccepted origin.timeout_so calls) timeout

theorem timeoutOf_ofInt (n : ℤ) : timeoutOf (UInt64.ofInt n) =
    if n%2^64 = 2^64-1 then none else some (n%2^64).toNat := by
  have hones : UInt64.ofInt n = ~~~0 ↔ n%2^64 = 2^64-1 := by
    rw [← UInt64.toNat_inj, toNat_ofInt]
    change (n%2^64).toNat = 2^64-1 ↔ n%2^64 = 2^64-1
    omega
  rw [timeoutOf, toNat_ofInt, if_congr hones rfl rfl]

/-- The division of the hook rounds towards zero. -/
theorem tdiv_cases (n : ℤ) :
    0 ≤ n ∧ n.tdiv 1000 = n/1000 ∨ n ≤ 0 ∧ n.tdiv 1000 = -(-n/1000) := by
  rcases le_total 0 n with h | h
  · exact .inl ⟨h,Int.tdiv_eq_ediv_of_nonneg h⟩
  · refine .inr ⟨h,?_⟩
    rw [← Int.tdiv_eq_ediv_of_nonneg (by omega), Int.neg_tdiv, neg_neg]

/-- What the hook stores for one value means what the value means. -/
theorem means_stored_iff {v : Timeval} (hv : v.InLong) :
    Means (some v) (stored (some v)) ↔ v.Whole := by
  have hzero : v = ⟨0,0⟩ → v.ms = 0 := by
    rintro rfl
    rfl
  have hlong : -2^63 ≤ v.ms ∧ v.ms < 2^63 := hv.2
  have hms : v.ms = v.tv_sec.toInt*1000+v.tv_usec.toInt.tdiv 1000 := rfl
  have hus : v.us = v.tv_sec.toInt*1000000+v.tv_usec.toInt := rfl
  have hdiv := tdiv_cases v.tv_usec.toInt
  rw [Timeval.Whole, stored, Option.bind_some, timeoutOf_ofInt, Means]
  by_cases hv0 : v = ⟨0,0⟩
  · rw [if_pos hv0, hzero hv0]
    exact iff_of_false (by decide) fun h => h.1 hv0
  · rw [if_neg hv0, and_iff_right hv0]
    split_ifs with hnone
    · exact iff_of_true nofun (by omega)
    · simp only [Option.mem_some_iff, forall_eq']
      omega

theorem setsockopts_concat (ctx : FdCtx) (calls : List Setsockopt) (call : Setsockopt) :
    setsockopts ctx (calls++[call]) =
      setsockopts ctx calls >>= fun ctx => (setsockopt ctx call).map Prod.fst := by
  simp [setsockopts]

theorem lastAccepted_concat (so : TimeoutSo) (calls : List Setsockopt) (call : Setsockopt) :
    lastAccepted so (calls++[call]) =
      if call.optname = so ∧ call.accepted then some call.v else lastAccepted so calls := by
  unfold lastAccepted
  rw [List.filter_append]
  by_cases h : call.optname = so ∧ call.accepted
  · rw [if_pos h, List.filter_cons_of_pos (by simpa using h)]
    simp
  · rw [if_neg h, List.filter_cons_of_neg (by simpa using h), List.filter_nil, List.append_nil]

theorem getTimeout_setTimeout (ctx : FdCtx) (v : Option ℕ) (so so' : TimeoutSo) :
    (ctx.setTimeout v so).getTimeout so' = if so = so' then v else ctx.getTimeout so' := by
  cases so <;> cases so' <;> rfl

/-- A timeout that is there already. -/
theorem setTimeout_eq_self {ctx : FdCtx} {v : Option ℕ} {so : TimeoutSo} :
    ctx.setTimeout v so = ctx ↔ v = ctx.getTimeout so := by
  cases so <;> cases ctx <;> simp [FdCtx.setTimeout, FdCtx.getTimeout]

/-! ### Sequences of calls -/

/-- As long as rejected calls change nothing, a socket has the timeouts that the last accepted
calls give. -/
structure Keeps (calls : List Setsockopt) (ctx : FdCtx) : Prop where
  isSocket : ctx.isSocket = true
  userNonblock : ctx.userNonblock = false
  isClosed : ctx.isClosed = false
  timeout : ∀ so, ctx.getTimeout so = stored (lastAccepted so calls)

theorem Keeps.setTimeout {calls : List Setsockopt} {ctx : FdCtx} (h : Keeps calls ctx)
    {call : Setsockopt} (hsame : call.accepted = false →
      timeoutOf (UInt64.ofInt call.v.ms) = stored (lastAccepted call.optname calls)) :
    Keeps (calls++[call])
      (ctx.setTimeout (timeoutOf (UInt64.ofInt call.v.ms)) call.optname) where
  isSocket := by cases call.optname <;> exact h.isSocket
  userNonblock := by cases call.optname <;> exact h.userNonblock
  isClosed := by cases call.optname <;> exact h.isClosed
  timeout so := by
    rw [getTimeout_setTimeout, lastAccepted_concat, h.timeout]
    by_cases hso : call.optname = so
    · rw [if_pos hso]
      cases haccepted : call.accepted with
      | true => rw [if_pos ⟨hso,rfl⟩, stored, Option.bind_some]
      | false => rw [if_neg (by simp), hsame haccepted, hso]
    · rw [if_neg hso, if_neg fun h => hso h.1]

theorem setsockopt_of_inLong {call : Setsockopt} (ctx : FdCtx) (h : call.v.InLong) :
    (setsockopt ctx call).map Prod.fst =
      .ok (ctx.setTimeout (timeoutOf (UInt64.ofInt call.v.ms)) call.optname) := by
  rw [setsockopt, milliseconds_of_inLong h]
  rfl

theorem setsockopt_of_not_inLong {call : Setsockopt} (ctx : FdCtx) (h : ¬call.v.InLong) :
    (setsockopt ctx call).map Prod.fst = .error .overflow := by
  rw [setsockopt, milliseconds_of_not_inLong h]
  rfl

/-- What the calls do, and when: the induction is on the last call. -/
theorem setsockopts_cases (calls : List Setsockopt) :
    (∃ ctx, setsockopts (.init true) calls = .ok ctx ∧ Unchanged (.init true) calls ∧
      Keeps calls ctx) ∧ (∀ call ∈ calls, call.v.InLong) ∧ Repeats calls ∨
    ¬(∃ ctx, setsockopts (.init true) calls = .ok ctx ∧ Unchanged (.init true) calls) ∧
      ¬((∀ call ∈ calls, call.v.InLong) ∧ Repeats calls) := by
  induction calls using List.reverseRecOn with
  | nil => exact .inl ⟨⟨.init true,rfl,.nil,⟨rfl,rfl,rfl,fun so => by cases so <;> rfl⟩⟩,nofun,.nil⟩
  | append_singleton calls call ih =>
    have hlong : (∀ c ∈ calls++[call], c.v.InLong) ↔
        (∀ c ∈ calls, c.v.InLong) ∧ call.v.InLong := by
      rw [List.forall_mem_append, List.forall_mem_singleton]
    rw [hlong]
    unfold Unchanged Repeats at ih ⊢
    rw [Each.concat_iff, Each.concat_iff]
    rcases ih with ⟨⟨ctx,hrun,hunchanged,hkeeps⟩,hin,hrepeats⟩ | ⟨hnot,hcond⟩
    · by_cases hcall : call.v.InLong
      · have hlast : setsockopts (.init true) (calls++[call]) =
            .ok (ctx.setTimeout (timeoutOf (UInt64.ofInt call.v.ms)) call.optname) := by
          rw [setsockopts_concat, hrun]
          exact setsockopt_of_inLong ctx hcall
        have hsame : setsockopts (.init true) (calls++[call]) = setsockopts (.init true) calls ↔
            timeoutOf (UInt64.ofInt call.v.ms) = stored (lastAccepted call.optname calls) := by
          rw [hlast, hrun, Except.ok.injEq, setTimeout_eq_self, hkeeps.timeout]
        rw [hsame]
        by_cases hstored : call.accepted = false →
            timeoutOf (UInt64.ofInt call.v.ms) = stored (lastAccepted call.optname calls)
        · exact .inl ⟨⟨_,hlast,⟨hunchanged,hstored⟩,hkeeps.setTimeout hstored⟩,⟨hin,hcall⟩,
            hrepeats,hstored⟩
        · exact .inr ⟨fun ⟨_,_,_,h⟩ => hstored h,fun ⟨_,_,h⟩ => hstored h⟩
      · refine .inr ⟨?_,fun h => hcall h.1.2⟩
        rintro ⟨ctx',hlast,-⟩
        rw [setsockopts_concat, hrun] at hlast
        cases (setsockopt_of_not_inLong ctx hcall).symm.trans hlast
    · refine .inr ⟨?_,fun h => hcond ⟨h.1.1,h.2.1⟩⟩
      rintro ⟨ctx',hlast,hunchanged,-⟩
      rw [setsockopts_concat] at hlast
      cases hrun : setsockopts (.init true) calls with
      | error e =>
        rw [hrun] at hlast
        cases hlast
      | ok ctx => exact hnot ⟨ctx,hrun,hunchanged⟩

/-! ### What `do_io` reads -/

theorem doIoUses_getTimeout {ctx : FdCtx} (hsocket : ctx.isSocket = true)
    (hnonblock : ctx.userNonblock = false) (hclosed : ctx.isClosed = false) (origin : Origin) :
    DoIoUses ctx origin (ctx.getTimeout origin.timeout_so) := by
  rintro m f d hctx rfl
  unfold lookupIo
  rw [hctx]
  dsimp only
  rw [hclosed, hsocket, hnonblock, if_neg Bool.false_ne_true, if_neg (by decide)]
  exact Function.update_self ..

theorem Keeps.doIoUses {calls : List Setsockopt} {ctx : FdCtx} (h : Keeps calls ctx)
    (origin : Origin) : DoIoUses ctx origin (stored (lastAccepted origin.timeout_so calls)) := by
  rw [← h.timeout]
  exact doIoUses_getTimeout h.isSocket h.userNonblock h.isClosed origin

theorem DoIoUses.unique {ctx : FdCtx} {origin : Origin} {timeout timeout' : Option ℕ}
    (h : DoIoUses ctx origin timeout) (h' : DoIoUses ctx origin timeout') :
    timeout = timeout' := by
  let m : Hook := { initial with ctxs := fun _ => some ctx }
  let d : DoIo := ⟨origin,0,none,0,none,false,.lookup⟩
  have heq := (h m 0 d rfl rfl).symm.trans (h' m 0 d rfl rfl)
  simpa using heq

theorem exists_of_lastAccepted {so : TimeoutSo} {calls : List Setsockopt} {v : Timeval}
    (h : lastAccepted so calls = some v) : ∃ call ∈ calls, call.v = v := by
  obtain ⟨call,hlast,rfl⟩ := Option.map_eq_some_iff.mp h
  exact ⟨call,List.mem_of_mem_filter (List.mem_of_getLast? hlast),rfl⟩

theorem means_lastAccepted_iff {calls : List Setsockopt} (hin : ∀ call ∈ calls, call.v.InLong)
    (so : TimeoutSo) : Means (lastAccepted so calls) (stored (lastAccepted so calls)) ↔
      ∀ v ∈ lastAccepted so calls, v.Whole := by
  cases hlast : lastAccepted so calls with
  | none => exact iff_of_true rfl nofun
  | some v =>
    obtain ⟨call,hmem,rfl⟩ := exists_of_lastAccepted hlast
    rw [means_stored_iff (hin call hmem)]
    simp only [Option.mem_some_iff, forall_eq']

/-- The timeouts of a socket are those that the kernel has exactly if no call overflows, every
rejected call gives the timeout that is there already, and what was accepted last is neither
zero nor cut off. -/
theorem agrees_iff (calls : List Setsockopt) :
    Agrees calls ↔ (∀ call ∈ calls, call.v.InLong) ∧ Repeats calls ∧
      ∀ so, ∀ v ∈ lastAccepted so calls, v.Whole := by
  rcases setsockopts_cases calls with ⟨⟨ctx,hrun,hunchanged,hkeeps⟩,hin,hrepeats⟩ | ⟨hnot,hcond⟩
  · rw [and_iff_right hin, and_iff_right hrepeats]
    constructor
    · rintro ⟨ctx',hrun',-,huses⟩ so
      obtain rfl : ctx = ctx' := Except.ok.inj (hrun.symm.trans hrun')
      obtain ⟨origin,rfl⟩ : ∃ origin : Origin, origin.timeout_so = so := by
        cases so
        · exact ⟨.read,rfl⟩
        · exact ⟨.write,rfl⟩
      obtain ⟨timeout,htimeout,hmeans⟩ := huses origin
      rw [htimeout.unique (hkeeps.doIoUses origin)] at hmeans
      exact (means_lastAccepted_iff hin _).mp hmeans
    · intro hwhole
      refine ⟨ctx,hrun,hunchanged,fun origin => ⟨_,hkeeps.doIoUses origin,?_⟩⟩
      exact (means_lastAccepted_iff hin _).mpr (hwhole _)
  · refine iff_of_false ?_ fun h => hcond ⟨h.1,h.2.1⟩
    rintro ⟨ctx,hrun,hunchanged,-⟩
    exact hnot ⟨ctx,hrun,hunchanged⟩

/-- Zero makes `do_io` wait for no time, and a value that the kernel has rejected counts. -/
theorem not_agrees_zero : ¬Agrees [⟨.SO_RCVTIMEO,⟨0,0⟩,true⟩] ∧
    ¬Agrees [⟨.SO_SNDTIMEO,⟨5,0⟩,false⟩] := by
  constructor
  · rintro ⟨ctx,hrun,-,huses⟩
    have hzero : setsockopts (.init true) [⟨.SO_RCVTIMEO,⟨0,0⟩,true⟩] =
        .ok ⟨true,false,false,some 0,none⟩ := by rfl
    obtain rfl := Except.ok.inj (hzero.symm.trans hrun)
    obtain ⟨timeout,htimeout,hmeans⟩ := huses .read
    rw [htimeout.unique (doIoUses_getTimeout rfl rfl rfl .read)] at hmeans
    cases hmeans
  · rintro ⟨ctx,-,hunchanged,-⟩
    have hlast : Unchanged (.init true) ([]++[⟨.SO_SNDTIMEO,⟨5,0⟩,false⟩]) := hunchanged
    exact absurd ((Each.concat_iff.mp hlast).2 rfl) (by decide)

end CoroutineWebserve.Hook
