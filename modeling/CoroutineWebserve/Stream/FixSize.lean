import CoroutineWebserve.Stream.Model

/-!
# What `readFixSize` and `writeFixSize` tell their callers

A positive value is to mean that all of the buffer has gone through. The count of the bytes is right
for every length of a buffer, but the value returned for it is an `int`.
-/
namespace CoroutineWebserve
variable {σ : Type*}

namespace Transfer
variable {length : ℕ} (t : Transfer length)

theorem length_le : t.bytes.length ≤ length := by
  have hle := t.le
  have hcount := t.count
  omega

theorem toInt_eq (hpos : 0 < t.bytes.length) : t.rt.toInt = t.bytes.length := by
  have hcount := t.count
  omega

theorem pos_of_rt (hrt : 0 < t.rt.toInt) : 0 < t.bytes.length := by
  have hcount := t.count
  omega

theorem bytes_eq_nil (hrt : t.rt.toInt ≤ 0) : t.bytes = [] := by
  apply List.eq_nil_of_length_eq_zero
  rw [t.count, Int.toNat_of_nonpos hrt]

end Transfer

namespace Stream

/-- The bytes that went through, in the order of the calls. -/
def transferred (calls : List Call) : List UInt8 := calls.flatMap Call.bytes

@[simp] theorem transferred_nil : transferred [] = [] := rfl

@[simp] theorem transferred_cons (c : Call) (calls : List Call) :
    transferred (c :: calls) = c.bytes++transferred calls := rfl

/-- Every call asks for all that is left, behind what has gone through. -/
def Consecutive (length : ℕ) : ℕ → List Call → Prop
  | _, [] => True
  | offset, c :: calls =>
    c.offset = offset ∧ c.length = length-offset ∧
      Consecutive length (offset+c.bytes.length) calls

namespace FixSize

/-- What callers rely on: a value is positive if all has gone through, and else it is that of the
call that failed. -/
structure Complete (length : ℕ) (r : FixSize σ) : Prop where
  positive : 0 < r.rt ↔ (transferred r.calls).length = length
  failed : (transferred r.calls).length ≠ length →
    ∃ calls c, r.calls = calls++[c] ∧ c.rt ≤ 0 ∧ r.rt = c.rt
  consecutive : Consecutive length 0 r.calls

/-- A complete read, and the bytes are in the buffer. -/
structure ReadComplete (memory : Memory) (buffer length : ℕ) (r : FixSize (Memory × σ)) : Prop
    extends Complete length r where
  placed : r.state.1 = memory.store buffer (transferred r.calls)

/-- A complete write, of the bytes in the buffer. -/
structure WriteComplete (memory : Memory) (buffer length : ℕ) (r : FixSize σ) : Prop
    extends Complete length r where
  taken : transferred r.calls = memory.load buffer (transferred r.calls).length

end FixSize

/-- Calls with positive counts that add up to what is left. -/
inductive Through (call : (offset left : ℕ) → σ → Transfer left × σ) : (offset left : ℕ) → σ → Prop
  | done {offset s} : Through call offset 0 s
  | more {offset left s} (hpos : 0 < (call offset left s).1.bytes.length)
      (rest : Through call (offset+(call offset left s).1.bytes.length)
        (left-(call offset left s).1.bytes.length) (call offset left s).2) :
      Through call offset left s

/-- The lengths that are positive values of an `int`. -/
def Positive (length : ℕ) : Prop := 0 < length%2^32 ∧ length%2^32 < 2^31

instance (length : ℕ) : Decidable (Positive length) := inferInstanceAs (Decidable (_ ∧ _))

theorem int_pos_iff (length : ℕ) : 0 < int length ↔ Positive length := by
  unfold int Positive
  rw [Int.bmod_def]
  omega

theorem int64_of_lt {length : ℕ} (h : length < 2^63) : int64 length = length :=
  Int.bmod_eq_of_le (by omega) (by omega)

/-- The record of a call. -/
def callOf (call : (offset left : ℕ) → σ → Transfer left × σ) (offset left : ℕ) (s : σ) : Call :=
  ⟨offset,left,(call offset left s).1.rt.toInt,(call offset left s).1.bytes⟩

section loop
variable (call : (offset left : ℕ) → σ → Transfer left × σ) (length : ℕ) {offset left : ℕ} (s : σ)

theorem length_transferred_callOf (offset left : ℕ) (calls : List Call) :
    (transferred (callOf call offset left s :: calls)).length =
      (call offset left s).1.bytes.length+(transferred calls).length := by
  rw [transferred_cons, List.length_append]
  rfl

theorem fixSizeLoop_done (offset : ℕ) : fixSizeLoop call length offset (0 : ℕ) s = ⟨int length,[],s⟩ := by
  rw [fixSizeLoop, if_neg (by omega)]

theorem fixSizeLoop_failed (hleft : 0 < left) (hrt : (call offset left s).1.rt.toInt ≤ 0) :
    fixSizeLoop call length offset left s =
      ⟨(call offset left s).1.rt.toInt,[callOf call offset left s],(call offset left s).2⟩ := by
  rw [fixSizeLoop, if_pos (by omega)]
  simp only [Int.toNat_natCast, if_pos hrt, callOf]

theorem fixSizeLoop_more (hleft : 0 < left) (hbound : offset+left < 2^64)
    (hpos : 0 < (call offset left s).1.bytes.length) :
    fixSizeLoop call length offset left s =
      let len := (call offset left s).1.bytes.length
      let r := fixSizeLoop call length (offset+len) (left-len : ℕ) (call offset left s).2
      { r with calls := callOf call offset left s :: r.calls } := by
  have hrt := (call offset left s).1.toInt_eq hpos
  have hle := (call offset left s).1.length_le
  have hoffset : (offset+(call offset left s).1.bytes.length)%2^64 =
      offset+(call offset left s).1.bytes.length := Nat.mod_eq_of_lt (by omega)
  rw [fixSizeLoop, if_pos (by omega)]
  simp only [Int.toNat_natCast, callOf]
  rw [if_neg (by omega), hrt, Int.toNat_natCast, hoffset, Int.ofNat_sub hle]

/-- What holds where the loop ends and is carried back over a call holds of the loop. -/
theorem fixSizeLoop_induction {s : σ} {P : (offset left : ℕ) → σ → FixSize σ → Prop}
    (done : ∀ offset s, P offset 0 s ⟨int length,[],s⟩)
    (failed : ∀ offset left s, 0 < left → (call offset left s).1.rt.toInt ≤ 0 →
      P offset left s
        ⟨(call offset left s).1.rt.toInt,[callOf call offset left s],(call offset left s).2⟩)
    (more : ∀ offset left s r, 0 < (call offset left s).1.bytes.length →
      P (offset+(call offset left s).1.bytes.length) (left-(call offset left s).1.bytes.length)
        (call offset left s).2 r →
      P offset left s { r with calls := callOf call offset left s :: r.calls })
    (hbound : offset+left < 2^64) : P offset left s (fixSizeLoop call length offset left s) := by
  induction left using Nat.strongRecOn generalizing offset s with
  | ind left ih =>
    by_cases hleft : left = 0
    · rw [hleft, fixSizeLoop_done]
      exact done offset s
    · by_cases hpos : 0 < (call offset left s).1.bytes.length
      · have hle := (call offset left s).1.length_le
        rw [fixSizeLoop_more call length s (by omega) hbound hpos]
        exact more offset left s _ hpos (ih _ (by omega) (by omega))
      · have hrt := mt (call offset left s).1.pos_of_rt hpos
        rw [fixSizeLoop_failed call length s (by omega) (by omega)]
        exact failed offset left s (by omega) (by omega)

theorem consecutive_fixSizeLoop {length : ℕ} (h : offset+left = length) (hlt : length < 2^64) :
    Consecutive length offset (fixSizeLoop call length offset left s).calls := by
  refine fixSizeLoop_induction call length (P := fun offset left _ r =>
    offset+left = length → Consecutive length offset r.calls) ?_ ?_ ?_ (by omega) h
  · intro offset s _
    trivial
  · intro offset left s _ _ hn
    exact ⟨rfl,by simp only [callOf]; omega,trivial⟩
  · intro offset left s r _ ih hn
    have hle := (call offset left s).1.length_le
    exact ⟨rfl,by simp only [callOf]; omega,ih (by omega)⟩

/-- Either all goes through or the last call fails. -/
inductive Outcome (call : (offset left : ℕ) → σ → Transfer left × σ) (length offset left : ℕ)
    (s : σ) (r : FixSize σ) : Prop
  | through (hthrough : Through call offset left s)
      (hlength : (transferred r.calls).length = left) (hrt : r.rt = int length)
  | failed (hnot : ¬Through call offset left s) (hlength : (transferred r.calls).length < left)
      (hlast : ∃ calls c, r.calls = calls++[c] ∧ c.rt ≤ 0 ∧ r.rt = c.rt)

theorem outcome_fixSizeLoop (hlt : offset+left < 2^64) :
    Outcome call length offset left s (fixSizeLoop call length offset left s) := by
  refine fixSizeLoop_induction call length (P := Outcome call length) ?_ ?_ ?_ hlt
  · intro offset s
    exact .through .done rfl rfl
  · intro offset left s hleft hrt
    have hbytes := (call offset left s).1.bytes_eq_nil hrt
    refine .failed ?_ (by simpa [callOf, hbytes] using hleft) ⟨[],_,rfl,hrt,rfl⟩
    intro hthrough
    cases hthrough with
    | done => omega
    | more hpos _ => simp [hbytes] at hpos
  · intro offset left s r hpos ih
    have hle := (call offset left s).1.length_le
    have hcons := length_transferred_callOf call s offset left r.calls
    cases ih with
    | through hthrough hlength hrt =>
      exact .through (.more hpos hthrough) (hcons.trans (by omega)) hrt
    | failed hnot hlength hlast =>
      obtain ⟨calls,c,hcalls,hc,hrt⟩ := hlast
      refine .failed ?_ (Nat.lt_of_le_of_lt (Nat.le_of_eq hcons) (by omega))
        ⟨callOf call offset left s :: calls,c,?_,hc,hrt⟩
      · intro hthrough
        cases hthrough with
        | done => omega
        | more _ hrest => exact hnot hrest
      · exact congrArg (_ :: ·) hcalls

/-- A loop is complete for the lengths that fit, and for all others if a call fails. -/
theorem complete_fixSizeLoop_iff {length : ℕ} (hlt : length < 2^64) :
    (fixSizeLoop call length 0 length s).Complete length ↔
      Positive length ∨ ¬Through call 0 length s := by
  have hcalls := consecutive_fixSizeLoop call s (Nat.zero_add length) hlt
  have hbound : 0+length < 2^64 := by omega
  cases outcome_fixSizeLoop call length s hbound with
  | through hthrough hlength hrt =>
    constructor
    · intro h
      exact .inl ((int_pos_iff length).mp (hrt ▸ h.positive.mpr hlength))
    · intro h
      have hpos := h.resolve_right (not_not_intro hthrough)
      refine ⟨?_,fun hne => absurd hlength hne,hcalls⟩
      rw [hrt, int_pos_iff]
      exact iff_of_true hpos hlength
  | failed hnot hlength hlast =>
    refine iff_of_true ⟨?_,fun _ => hlast,hcalls⟩ (.inr hnot)
    obtain ⟨calls,c,_,hc,hrt⟩ := hlast
    exact iff_of_false (by omega) (by omega)

end loop

section members
variable (p : Stream σ) (memory : Memory) (buffer : ℕ) {length : ℕ} (s : σ)

theorem placed_readFixSize (hlt : length < 2^63) :
    (p.readFixSize memory buffer length s).state.1 =
      memory.store buffer (transferred (p.readFixSize memory buffer length s).calls) := by
  unfold readFixSize
  rw [int64_of_lt hlt]
  apply fixSizeLoop_induction (p.readAt buffer) length (P := fun offset _ s r =>
    r.state.1 = s.1.store (buffer+offset) (transferred r.calls))
  · intro offset s
    simp
  · intro offset left s _ hrt
    simp [callOf, readAt]
  · intro offset left s r _ ih
    rw [ih, transferred_cons, ← Memory.store_append, ← Nat.add_assoc]
    rfl
  · omega

theorem taken_writeFixSize (hlt : length < 2^63) :
    transferred (p.writeFixSize memory buffer length s).calls =
      memory.load buffer (transferred (p.writeFixSize memory buffer length s).calls).length := by
  unfold writeFixSize
  rw [int64_of_lt hlt]
  apply fixSizeLoop_induction (p.writeAt memory buffer) length (P := fun offset _ _ r =>
    transferred r.calls = memory.load (buffer+offset) (transferred r.calls).length)
  · intro offset s
    rfl
  · intro offset left s _ _
    simp [callOf, writeAt]
  · intro offset left s r _ ih
    have hbytes : (callOf (p.writeAt memory buffer) offset left s).bytes =
        memory.load (buffer+offset) (p.writeAt memory buffer offset left s).1.bytes.length := by
      simp [callOf, writeAt]
    have hlength : (callOf (p.writeAt memory buffer) offset left s).bytes.length =
        (p.writeAt memory buffer offset left s).1.bytes.length := rfl
    rw [transferred_cons, List.length_append, ← Memory.load_append, hlength, ← hbytes,
      Nat.add_assoc, ← ih]
  · omega

theorem readFixSize_complete_iff (hlt : length < 2^63) :
    (p.readFixSize memory buffer length s).ReadComplete memory buffer length ↔
      Positive length ∨ ¬Through (p.readAt buffer) 0 length (memory,s) := by
  have hplaced := placed_readFixSize p memory buffer s hlt
  have hcomplete := complete_fixSizeLoop_iff (p.readAt buffer) (memory,s) (by omega : length < 2^64)
  unfold readFixSize at hplaced ⊢
  rw [int64_of_lt hlt] at hplaced ⊢
  exact ⟨fun h => hcomplete.mp h.toComplete,fun h => ⟨hcomplete.mpr h,hplaced⟩⟩

theorem writeFixSize_complete_iff (hlt : length < 2^63) :
    (p.writeFixSize memory buffer length s).WriteComplete memory buffer length ↔
      Positive length ∨ ¬Through (p.writeAt memory buffer) 0 length s := by
  have htaken := taken_writeFixSize p memory buffer s hlt
  have hcomplete := complete_fixSizeLoop_iff (p.writeAt memory buffer) s (by omega : length < 2^64)
  unfold writeFixSize at htaken ⊢
  rw [int64_of_lt hlt] at htaken ⊢
  exact ⟨fun h => hcomplete.mp h.toComplete,fun h => ⟨hcomplete.mpr h,htaken⟩⟩

/-- What is returned for a buffer of which all went through. -/
theorem readFixSize_of_through (hlt : length < 2^63)
    (h : Through (p.readAt buffer) 0 length (memory,s)) :
    let r := p.readFixSize memory buffer length s
    (transferred r.calls).length = length ∧ r.rt = int length := by
  unfold readFixSize
  rw [int64_of_lt hlt]
  have hbound : 0+length < 2^64 := by omega
  cases outcome_fixSizeLoop (p.readAt buffer) length (memory,s) hbound with
  | through _ hlength hrt => exact ⟨hlength,hrt⟩
  | failed hnot _ _ => exact absurd h hnot

/-- Callers learn whether all has gone through, for the lengths that are positive as an `int`; for
any other length they do exactly if a call fails. -/
theorem fixSize_iff (hlt : length < 2^63) :
    ((p.readFixSize memory buffer length s).ReadComplete memory buffer length ↔
      Positive length ∨ ¬Through (p.readAt buffer) 0 length (memory,s)) ∧
    ((p.writeFixSize memory buffer length s).WriteComplete memory buffer length ↔
      Positive length ∨ ¬Through (p.writeAt memory buffer) 0 length s) :=
  ⟨readFixSize_complete_iff p memory buffer s hlt,writeFixSize_complete_iff p memory buffer s hlt⟩

end members

/-! ### A stream that never fails -/

/-- Every call transfers `n` bytes, or all that are left. -/
def steady (n : ℕ) (hn : n < 2^31) : Stream Unit where
  read _ _ length s :=
    (.ofBytes (List.replicate (min n length) 0) (by rw [List.length_replicate]; omega)
      (by rw [List.length_replicate]; omega),s)
  write _ _ length s := (.ofNat (min n length) (by omega) (by omega),s)

theorem through_of_pos {call : (offset left : ℕ) → σ → Transfer left × σ} {offset left : ℕ} {s : σ}
    (h : ∀ offset left s, 0 < left → 0 < (call offset left s).1.bytes.length) :
    Through call offset left s := by
  induction left using Nat.strongRecOn generalizing offset s with
  | ind left ih =>
    by_cases hleft : left = 0
    · subst hleft
      exact .done
    · have hpos := h offset left s (by omega)
      exact .more hpos (ih _ (by omega))

theorem through_steady {n : ℕ} (hn : n < 2^31) (hpos : 0 < n) (memory : Memory) (buffer length : ℕ) :
    Through ((steady n hn).readAt buffer) 0 length (memory,()) := by
  apply through_of_pos
  intro offset left s hleft
  simp only [readAt, steady, Transfer.ofBytes, List.length_replicate]
  omega

theorem fixSize_three :
    ((steady 2 (by decide)).readFixSize (fun _ => 7) 5 3 ()).ReadComplete (fun _ => 7) 5 3 :=
  ((fixSize_iff (steady 2 (by decide)) (fun _ => 7) 5 () (by decide)).1).mpr (.inl (by decide))

/-- All the bytes of a buffer of two GiB are read, and the value is that of a failure. -/
theorem not_fixSize :
    let r := (steady (2^30) (by decide)).readFixSize (fun _ => 0) 0 (2^31) ()
    (transferred r.calls).length = 2^31 ∧ r.rt = -2^31 ∧ ¬r.ReadComplete (fun _ => 0) 0 (2^31) := by
  intro r
  have hthrough := through_steady (n := 2^30) (by decide) (by decide) (fun _ => 0) 0 (2^31)
  obtain ⟨hlength,hrt⟩ := readFixSize_of_through (steady (2^30) (by decide)) (fun _ => 0) 0 ()
    (by decide) hthrough
  have hint : int (2^31) = -2^31 := by
    unfold int
    decide
  have hnot : ¬r.ReadComplete (fun _ => 0) 0 (2^31) := by
    rw [readFixSize_complete_iff _ _ _ _ (by decide)]
    exact fun h => h.elim (by decide) (not_not_intro hthrough)
  exact ⟨hlength,hrt.trans hint,hnot⟩

end Stream
end CoroutineWebserve
