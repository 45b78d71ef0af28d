import CoroutineWebserve.ByteArray.Scatter
import CoroutineWebserve.Stream.FixSize

/-!
# Streams over an array

`SocketStream` receives into the views of a `ByteArray`, or sends what they show. `readFixSize` and
`writeFixSize` of an array call it until all has gone through or a call fails.
-/
namespace CoroutineWebserve
open Buffer CoroutineWebserve.ByteArray

/-- `recvmsg` and `sendmsg`. Of the views the one needs the length, the other the bytes. -/
structure Messages (κ : Type) where
  recvmsg (length : ℕ) (s : κ) : Transfer length × κ
  sendmsg (bytes : List UInt8) (s : κ) : Count bytes.length × κ

/-- A pipe with its bytes, of which a call passes on at most `n`. -/
def pipe (n : ℕ) (hn : n < 2^31) : Messages (List UInt8) where
  recvmsg length s :=
    (.ofBytes (s.take (min n length)) (by rw [List.length_take]; omega)
      (by rw [List.length_take]; omega),s.drop (min n length))
  sendmsg bytes s := (.ofNat (min n bytes.length) (by omega) (by omega),s++bytes.take n)

/-- What a call on an array returns, the bytes that went through, and what it leaves. -/
structure Moved (σ : Type) where
  rt : ℤ
  bytes : List UInt8
  array : ByteArray
  state : σ

namespace SocketStream
variable {κ : Type}

/-- `SocketStream::read(ByteArray::ptr ba, size_t length)`. -/
def readArray (memory : ℕ → ℕ → UInt8) (kernel : Messages κ) (length : ℕ) (ba : ByteArray)
    (s : SocketStream κ) : Except Fault (Moved (SocketStream κ)) :=
  if !s.isConnected then .ok ⟨-1,[],ba,s⟩ else do
  let (_,iovs,ba) ← ba.getWriteBuffers memory [] length
  let (t,peer) := kernel.recvmsg (total iovs) s.peer
  let root ← scatter iovs t.bytes ba.root
  let ba ← { ba with root }.moveBy t.rt.toInt
  return ⟨t.rt.toInt,t.bytes,ba,{ s with peer }⟩

/-- `SocketStream::write(ByteArray::ptr ba, size_t length)`. -/
def writeArray (kernel : Messages κ) (length : ℕ) (ba : ByteArray) (s : SocketStream κ) :
    Except Fault (Moved (SocketStream κ)) :=
  if !s.isConnected then .ok ⟨-1,[],ba,s⟩ else do
  let (_,iovs) ← ba.getReadBuffers [] length
  let (t,peer) := kernel.sendmsg (gather ba.root iovs) s.peer
  let bytes := (gather ba.root iovs).take t.rt.toInt.toNat
  let ba ← ba.moveBy t.rt.toInt
  return ⟨t.rt.toInt,bytes,ba,{ s with peer }⟩

end SocketStream

namespace Stream
variable {σ : Type}

/-- The loop of `readFixSize` and `writeFixSize` of an array. -/
def arrayLoop (call : (left : ℕ) → ByteArray → σ → Except Fault (Moved σ)) (length : ℕ) (left : ℤ)
    (ba : ByteArray) (s : σ) : Except Fault (Moved σ) :=
  if left > 0 then
    match call left.toNat ba s with
    | .error e => .error e
    | .ok m =>
      if m.rt ≤ 0 then .ok m
      else
        match arrayLoop call length (left-m.rt) m.array m.state with
        | .error e => .error e
        | .ok r => .ok { r with bytes := m.bytes++r.bytes }
  else .ok ⟨int length,[],ba,s⟩
termination_by left.toNat

/-- `Stream::readFixSize(ByteArray::ptr ba, size_t length)` of a `SocketStream`. -/
def readFixSizeArray {κ : Type} (memory : ℕ → ℕ → UInt8) (kernel : Messages κ) (length : ℕ) :
    ByteArray → SocketStream κ → Except Fault (Moved (SocketStream κ)) :=
  arrayLoop (SocketStream.readArray memory kernel) length (int64 length)

/-- `Stream::writeFixSize(ByteArray::ptr ba, size_t length)` of a `SocketStream`. -/
def writeFixSizeArray {κ : Type} (kernel : Messages κ) (length : ℕ) :
    ByteArray → SocketStream κ → Except Fault (Moved (SocketStream κ)) :=
  arrayLoop (SocketStream.writeArray kernel) length (int64 length)

/-! ### The loop -/

/-- A count is that of the bytes, of which there are no more than were asked for. -/
structure Counts (left : ℕ) (m : Moved σ) : Prop where
  le : m.bytes.length ≤ left
  count : m.bytes.length = m.rt.toNat

/-- The end of a loop: all went through, or a call failed behind what did. -/
def Ends (length left : ℕ) (m : Moved σ) : Prop :=
  m.bytes.length = left ∧ m.rt = int length ∨ m.bytes.length < left ∧ m.rt ≤ 0

section loop
variable (call : (left : ℕ) → ByteArray → σ → Except Fault (Moved σ)) (length : ℕ)

theorem arrayLoop_done (ba : ByteArray) (s : σ) :
    arrayLoop call length (0 : ℕ) ba s = .ok ⟨int length,[],ba,s⟩ := by
  rw [arrayLoop, if_neg (by omega)]

theorem arrayLoop_error {left : ℕ} {ba : ByteArray} {s : σ} (hleft : 0 < left) {e : Fault}
    (h : call left ba s = .error e) : arrayLoop call length left ba s = .error e := by
  rw [arrayLoop, if_pos (by omega), Int.toNat_natCast, h]

/-- Where each call goes well and leads to a state of the same kind, the loop goes well, and what
holds of every call and is carried back over it holds of the loop. -/
theorem arrayLoop_induction {I : ℕ → ByteArray → σ → Prop} {P : ℕ → ByteArray → σ → Moved σ → Prop}
    (done : ∀ ba s, P 0 ba s ⟨int length,[],ba,s⟩)
    (step : ∀ left ba s, 0 < left → I left ba s → ∃ m, call left ba s = .ok m ∧ Counts left m ∧
      I (left-m.bytes.length) m.array m.state ∧ P left ba s m ∧
      ∀ r, P (left-m.bytes.length) m.array m.state r →
        P left ba s { r with bytes := m.bytes++r.bytes })
    {left : ℕ} {ba : ByteArray} {s : σ} (h : I left ba s) :
    ∃ r, arrayLoop call length left ba s = .ok r ∧ P left ba s r ∧ Ends length left r := by
  induction left using Nat.strongRecOn generalizing ba s with
  | ind left ih =>
    by_cases hleft : left = 0
    · subst hleft
      exact ⟨_,arrayLoop_done call length ba s,done ba s,.inl ⟨rfl,rfl⟩⟩
    · obtain ⟨m,hcall,hcounts,hnext,hfailed,hmore⟩ := step left ba s (by omega) h
      have hle := hcounts.le
      have hcount := hcounts.count
      rw [arrayLoop, if_pos (by omega), Int.toNat_natCast, hcall]
      dsimp only
      by_cases hrt : m.rt ≤ 0
      · exact ⟨m,if_pos hrt,hfailed,.inr ⟨by omega,hrt⟩⟩
      · have hrest : (left : ℤ)-m.rt = (left-m.bytes.length : ℕ) := by omega
        obtain ⟨r,hrun,hr,hends⟩ := ih (left-m.bytes.length) (by omega) hnext
        refine ⟨_,?_,hmore r hr,?_⟩
        · rw [if_neg hrt, hrest, hrun]
        · have happend : (m.bytes++r.bytes).length = m.bytes.length+r.bytes.length :=
            List.length_append
          rcases hends with ⟨hall,hend⟩ | ⟨hshort,hend⟩
          · exact .inl ⟨by dsimp only; omega,hend⟩
          · exact .inr ⟨by dsimp only; omega,hend⟩

end loop

/-! ### Receiving into an array -/

section arrays
variable {κ : Type} (memory : ℕ → ℕ → UInt8) (kernel : Messages κ)

/-- What was received is behind the cursor, for which as much room was made as was asked for. -/
structure Received (f : FlatBuffer UInt8) (length : ℕ) (m : Moved (SocketStream κ)) : Prop where
  represents : m.array.Represents ((f.reserve length).write m.bytes)
  ends : Ends length length m

/-- A call on a connected stream. -/
theorem readArray_ok {a : ByteArray} {f : FlatBuffer UInt8} (h : a.Represents f)
    {s : SocketStream κ} (hconnected : s.isConnected = true) {n : ℕ} (hn : 0 < n)
    (hcounted : a.Counted n) :
    ∃ m, SocketStream.readArray memory kernel n a s = .ok m ∧ Counts n m ∧
      m.state.isConnected = true ∧ m.array.Represents ((f.reserve n).write m.bytes) := by
  obtain ⟨iovs,hviews,hshow⟩ := h.getWriteBuffers memory hn hcounted
  have htotal := hshow.total_eq
  let t := (kernel.recvmsg (total iovs) s.peer).1
  have hlength : t.bytes.length ≤ n := htotal ▸ t.length_le
  obtain ⟨root,a',hscatter,hmove,hrep⟩ :=
    (h.reserve memory hcounted).received hshow (f.le_free_reserve n) hlength
  have hmove' : { a.addCapacity memory n with root }.moveBy t.rt.toInt = .ok a' := by
    rw [← hmove]
    by_cases hpos : 0 < t.bytes.length
    · rw [t.toInt_eq hpos]
    · have hrt := mt t.pos_of_rt hpos
      rw [moveBy, moveBy, if_neg (by omega), if_neg (by omega)]
  refine ⟨⟨t.rt.toInt,t.bytes,a',{ s with peer := (kernel.recvmsg (total iovs) s.peer).2 }⟩,
    ?_,⟨hlength,t.count⟩,hconnected,hrep⟩
  rw [SocketStream.readArray, if_neg (by simp [hconnected]), hviews]
  simp only [bind, Except.bind]
  rw [hscatter]
  dsimp only
  rw [hmove']
  rfl

/-- A state from which the loop goes on. -/
structure Receiving (left : ℕ) (ba : ByteArray) (s : SocketStream κ) : Prop where
  connected : s.isConnected = true
  counted : ba.Counted left
  represents : ∃ f, ba.Represents f

/-- What was received is behind the cursor, and there is room for all that was asked for. -/
structure Receives (left : ℕ) (ba : ByteArray) (_ : SocketStream κ) (m : Moved (SocketStream κ)) :
    Prop where
  le : m.bytes.length ≤ left
  represents : ∀ f, ba.Represents f → m.array.Represents ((f.reserve left).write m.bytes)

/-- A call makes room for all that is left, so the later ones find it. -/
theorem readArray_step (left : ℕ) (ba : ByteArray) (s : SocketStream κ) (hleft : 0 < left)
    (h : Receiving left ba s) :
    ∃ m, SocketStream.readArray memory kernel left ba s = .ok m ∧ Counts left m ∧
      Receiving (left-m.bytes.length) m.array m.state ∧ Receives left ba s m ∧
      ∀ r, Receives (left-m.bytes.length) m.array m.state r →
        Receives left ba s { r with bytes := m.bytes++r.bytes } := by
  obtain ⟨hs,hroom,g,hg⟩ := h
  obtain ⟨m,hcall,hcounts,hs',-⟩ := readArray_ok memory kernel hg hs hleft hroom
  have hle := hcounts.le
  have hrep : ∀ f, ba.Represents f → m.array.Represents ((f.reserve left).write m.bytes) ∧
      left-m.bytes.length ≤ ((f.reserve left).write m.bytes).free := by
    intro f hf
    obtain ⟨m',hcall',-,-,hm'⟩ := readArray_ok memory kernel hf hs hleft hroom
    rw [hcall] at hcall'
    cases hcall'
    have hfree := f.le_free_reserve left
    refine ⟨hm',?_⟩
    rw [FlatBuffer.free_write (by omega)]
    omega
  have hcounted : m.array.Counted (left-m.bytes.length) := by
    refine .inl ?_
    rw [(hrep g hg).1.free_eq]
    exact (hrep g hg).2
  refine ⟨m,hcall,hcounts,⟨hs',hcounted,_,(hrep g hg).1⟩,⟨hle,fun f hf => (hrep f hf).1⟩,?_⟩
  rintro r ⟨hshort,hr⟩
  have happend : (m.bytes++r.bytes).length = m.bytes.length+r.bytes.length := List.length_append
  refine ⟨by dsimp only; omega,fun f hf => ?_⟩
  have hfree := f.le_free_reserve left
  have hm := hr _ (hrep f hf).1
  rwa [FlatBuffer.reserve_of_le (hrep f hf).2, FlatBuffer.write_write (by omega)] at hm

theorem receives_done (length : ℕ) (ba : ByteArray) (s : SocketStream κ) :
    Receives 0 ba s ⟨int length,[],ba,s⟩ := by
  refine ⟨le_rfl,fun f hf => ?_⟩
  rwa [FlatBuffer.reserve_of_le (Nat.zero_le _), f.write_nil]

/-- Where the remainder is not counted, the first call walks over the end of the chain. -/
theorem readFixSizeArray_null {a : ByteArray} (h : a.WellFormed) {s : SocketStream κ}
    (hconnected : s.isConnected = true) {n : ℕ} (hlt : n < 2^63) (hnot : ¬a.Counted n) :
    readFixSizeArray memory kernel n a s = .error .nullNode := by
  have hpos : 0 < n := by
    by_contra hzero
    exact hnot (.inl (by omega))
  rw [readFixSizeArray, int64_of_lt hlt]
  refine arrayLoop_error _ n hpos ?_
  rw [SocketStream.readArray, if_neg (by simp [hconnected]),
    h.getWriteBuffers_null memory hnot]
  rfl

/-- The bytes are those of a read of the flat buffer, and the array stands for what it leaves. -/
def Taken (f : FlatBuffer UInt8) (bytes : List UInt8) (ba : ByteArray) : Prop :=
  ∃ h : bytes.length ≤ f.cells.length-f.cursor,
    SpecifiesBytes (f.read bytes.length h).1 bytes ∧ ba.Represents (f.read bytes.length h).2

theorem Taken.append {f : FlatBuffer UInt8} {xs ys : List UInt8} {a a' : ByteArray}
    (hx : Taken f xs a) (hy : ∀ g, a.Represents g → Taken g ys a') : Taken f (xs++ys) a' := by
  obtain ⟨hxs,hcells,hrep⟩ := hx
  obtain ⟨hys,hcells',hrep'⟩ := hy _ hrep
  have happend : (xs++ys).length = xs.length+ys.length := List.length_append
  have hrest : ys.length ≤ f.cells.length-(f.cursor+xs.length) := hys
  have hcursor := f.cursor_le
  have hwindow : window f.cells f.cursor (xs++ys).length =
      window f.cells f.cursor xs.length++window f.cells (f.cursor+xs.length) ys.length := by
    rw [happend, window, List.take_add, List.drop_drop]
    rfl
  refine ⟨by omega,?_,?_⟩
  · change SpecifiesBytes (window f.cells f.cursor (xs++ys).length) (xs++ys)
    rw [hwindow]
    exact List.rel_append hcells hcells'
  · convert hrep' using 1
    simp only [FlatBuffer.read, happend, Nat.add_assoc]

/-- A call on a connected stream. -/
theorem writeArray_ok {a : ByteArray} {f : FlatBuffer UInt8} (h : a.Represents f)
    {s : SocketStream κ} (hconnected : s.isConnected = true) (n : ℕ) :
    ∃ m, SocketStream.writeArray kernel n a s = .ok m ∧ Counts n m ∧
      m.state.isConnected = true ∧ Taken f m.bytes m.array := by
  obtain ⟨iovs,hviews,hcells⟩ := h.getReadBuffers n
  have hcursor := f.cursor_le
  have hlength := hcells.length_eq
  rw [window_length _ _ _ (by omega)] at hlength
  let t := (kernel.sendmsg (gather a.root iovs) s.peer).1
  let bytes := (gather a.root iovs).take t.rt.toInt.toNat
  have hrt := t.le
  have hcount : bytes.length = t.rt.toInt.toNat := by
    rw [List.length_take]
    omega
  have hle : bytes.length ≤ f.cells.length-f.cursor := by omega
  obtain ⟨a',hmove,hrep⟩ := h.moved hle
  have hmove' : a.moveBy t.rt.toInt = .ok a' := by
    rw [← hmove]
    by_cases hpos : 0 < t.rt.toInt
    · rw [hcount, Int.toNat_of_nonneg hpos.le]
    · rw [moveBy, moveBy, if_neg hpos, if_neg (by omega)]
  refine ⟨⟨t.rt.toInt,bytes,a',{ s with peer := (kernel.sendmsg (gather a.root iovs) s.peer).2 }⟩,
    ?_,⟨by dsimp only; omega,hcount⟩,hconnected,hle,?_,hrep⟩
  · rw [SocketStream.writeArray, if_neg (by simp [hconnected]), hviews]
    simp only [bind, Except.bind]
    rw [hmove']
    rfl
  · have hsame : (gather a.root iovs).take bytes.length = bytes := by rw [hcount]
    have htake := List.forall₂_take bytes.length hcells
    rw [window, List.take_take, Nat.min_eq_left (by omega), hsame] at htake
    exact htake

/-- A state from which the loop goes on. -/
structure Sending (_ : ℕ) (ba : ByteArray) (s : SocketStream κ) : Prop where
  connected : s.isConnected = true
  represents : ∃ f, ba.Represents f

/-- What was sent are the cells from the cursor on. -/
def Sends (_ : ℕ) (ba : ByteArray) (_ : SocketStream κ) (m : Moved (SocketStream κ)) : Prop :=
  ∀ f, ba.Represents f → Taken f m.bytes m.array

theorem writeArray_step (left : ℕ) (ba : ByteArray) (s : SocketStream κ) (_ : 0 < left)
    (h : Sending left ba s) :
    ∃ m, SocketStream.writeArray kernel left ba s = .ok m ∧ Counts left m ∧
      Sending (left-m.bytes.length) m.array m.state ∧ Sends left ba s m ∧
      ∀ r, Sends (left-m.bytes.length) m.array m.state r →
        Sends left ba s { r with bytes := m.bytes++r.bytes } := by
  obtain ⟨hs,g,hg⟩ := h
  obtain ⟨m,hcall,hcounts,hs',_,_,hnext⟩ := writeArray_ok kernel hg hs left
  have htaken : Sends left ba s m := by
    intro f hf
    obtain ⟨m',hcall',-,-,hm'⟩ := writeArray_ok kernel hf hs left
    rw [hcall] at hcall'
    cases hcall'
    exact hm'
  exact ⟨m,hcall,hcounts,⟨hs',_,hnext⟩,htaken,fun r hr f hf => (htaken f hf).append hr⟩

theorem sends_done (length : ℕ) (ba : ByteArray) (s : SocketStream κ) :
    Sends 0 ba s ⟨int length,[],ba,s⟩ := fun _ hf => ⟨Nat.zero_le _,.nil,hf⟩

end arrays
end Stream
end CoroutineWebserve
