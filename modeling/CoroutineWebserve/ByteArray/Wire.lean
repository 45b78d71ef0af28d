import CoroutineWebserve.ByteArray.TypedReads

/-!
# What is on the wire

The writers append one or two chunks of bytes. Where `SYLAR_BYTE_ORDER` is the byte order of the
host, the chunks are the same on every host. The readers read a chain as they read a flat string.
-/
namespace CoroutineWebserve.ByteArray
open Buffer Bits

/-- A value with its writer. -/
inductive Item
  | number (n : Number)
  | string (f : Format) (value : List UInt8)

/-! ### The chunks of an item -/

/-- A number of fixed width in the byte order of the array. -/
def fixedBytes {w : ℕ} (endian : Endian) (v : BitVec w) : List UInt8 :=
  match endian with
  | .LITTLE_ENDIAN => toBytes v
  | .BIG_ENDIAN => (toBytes v).reverse

def Kind.encode (endian : Endian) : (k : Kind) → BitVec k.width → List UInt8
  | .Fint8, v | .Fuint8, v => toBytes v
  | .Fint16, v | .Fuint16, v => fixedBytes endian v
  | .Fint32, v | .Fuint32, v | .Float, v => fixedBytes endian v
  | .Fint64, v | .Fuint64, v | .Double, v => fixedBytes endian v
  | .Int32, v => encodeVarint (EncodeZigzag32 v)
  | .Int64, v => encodeVarint (EncodeZigzag64 v)
  | .Uint32, v => encodeVarint (v : BitVec 32)
  | .Uint64, v => encodeVarint (v : BitVec 64)

namespace Item
variable {σ : Type} (B : Base σ) (endian : Endian)

def write : Item → σ → Except Fault σ
  | number n, s => n.write B endian s
  | string f value, s => f.write B endian value s

/-- The reader that belongs to the writer. -/
def kind : Item → TypedRead
  | number n => .number n.1
  | string f _ => .string f

def read : TypedRead → σ → Except Fault (Item × σ)
  | .number k, s => do
    let (n,s) ← Number.read B endian k s
    return (number n,s)
  | .string f, s => do
    let (value,s) ← f.read B endian s
    return (string f value,s)

/-- What is written, call by call. -/
def chunks : Item → List (List UInt8)
  | number n => [n.1.encode endian n.2]
  | string f value => [f.lengthKind.encode endian (BitVec.ofNat _ value.length),value]

/-- A string whose length fits in front of it. An empty one may be read where there is no node. -/
def Fits : Item → Prop
  | number _ => True
  | string f value => value ≠ [] ∧ value.length < 2^f.width

instance : ∀ i : Item, Decidable i.Fits
  | number _ => isTrue trivial
  | string .. => inferInstanceAs (Decidable (_ ∧ _))

end Item

/-- The bytes of the items. -/
def wire (endian : Endian) (items : List Item) : List UInt8 :=
  (items.flatMap (Item.chunks endian)).flatten

section write
variable {σ : Type} (B : Base σ) (endian : Endian) {w : ℕ}

theorem toBytes_reverse_eight (v : BitVec 8) : (toBytes v).reverse = toBytes v := by
  obtain ⟨b,hb⟩ := List.length_eq_one_iff.mp (show (toBytes v).length = 1 from toBytes_length v)
  rw [hb, List.reverse_singleton]

theorem object_eight (v : BitVec 8) : B.object v = toBytes v := by
  unfold Base.object
  split
  · rfl
  · exact toBytes_reverse_eight v

/-- Swapped or not, the bytes stand in the order of the array. -/
theorem object_fixed (hB : B.byteOrder = B.host) (hw : 8 ∣ w) (v : BitVec w) :
    B.object (if endian ≠ B.byteOrder then byteswap v else v) = fixedBytes endian v := by
  have hswap : toBytes (byteswap v) = (toBytes v).reverse :=
    toBytes_ofBytes hw (by rw [List.length_reverse, toBytes_length])
  rw [hB, Base.object]
  cases endian <;> cases B.host <;> simp [fixedBytes, hswap]

theorem kind_write_eq (hB : B.byteOrder = B.host) (k : Kind) (v : BitVec k.width) (s : σ) :
    k.write B endian v s = B.write (k.encode endian v) s := by
  cases k with
  | Fint8 | Fuint8 => exact congrArg (B.write · s) (object_eight B v)
  | Fint16 | Fuint16 | Fint32 | Fuint32 | Fint64 | Fuint64 | Float | Double =>
    exact congrArg (B.write · s) (object_fixed B endian hB (by decide) v)
  | Int32 | Int64 | Uint32 | Uint64 => rfl

theorem writeAll_append {α : Type} (write : α → σ → Except Fault σ) (xs ys : List α) (s : σ) :
    writeAll write (xs++ys) s = writeAll write xs s >>= writeAll write ys := by
  induction xs generalizing s with
  | nil => rfl
  | cons x xs ih =>
    simp only [List.cons_append, writeAll, bind_assoc]
    exact bind_congr fun s => ih s

theorem item_write_eq (hB : B.byteOrder = B.host) (i : Item) (s : σ) :
    i.write B endian s = writeAll B.write (i.chunks endian) s := by
  cases i with
  | number n =>
    simp only [Item.write, Number.write, kind_write_eq B endian hB, Item.chunks, writeAll]
    exact (bind_pure _).symm
  | string f value =>
    have hlength := kind_write_eq B endian hB f.lengthKind (BitVec.ofNat _ value.length) s
    have hwrite : f.write B endian value s =
        f.lengthKind.write B endian (BitVec.ofNat _ value.length) s >>= B.write value := by
      cases f <;> rfl
    simp only [Item.write, hwrite, hlength, Item.chunks, writeAll]
    exact bind_congr fun s => (bind_pure _).symm

theorem items_write_eq (hB : B.byteOrder = B.host) (items : List Item) (s : σ) :
    writeAll (Item.write B endian) items s =
      writeAll B.write (items.flatMap (Item.chunks endian)) s := by
  induction items generalizing s with
  | nil => rfl
  | cons i items ih =>
    rw [List.flatMap_cons, writeAll_append, writeAll, item_write_eq B endian hB]
    exact bind_congr ih

end write

/-! ### Reading from a flat string -/

section flat
variable (host endian : Endian)

theorem kind_read_encode (k : Kind) (v : BitVec k.width) (rest : List UInt8) :
    k.read (flat host host) endian (k.encode endian v++rest) = .ok (v,rest) := by
  have hround : RoundTrips (k.write (flat host host) endian v) (k.read (flat host host) endian) v
      k.bytes := kind_roundTrips k v
  obtain ⟨bs,-,hwrite,hread⟩ := hround
  have hbytes : k.encode endian v = bs := by
    have hok := (kind_write_eq (flat host host) endian rfl k v []).symm.trans (hwrite [])
    exact Except.ok.inj hok
  rw [hbytes]
  exact hread rest

theorem item_read_chunks {i : Item} (h : i.Fits) (rest : List UInt8) :
    Item.read (flat host host) endian i.kind ((i.chunks endian).flatten++rest) = .ok (i,rest) := by
  cases i with
  | number n =>
    have hread := kind_read_encode host endian n.1 n.2 rest
    simp only [Item.kind, Item.read, Item.chunks, Number.read, List.flatten_cons,
      List.flatten_nil, List.append_nil, hread, bind, Except.bind, pure, Except.pure]
  | string f value =>
    obtain ⟨bs,hwrite,hread⟩ := string_read host host endian f value
    have hbytes : ((Item.string f value).chunks endian).flatten = bs++value := by
      have hok := (item_write_eq (flat host host) endian rfl (.string f value) []).symm.trans
        (hwrite [])
      simp only [Item.chunks, writeAll, bind, Except.bind, flat, Except.ok.injEq] at hok
      simpa [Item.chunks] using hok
    have hvalue := hread rest
    rw [Nat.mod_eq_of_lt h.2, List.take_length, List.drop_length, List.nil_append] at hvalue
    rw [hbytes, Item.kind, Item.read, hvalue]
    rfl

theorem items_read_wire {items : List Item} (h : ∀ i ∈ items, i.Fits) (rest : List UInt8) :
    readAll (Item.read (flat host host) endian) (items.map Item.kind) (wire endian items++rest) =
      .ok (items,rest) := by
  induction items with
  | nil => rfl
  | cons i items ih =>
    have hbytes : wire endian (i :: items)++rest =
        (i.chunks endian).flatten++(wire endian items++rest) := by
      simp only [wire, List.flatMap_cons, List.flatten_append, List.append_assoc]
    have hrest := ih fun j hj => h j (List.mem_cons_of_mem i hj)
    rw [hbytes, List.map_cons, readAll, item_read_chunks host endian (h i List.mem_cons_self)]
    simp only [bind, Except.bind, hrest]
    rfl

end flat

/-! ### Reading from a chain -/

section follows
variable {α β σ τ : Type}

/-- Where `y` is a value, `x` is it too, in a related state. -/
def Follows (R : σ → τ → Prop) (x : Except Fault (α × σ)) (y : Except Fault (α × τ)) : Prop :=
  ∀ ⦃v t⦄, y = .ok (v,t) → ∃ s, x = .ok (v,s) ∧ R s t

namespace Follows
variable {R : σ → τ → Prop}

theorem pure {s : σ} {t : τ} (h : R s t) (v : α) : Follows R (.ok (v,s)) (.ok (v,t)) := by
  rintro v t' ⟨⟩
  exact ⟨s,rfl,h⟩

theorem bind {x : Except Fault (α × σ)} {y : Except Fault (α × τ)} (h : Follows R x y)
    {f : α × σ → Except Fault (β × σ)} {g : α × τ → Except Fault (β × τ)}
    (hf : ∀ v s t, R s t → Follows R (f (v,s)) (g (v,t))) : Follows R (x >>= f) (y >>= g) := by
  intro w t' hw
  cases y with
  | error e => cases hw
  | ok r =>
    obtain ⟨s,rfl,hrel⟩ := h rfl
    exact hf r.1 s r.2 hrel hw

end Follows

theorem Format.read_eq (f : Format) (B : Base σ) (endian : Endian) (s : σ) :
    f.read B endian s = f.lengthKind.read B endian s >>= fun r => B.read r.1.toNat r.2 := by
  cases f <;> rfl

/-- The reads of `C`, but for those of nothing, are reads of `B`. -/
structure Base.Follows (B : Base σ) (C : Base τ) (R : σ → τ → Prop) : Prop where
  host : B.host = C.host
  byteOrder : B.byteOrder = C.byteOrder
  read : ∀ n, 0 < n → ∀ s t, R s t → ByteArray.Follows R (B.read n s) (C.read n t)

namespace Base.Follows
variable {B : Base σ} {C : Base τ} {R : σ → τ → Prop} (h : B.Follows C R) (endian : Endian)
include h

theorem readObject {w : ℕ} (hw : 0 < w/8) {s : σ} {t : τ} (hst : R s t) :
    ByteArray.Follows R (B.readObject w s) (C.readObject w t) := by
  refine (h.read (w/8) hw s t hst).bind fun bytes s t hst => ?_
  have hvalue : (B.ofObject bytes : BitVec w) = C.ofObject bytes := by
    unfold Base.ofObject
    rw [h.host]
  dsimp only
  rw [hvalue]
  exact .pure hst _

theorem readFixed {w : ℕ} (hw : 0 < w/8) {s : σ} {t : τ} (hst : R s t) :
    ByteArray.Follows R (ByteArray.readFixed B endian w s) (ByteArray.readFixed C endian w t) := by
  refine (h.readObject hw hst).bind fun v s t hst => ?_
  rw [h.byteOrder]
  exact .pure hst _

theorem readVarint {w : ℕ} (i : ℕ) (result : BitVec w) {s : σ} {t : τ} (hst : R s t) :
    ByteArray.Follows R (ByteArray.readVarint B i result s)
      (ByteArray.readVarint C i result t) := by
  induction hn : w-i using Nat.strongRecOn generalizing i result s t with
  | ind n ih =>
    rw [ByteArray.readVarint, ByteArray.readVarint.eq_def C]
    by_cases hi : i < w
    · rw [if_pos hi, if_pos hi]
      refine (h.readObject (by decide) hst).bind fun b s t hst => ?_
      dsimp only
      split
      · exact .pure hst _
      · exact ih (w-(i+7)) (by omega) (i+7) _ hst rfl
    · rw [if_neg hi, if_neg hi]
      exact .pure hst _

theorem kind_read (k : Kind) {s : σ} {t : τ} (hst : R s t) :
    ByteArray.Follows R (k.read B endian s) (k.read C endian t) := by
  cases k with
  | Fint8 | Fuint8 => exact h.readObject (by decide) hst
  | Fint16 | Fuint16 | Fint32 | Fuint32 | Fint64 | Fuint64 | Float | Double =>
    exact h.readFixed endian (by decide) hst
  | Uint32 | Uint64 => exact h.readVarint 0 _ hst
  | Int32 | Int64 => exact (h.readVarint 0 _ hst).bind fun v s t hst => .pure hst _

/-- An item that is read from `C`, if it is not an empty string. -/
theorem item_read (hcount : ∀ n t bytes t', C.read n t = .ok (bytes,t') → bytes.length = n)
    {i : Item} (hi : i.Fits) {s : σ} {t t' : τ} (hst : R s t)
    (hread : Item.read C endian i.kind t = .ok (i,t')) :
    ∃ s', Item.read B endian i.kind s = .ok (i,s') ∧ R s' t' := by
  cases i with
  | number n =>
    have hnumber : ByteArray.Follows R (Item.read B endian (.number n.1) s)
        (Item.read C endian (.number n.1) t) := by
      refine (Follows.bind ?_ fun v s t hst => .pure hst _)
      exact (h.kind_read endian n.1 hst).bind fun v s t hst => .pure hst _
    exact hnumber hread
  | string f value =>
    cases hlen : f.lengthKind.read C endian t with
    | error e => simp [Item.kind, Item.read, f.read_eq C endian, hlen, Bind.bind, Except.bind] at hread
    | ok r =>
      obtain ⟨s₁,hs₁,hrel⟩ := h.kind_read endian f.lengthKind hst hlen
      cases hvalue : C.read r.1.toNat r.2 with
      | error e => simp [Item.kind, Item.read, f.read_eq C endian, hlen, hvalue, Bind.bind, Except.bind] at hread
      | ok q =>
        simp only [Item.kind, Item.read, f.read_eq C endian, hlen, hvalue, Bind.bind, Except.bind, Pure.pure,
          Except.pure, Except.ok.injEq, Prod.mk.injEq, Item.string.injEq, true_and] at hread
        obtain ⟨rfl,rfl⟩ := hread
        have hpos : 0 < r.1.toNat := by
          rw [← hcount _ _ _ _ hvalue]
          exact List.length_pos_iff.mpr hi.1
        obtain ⟨s',hs',hrel'⟩ := h.read _ hpos _ _ hrel hvalue
        refine ⟨s',?_,hrel'⟩
        simp only [Item.kind, Item.read, f.read_eq B endian, hs₁, hs', Bind.bind, Except.bind]
        rfl

theorem items_read (hcount : ∀ n t bytes t', C.read n t = .ok (bytes,t') → bytes.length = n)
    {items : List Item} (hi : ∀ i ∈ items, i.Fits) {s : σ} {t t' : τ} (hst : R s t)
    (hread : readAll (Item.read C endian) (items.map Item.kind) t = .ok (items,t')) :
    ∃ s', readAll (Item.read B endian) (items.map Item.kind) s = .ok (items,s') ∧ R s' t' := by
  induction items generalizing s t with
  | nil =>
    cases hread
    exact ⟨s,rfl,hst⟩
  | cons i items ih =>
    rw [List.map_cons, readAll] at hread
    cases hone : Item.read C endian i.kind t with
    | error e => simp [hone, Bind.bind, Except.bind] at hread
    | ok r =>
      cases hmore : readAll (Item.read C endian) (items.map Item.kind) r.2 with
      | error e => simp [hone, hmore, Bind.bind, Except.bind] at hread
      | ok q =>
        simp only [hone, hmore, Bind.bind, Except.bind, Pure.pure, Except.pure, Except.ok.injEq,
          Prod.mk.injEq, List.cons.injEq] at hread
        obtain ⟨⟨hr,hq⟩,ht⟩ := hread
        obtain ⟨s₁,hs₁,hrel⟩ := h.item_read endian hcount (hi i List.mem_cons_self) hst
          (hone.trans (by rw [← hr]))
        obtain ⟨s',hs',hrel'⟩ := ih (fun j hj => hi j (List.mem_cons_of_mem i hj)) hrel
          (hmore.trans (by rw [← hq, ← ht]))
        refine ⟨s',?_,hrel'⟩
        simp only [List.map_cons, readAll, hs₁, hs', Bind.bind, Except.bind]
        rfl

end Base.Follows
end follows

/-- The chain stands for the bytes from the position on. -/
def Holds (a : ByteArray) (bytes : List UInt8) : Prop := a.WellFormed ∧ a.rest = bytes

/-- A chain is read as the string of its readable bytes is. -/
theorem base_follows (memory : ℕ → ℕ → UInt8) (host byteOrder : Endian) :
    (base memory host byteOrder).Follows (flat host byteOrder) Holds where
  host := rfl
  byteOrder := rfl
  read n hn a bytes hold v bytes' hread := by
    obtain ⟨h,rfl⟩ := hold
    have hlength := h.rest_length
    have hsize := h.size_le
    have hle : n ≤ a.rest.length := by
      by_contra hlong
      simp [flat, not_le.mp hlong] at hread
    have hshort : ¬n > a.rest.length := by omega
    simp only [flat, if_neg hshort, Except.ok.injEq, Prod.mk.injEq] at hread
    obtain ⟨rfl,rfl⟩ := hread
    refine ⟨a.skip n,?_,h.skip hle,rest_skip a n⟩
    have hend : a.position+n ≤ a.size := by omega
    have hrun := h.read (by omega) hend
    simp only [base, hrun, rest, window, List.take_take, Nat.min_eq_left (hlength ▸ hle)]
    rfl

/-- Where the bytes of the items stand, the items are read, in the order of the array's bytes and
on any host. -/
theorem items_read (memory : ℕ → ℕ → UInt8) (host endian : Endian) {items : List Item}
    (hi : ∀ i ∈ items, i.Fits) {a : ByteArray} {rest : List UInt8}
    (h : Holds a (wire endian items++rest)) :
    ∃ a', readAll (Item.read (base memory host host) endian) (items.map Item.kind) a =
      .ok (items,a') ∧ Holds a' rest := by
  refine (base_follows memory host host).items_read endian (fun n t bytes t' hread => ?_) hi h
    (items_read_wire host endian hi rest)
  simp only [flat] at hread
  split at hread
  · cases hread
  · next hle =>
    simp only [Except.ok.injEq, Prod.mk.injEq] at hread
    rw [← hread.1, List.length_take]
    omega

end CoroutineWebserve.ByteArray
