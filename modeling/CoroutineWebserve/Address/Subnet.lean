import CoroutineWebserve.Address.Model

/-!
# Subnets

`broadcastAddress` sets the bits that `CreateMask` has, and `subnetMask` has the others.
`networdAddress` should keep the bits of the subnet mask, but keeps those of `CreateMask`.
-/
namespace CoroutineWebserve
open CoroutineWebserve.ByteArray (Endian)

/-! ### The mask -/

/-- All bits but the first `n`. -/
def hostMask (w n : ℕ) : BitVec w := BitVec.ofNat w (2^(w-n)-1)

theorem getMsbD_hostMask {w n i : ℕ} (hi : i < w) : (hostMask w n).getMsbD i = decide (n ≤ i) := by
  have hlsb : w-1-i < w := by omega
  have hiff : w-1-i < w-n ↔ n ≤ i := by omega
  rw [BitVec.getMsbD_eq_getLsbD, hostMask, BitVec.getLsbD_ofNat, Nat.testBit_two_pow_sub_one]
  simp only [hi, hlsb, hiff, decide_true, Bool.true_and]

theorem getMsbD_not_hostMask {w n i : ℕ} (hi : i < w) :
    (~~~hostMask w n).getMsbD i = decide (i < n) := by
  rw [BitVec.getMsbD_not, getMsbD_hostMask hi, ← decide_not]
  simp [hi]

/-- Only zero is masked alike by a mask and its complement. -/
theorem and_eq_and_not_iff {w : ℕ} (x y : BitVec w) : x &&& y = x &&& ~~~y ↔ x = 0 := by
  constructor
  · intro h
    apply BitVec.eq_of_getLsbD_eq
    intro i hi
    have hbit := congrArg (·.getLsbD i) h
    simp only [BitVec.getLsbD_and, BitVec.getLsbD_not, hi, decide_true, Bool.true_and] at hbit
    cases hx : x.getLsbD i <;> simp_all
  · rintro rfl
    simp

/-- There are between 1 and 30 bits left, or none. -/
theorem createMask_eq {w : ℕ} {bits : UInt32} (hle : bits.toNat ≤ w) (hlt : w < bits.toNat+31) :
    CreateMask w bits = .ok (hostMask w bits.toNat) := by
  have hbits := bits.toNat_lt
  have hamount : (2^64+w-bits.toNat)%2^64 = w-bits.toNat := by omega
  have hpow : 2^(w-bits.toNat) < 2^31 := Nat.pow_lt_pow_right (by decide) (by omega)
  simp only [CreateMask, hamount, if_neg (show ¬w-bits.toNat ≥ 32 by omega), ge_iff_le,
    if_neg (Nat.not_le.mpr hpow)]
  rfl

/-! ### IPv4 -/

namespace IPv4Address

/-- The bits of the address. -/
def address (host : Endian) (a : IPv4Address) : BitVec 32 :=
  byteswapOnLittleEndian host a.addr.s_addr

/-- The port and the family are those of `a`. -/
def Keeps (host : Endian) (a b : IPv4Address) : Prop :=
  b.getPort host = a.getPort host ∧ b.addr.sin_family = a.addr.sin_family

/-- `subnetMask` has the leading ones, and the other two have the bits of the first and the last
address of the subnet. -/
def Coherent (host : Endian) (a : IPv4Address) (prefix_len : UInt32) : Prop :=
  ∃ mask network broadcast, subnetMask host prefix_len = .ok mask ∧
    a.networdAddress host prefix_len = .ok (some network) ∧
    a.broadcastAddress host prefix_len = .ok (some broadcast) ∧
    (∀ i < 32, (mask.address host).getMsbD i = decide (i < prefix_len.toNat)) ∧
    network.address host = a.address host &&& mask.address host ∧
    broadcast.address host = a.address host ||| ~~~mask.address host ∧
    Keeps host a network ∧ Keeps host a broadcast

section made
variable (host : Endian) (a : IPv4Address) {prefix_len : UInt32} {bits : BitVec 32}

theorem address_subnetMask (hmask : CreateMask 32 prefix_len = .ok bits) :
    ∃ mask, subnetMask host prefix_len = .ok mask ∧ mask.address host = ~~~bits := by
  refine ⟨_,by rw [subnetMask, hmask]; rfl,?_⟩
  rw [address, byteswapOnLittleEndian_not (by decide), byteswapOnLittleEndian_twice (by decide)]

theorem address_networdAddress (hle : prefix_len ≤ 32)
    (hmask : CreateMask 32 prefix_len = .ok bits) :
    ∃ network, a.networdAddress host prefix_len = .ok (some network) ∧
      network.address host = a.address host &&& bits ∧ Keeps host a network := by
  refine ⟨_,by rw [networdAddress, if_neg (UInt32.not_lt.mpr hle), hmask]; rfl,?_,?_⟩
  · rw [address, byteswapOnLittleEndian_and (by decide), byteswapOnLittleEndian_twice (by decide)]
    rfl
  · exact ⟨rfl,rfl⟩

theorem address_broadcastAddress (hle : prefix_len ≤ 32)
    (hmask : CreateMask 32 prefix_len = .ok bits) :
    ∃ broadcast, a.broadcastAddress host prefix_len = .ok (some broadcast) ∧
      broadcast.address host = a.address host ||| bits ∧ Keeps host a broadcast := by
  refine ⟨_,by rw [broadcastAddress, if_neg (UInt32.not_lt.mpr hle), hmask]; rfl,?_,?_⟩
  · rw [address, byteswapOnLittleEndian_or (by decide), byteswapOnLittleEndian_twice (by decide)]
    rfl
  · exact ⟨rfl,rfl⟩

/-- No mask can be made of fewer than two bits. -/
theorem createMask_error (h : ¬2 ≤ prefix_len) : ∀ bits, CreateMask 32 prefix_len ≠ .ok bits := by
  have hcases : prefix_len = 0 ∨ prefix_len = 1 := by
    rw [UInt32.le_iff_toNat_le] at h
    rw [← UInt32.toNat_inj, ← UInt32.toNat_inj]
    have htwo : (2 : UInt32).toNat = 2 := rfl
    have hone : (1 : UInt32).toNat = 1 := rfl
    have hzero : (0 : UInt32).toNat = 0 := rfl
    omega
  intro bits
  rcases hcases with rfl | rfl
  · have hshift : CreateMask 32 0 = .error .shift := by decide
    simp [hshift]
  · have hoverflow : CreateMask 32 1 = .error .overflow := by decide
    simp [hoverflow]

end made

/-- The mask of the network has the wrong polarity, and none is made for 0 and 1. -/
theorem coherent_iff (host : Endian) (a : IPv4Address) {prefix_len : UInt32}
    (hle : prefix_len ≤ 32) :
    Coherent host a prefix_len ↔ 2 ≤ prefix_len ∧ a.address host = 0 := by
  by_cases htwo : 2 ≤ prefix_len
  · have hmask : CreateMask 32 prefix_len = .ok (hostMask 32 prefix_len.toNat) := by
      rw [UInt32.le_iff_toNat_le] at hle htwo
      have hlow : 2 ≤ prefix_len.toNat := htwo
      exact createMask_eq hle (by omega)
    obtain ⟨mask,hsubnet,hbits⟩ := address_subnetMask host hmask
    obtain ⟨network,hnetwork,hand,hkeeps⟩ := address_networdAddress host a hle hmask
    obtain ⟨broadcast,hbroadcast,hor,hkeeps'⟩ := address_broadcastAddress host a hle hmask
    rw [and_iff_right htwo, ← and_eq_and_not_iff _ (hostMask 32 prefix_len.toNat), ← hand, ← hbits]
    constructor
    · rintro ⟨_,_,_,hmask',hnetwork',-,-,heq,-⟩
      cases hsubnet.symm.trans hmask'
      cases hnetwork.symm.trans hnetwork'
      exact heq
    · intro heq
      refine ⟨mask,network,broadcast,hsubnet,hnetwork,hbroadcast,fun i hi => ?_,heq,?_,hkeeps,hkeeps'⟩
      · rw [hbits, getMsbD_not_hostMask hi]
      · rw [hor, hbits, BitVec.not_not]
  · rw [iff_false_right fun h => htwo h.1]
    rintro ⟨mask,-,-,hsubnet,-⟩
    cases hmask : CreateMask 32 prefix_len with
    | ok bits => exact createMask_error htwo bits hmask
    | error e =>
      rw [subnetMask, hmask] at hsubnet
      cases hsubnet

/-- The subnet of `0.0.0.0` with a prefix of 24 bits. -/
theorem coherent_zero : Coherent .LITTLE_ENDIAN (ofAddress .LITTLE_ENDIAN 0 80) 24 :=
  (coherent_iff .LITTLE_ENDIAN (ofAddress .LITTLE_ENDIAN 0 80) (by decide)).mpr
    ⟨by decide,by decide⟩

/-- `192.168.1.7/24` is in the network `0.0.0.7`. -/
theorem not_coherent : ¬∀ (host : Endian) (a : IPv4Address) (prefix_len : UInt32),
    prefix_len ≤ 32 → Coherent host a prefix_len := by
  intro h
  obtain ⟨mask,network,-,hmask,hnetwork,-,-,hand,-⟩ :=
    h .LITTLE_ENDIAN (ofAddress .LITTLE_ENDIAN 0xC0A80107 80) 24 (by decide)
  have hmask' : subnetMask .LITTLE_ENDIAN 24 =
      .ok (ofAddress .LITTLE_ENDIAN 0xFFFFFF00 0) := by decide
  have hnetwork' : (ofAddress .LITTLE_ENDIAN 0xC0A80107 80).networdAddress .LITTLE_ENDIAN 24 =
      .ok (some (ofAddress .LITTLE_ENDIAN 0x00000007 80)) := by decide
  cases hmask'.symm.trans hmask
  cases hnetwork'.symm.trans hnetwork
  exact absurd hand (by decide)

end IPv4Address

/-! ### IPv6 -/

namespace IPv6Address

/-- The port and the scope are those of `a`. -/
def Keeps (host : Endian) (a b : IPv6Address) : Prop :=
  b.getPort host = a.getPort host ∧ b.addr.sin6_scope_id = a.addr.sin6_scope_id

/-- `subnetMask` has the leading ones, and the other two have the bits of the first and the last
address of the subnet, byte by byte. -/
def Coherent (host : Endian) (a : IPv6Address) (prefix_len : UInt32) : Prop :=
  ∃ mask network broadcast, subnetMask prefix_len = .ok mask ∧
    a.networdAddress prefix_len = .ok network ∧ a.broadcastAddress prefix_len = .ok broadcast ∧
    (∀ (i : ℕ) (_ : i/8 < 16),
      (mask.addr.s6_addr[i/8]).toBitVec.getMsbD (i%8) = decide (i < prefix_len.toNat)) ∧
    (∀ (i : ℕ) (_ : i < 16),
      network.addr.s6_addr[i] = a.addr.s6_addr[i] &&& mask.addr.s6_addr[i] ∧
      broadcast.addr.s6_addr[i] = a.addr.s6_addr[i] ||| ~~~mask.addr.s6_addr[i]) ∧
    Keeps host a network ∧ Keeps host a broadcast

/-- The loops set the bytes from `first` up to `last`. -/
theorem fill_ok {last : ℕ} (hlast : last ≤ 16) (s6_addr : Vector UInt8 16) (first : ℕ) (v : UInt8) :
    ∃ filled, fill s6_addr first last v = .ok filled ∧ ∀ (i : ℕ) (_ : i < 16),
      filled[i] = if first ≤ i ∧ i < last then v else s6_addr[i] := by
  rw [fill]
  generalize hn : last-first = n
  induction n generalizing s6_addr first with
  | zero =>
    refine ⟨s6_addr,rfl,fun i hi => ?_⟩
    rw [if_neg (by omega)]
  | succ n ih =>
    have hfirst : first < 16 := by omega
    obtain ⟨filled,hfilled,hbytes⟩ := ih (s6_addr.set first v) (first+1) (by omega)
    refine ⟨filled,?_,fun i hi => ?_⟩
    · rw [List.range'_succ, List.foldlM_cons, update, dif_pos hfirst]
      exact hfilled
    · rw [hbytes i hi, Vector.getElem_set]
      split_ifs <;> first | rfl | omega

/-- One byte is changed and those behind it are set. -/
theorem update_fill (s6_addr : Vector UInt8 16) {k : ℕ} (hk : k < 16) (f : UInt8 → UInt8)
    (v : UInt8) : ∃ updated filled, update s6_addr k f = .ok updated ∧
      fill updated (k+1) 16 v = .ok filled ∧ ∀ (i : ℕ) (_ : i < 16),
        filled[i] = if i < k then s6_addr[i] else if i = k then f s6_addr[i] else v := by
  obtain ⟨filled,hfilled,hbytes⟩ := fill_ok (le_refl 16) (s6_addr.set k (f s6_addr[k])) (k+1) v
  refine ⟨_,filled,dif_pos hk,hfilled,fun i hi => ?_⟩
  rw [hbytes i hi, Vector.getElem_set]
  split_ifs <;> first | rfl | omega | (subst_vars; rfl)

/-- The bits that `CreateMask` has in the byte of the boundary. -/
def boundary (prefix_len : UInt32) : UInt8 := ⟨hostMask 8 (prefix_len.toNat%8)⟩

theorem createMask_byte (prefix_len : UInt32) :
    CreateMask 8 (prefix_len%8) = .ok (boundary prefix_len).toBitVec := by
  have hmod : (prefix_len%8).toNat = prefix_len.toNat%8 := UInt32.toNat_mod ..
  rw [createMask_eq (by omega) (by omega), hmod]
  rfl

theorem and_eq_and_not_byte (x y : UInt8) : x &&& y = x &&& ~~~y ↔ x = 0 := by
  rw [← UInt8.toBitVec_inj, ← UInt8.toBitVec_inj]
  simpa using and_eq_and_not_iff x.toBitVec y.toBitVec

section bounded
variable (host : Endian) (a : IPv6Address) {prefix_len : UInt32} (hlt : prefix_len.toNat/8 < 16)
include hlt

theorem bytes_subnetMask : ∃ mask, subnetMask prefix_len = .ok mask ∧
    ∀ (i : ℕ) (_ : i < 16), mask.addr.s6_addr[i] = if i < prefix_len.toNat/8 then 0xff
      else if i = prefix_len.toNat/8 then ~~~boundary prefix_len else 0 := by
  obtain ⟨filled,hfilled,hbytes⟩ := fill_ok (Nat.le_of_lt hlt)
    (new.addr.s6_addr.set (prefix_len.toNat/8) (~~~boundary prefix_len)) 0 0xff
  refine ⟨⟨{ new.addr with s6_addr := filled }⟩,?_,fun i hi => ?_⟩
  · simp only [subnetMask, createMask_byte, bind, Except.bind, update, dif_pos hlt]
    rw [show (⟨(boundary prefix_len).toBitVec⟩ : UInt8) = boundary prefix_len from rfl, hfilled]
    rfl
  · simp only [hbytes i hi, Vector.getElem_set, Nat.zero_le, true_and, new, Vector.getElem_replicate,
      eq_comm (a := i)]

theorem bytes_networdAddress : ∃ network, a.networdAddress prefix_len = .ok network ∧
    (∀ (i : ℕ) (_ : i < 16), network.addr.s6_addr[i] = if i < prefix_len.toNat/8
      then a.addr.s6_addr[i] else if i = prefix_len.toNat/8
      then a.addr.s6_addr[i] &&& boundary prefix_len else 0x00) ∧ Keeps host a network := by
  obtain ⟨updated,filled,hupdated,hfilled,hbytes⟩ :=
    update_fill a.addr.s6_addr hlt (· &&& boundary prefix_len) 0x00
  refine ⟨⟨{ a.addr with s6_addr := filled }⟩,?_,hbytes,rfl,rfl⟩
  rw [networdAddress, createMask_byte]
  simp only [bind, Except.bind]
  rw [hupdated]
  simp only [hfilled]
  rfl

theorem bytes_broadcastAddress : ∃ broadcast, a.broadcastAddress prefix_len = .ok broadcast ∧
    (∀ (i : ℕ) (_ : i < 16), broadcast.addr.s6_addr[i] = if i < prefix_len.toNat/8
      then a.addr.s6_addr[i] else if i = prefix_len.toNat/8
      then a.addr.s6_addr[i] ||| boundary prefix_len else 0xff) ∧ Keeps host a broadcast := by
  obtain ⟨updated,filled,hupdated,hfilled,hbytes⟩ :=
    update_fill a.addr.s6_addr hlt (· ||| boundary prefix_len) 0xff
  refine ⟨⟨{ a.addr with s6_addr := filled }⟩,?_,hbytes,rfl,rfl⟩
  rw [broadcastAddress, createMask_byte]
  simp only [bind, Except.bind]
  rw [hupdated]
  simp only [hfilled]
  rfl

end bounded

/-- From 128 on the byte of the boundary does not exist. -/
theorem subnetMask_index {prefix_len : UInt32} (h : ¬prefix_len.toNat/8 < 16) :
    subnetMask prefix_len = .error .index := by
  simp only [subnetMask, createMask_byte, bind, Except.bind, update, dif_neg h]

/-- The leading ones, over the bytes before the boundary, at it and behind it. -/
theorem leading_bit (prefix_len : UInt32) (i : ℕ) :
    (if i/8 < prefix_len.toNat/8 then 0xff else if i/8 = prefix_len.toNat/8
      then ~~~boundary prefix_len else (0 : UInt8)).toBitVec.getMsbD (i%8) =
      decide (i < prefix_len.toNat) := by
  have hmod : i%8 < 8 := Nat.mod_lt i (by decide)
  split_ifs with hbefore hat
  · have hones : ∀ n < 8, (0xff : UInt8).toBitVec.getMsbD n = true := by decide
    rw [hones _ hmod, eq_comm, decide_eq_true_iff]
    omega
  · have hiff : i%8 < prefix_len.toNat%8 ↔ i < prefix_len.toNat := by omega
    rw [UInt8.toBitVec_not, boundary, getMsbD_not_hostMask hmod, decide_eq_decide.mpr hiff]
  · have hzeros : ∀ n < 8, (0 : UInt8).toBitVec.getMsbD n = false := by decide
    rw [hzeros _ hmod, eq_comm, decide_eq_false_iff_not]
    omega

/-- The network keeps the wrong bits of the byte of the boundary, and from 128 on there is no such
byte. -/
theorem coherent_iff_byte (host : Endian) (a : IPv6Address) (prefix_len : UInt32) :
    Coherent host a prefix_len ↔ a.addr.s6_addr[prefix_len.toNat/8]? = some 0 := by
  by_cases hlt : prefix_len.toNat/8 < 16
  · obtain ⟨mask,hsubnet,hmask⟩ := bytes_subnetMask hlt
    obtain ⟨network,hnetwork,hand,hkeeps⟩ := bytes_networdAddress host a hlt
    obtain ⟨broadcast,hbroadcast,hor,hkeeps'⟩ := bytes_broadcastAddress host a hlt
    rw [Vector.getElem?_eq_getElem hlt, Option.some_inj,
      ← and_eq_and_not_byte _ (boundary prefix_len)]
    constructor
    · rintro ⟨_,_,_,hsubnet',hnetwork',-,-,hbytes,-⟩
      cases hsubnet.symm.trans hsubnet'
      cases hnetwork.symm.trans hnetwork'
      have heq := (hbytes _ hlt).1
      simpa [hand, hmask] using heq
    · intro heq
      refine ⟨mask,network,broadcast,hsubnet,hnetwork,hbroadcast,fun i hi => ?_,fun i hi => ?_,
        hkeeps,hkeeps'⟩
      · rw [hmask _ hi]
        exact leading_bit prefix_len i
      · rw [hand i hi, hor i hi, hmask i hi]
        split_ifs with hbefore hat
        · exact ⟨(UInt8.and_neg_one).symm,(UInt8.or_zero).symm⟩
        · subst hat
          exact ⟨heq,by rw [UInt8.not_not]⟩
        · exact ⟨UInt8.and_zero.symm,UInt8.or_neg_one.symm⟩
  · rw [Vector.getElem?_eq_none (Nat.not_lt.mp hlt)]
    refine iff_of_false ?_ nofun
    rintro ⟨mask,-,-,hsubnet,-⟩
    cases (subnetMask_index hlt).symm.trans hsubnet

/-- A prefix of 128 bits has no mask. -/
theorem not_coherent_byte : ¬∀ (host : Endian) (a : IPv6Address) (prefix_len : UInt32),
    prefix_len ≤ 128 → Coherent host a prefix_len := by
  intro h
  obtain ⟨mask,-,-,hmask,-⟩ := h .LITTLE_ENDIAN new 128 (by decide)
  have hindex : subnetMask 128 = .error .index := by decide
  cases hindex.symm.trans hmask

end IPv6Address
end CoroutineWebserve
