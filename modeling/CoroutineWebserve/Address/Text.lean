import CoroutineWebserve.Address.Model
import CoroutineWebserve.Client.Message

/-!
# The text of an IPv6 address

`insert` prints the eight groups and leaves the first run of zeros out. `Create` reads a text with
`inet_pton`, whose rules for `AF_INET6` are here those of the forms that it documents.
-/
namespace CoroutineWebserve
open CoroutineWebserve.ByteArray (Endian)
open Http (Bytes bytes)
open Client (digit numeral)

/-- `os << std::hex << n`. -/
def hex (n : ℕ) : Bytes := (Nat.toDigits 16 n).map (·.toUInt8)

/-! ### `inet_pton` -/

namespace InetPton

/-- A piece has one to four hexadecimal digits. -/
def piece (w : Bytes) : Option ℕ :=
  if w ≠ [] ∧ w.length ≤ 4 ∧ w.all (digit · < 16) then some (numeral 16 w) else none

/-- A byte of an IPv4 address has one to three decimal digits. -/
def octet (w : Bytes) : Option ℕ :=
  if w ≠ [] ∧ w.length ≤ 3 ∧ w.all (digit · < 10) ∧ numeral 10 w ≤ 255
  then some (numeral 10 w) else none

/-- An IPv4 address makes two groups. -/
def dotted (w : Bytes) : Option (List ℕ) := do
  let octets ← (w.splitOn 46).mapM octet
  match octets with
  | [a,b,c,d] => return [256*a+b,256*c+d]
  | _ => none

/-- Pieces, the last of which may be an IPv4 address. -/
def pieces : List Bytes → Option (List ℕ)
  | [] => some []
  | [w] => if 46 ∈ w then dotted w else (piece w).map ([·])
  | w :: ws => do return (← piece w) :: (← pieces ws)

/-- What is before the first `::`, and what is behind it. -/
def splitDouble : Bytes → Option (Bytes × Bytes)
  | [] => none
  | b :: w =>
    if b = 58 ∧ w.head? = some 58 then some ([],w.tail)
    else (splitDouble w).map fun (left,right) => (b :: left,right)

/-- A side of a `::`, which may be empty. -/
def side (parse : List Bytes → Option (List ℕ)) (w : Bytes) : Option (List ℕ) :=
  if w = [] then some [] else parse (w.splitOn 58)

/-- The groups that a text shows; the `::` stands for those that are missing, at least one. -/
def groups (w : Bytes) : Option (List ℕ) :=
  match splitDouble w with
  | none => pieces (w.splitOn 58)
  | some (left,right) => do
    let before ← side (·.mapM piece) left
    let behind ← side pieces right
    if before.length+behind.length < 8 then
      return before++List.replicate (8-before.length-behind.length) 0++behind
    else none

/-- The groups in network order. -/
def address (groups : List ℕ) : Vector UInt8 16 :=
  Vector.ofFn fun i =>
    UInt8.ofNat (if i.val%2 = 0 then groups.getD (i.val/2) 0/256 else groups.getD (i.val/2) 0)

end InetPton

/-- `inet_pton(AF_INET6, address, &addr)`. -/
def inetPton6 (w : Bytes) : Option (Vector UInt8 16) := do
  let groups ← InetPton.groups w
  if groups.length = 8 then return InetPton.address groups else none

/-! ### `insert` and `Create` -/

namespace IPv6Address
variable (host : Endian)

/-- `((uint16_t*)s6_addr)[i]`. -/
def word (s6_addr : Vector UInt8 16) (i : ℕ) : BitVec 16 :=
  let object := (s6_addr.toList.drop (2*i)).take 2
  match host with
  | .LITTLE_ENDIAN => Bits.ofBytes object
  | .BIG_ENDIAN => Bits.ofBytes object.reverse

/-- A round of the loop of `insert`: the stream, and `used_zeros`. -/
def insertGroup (addr : ℕ → BitVec 16) (s : Bytes × Bool) (i : ℕ) : Bytes × Bool :=
  if addr i = 0 ∧ s.2 = false then s
  else
    let s := if i ≠ 0 ∧ addr (i-1) = 0 ∧ s.2 = false then (s.1++bytes ":",true) else s
    let os := if i ≠ 0 then s.1++bytes ":" else s.1
    (os++hex (byteswapOnLittleEndian host (addr i)).toNat,s.2)

/-- What `insert` appends to a stream. -/
def insert (a : IPv6Address) : Bytes :=
  let addr := word host a.addr.s6_addr
  let (os,used_zeros) := (List.range 8).foldl (insertGroup host addr) (bytes "[",false)
  let os := if used_zeros = false ∧ addr 7 = 0 then os++bytes "::" else os
  os++bytes "]:"++Http.decimal (byteswapOnLittleEndian host a.addr.sin6_port).toNat

/-- `IPv6Address::Create(address, port)`. -/
def Create (address : Bytes) (port : BitVec 16) : Option IPv6Address :=
  (inetPton6 address).map fun sin6_addr => ⟨{ new.addr with
    sin6_port := byteswapOnLittleEndian host port
    s6_addr := sin6_addr }⟩

end IPv6Address

/-! ### Hexadecimal numerals -/

theorem digit_digitChar : ∀ d < 16, digit d.digitChar.toUInt8 = d := by decide

theorem hex_induction {P : ℕ → Prop} (last : ∀ n < 16, P n) (more : ∀ n, 16 ≤ n → P (n/16) → P n)
    (n : ℕ) : P n := by
  induction n using Nat.strong_induction_on with
  | _ n ih =>
    rcases Nat.lt_or_ge n 16 with hlt | hge
    · exact last n hlt
    · exact more n hge (ih (n/16) (by omega))

theorem hex_last {n : ℕ} (h : n < 16) : hex n = [n.digitChar.toUInt8] := by
  rw [hex, Nat.toDigits_of_lt_base h]
  rfl

theorem hex_more {n : ℕ} (h : 16 ≤ n) : hex n = hex (n/16)++[(n%16).digitChar.toUInt8] := by
  rw [hex, Nat.toDigits_of_base_le (by decide) h, List.map_append]
  rfl

theorem numeral_hex (n : ℕ) : numeral 16 (hex n) = n := by
  induction n using hex_induction with
  | last n h =>
    have hdigit := digit_digitChar n h
    simp [hex_last h, numeral, hdigit]
  | more n h ih =>
    have hdigit := digit_digitChar (n%16) (Nat.mod_lt n (by decide))
    have hone : numeral 16 [(n%16).digitChar.toUInt8] = n%16 := by simp [numeral, hdigit]
    rw [hex_more h, Client.numeral_append, ih, hone, List.length_singleton, Nat.pow_one]
    omega

theorem digit_of_mem_hex {n : ℕ} {b : UInt8} (hb : b ∈ hex n) : digit b < 16 := by
  induction n using hex_induction with
  | last n h =>
    rw [hex_last h, List.mem_singleton] at hb
    rw [hb, digit_digitChar n h]
    exact h
  | more n h ih =>
    rw [hex_more h, List.mem_append, List.mem_singleton] at hb
    rcases hb with hb | rfl
    · exact ih hb
    · rw [digit_digitChar _ (Nat.mod_lt n (by decide))]
      exact Nat.mod_lt n (by decide)

theorem hex_ne_nil (n : ℕ) : hex n ≠ [] := by simp [hex, Nat.toDigits_ne_nil]

theorem hex_length_le {n : ℕ} (h : n < 65536) : (hex n).length ≤ 4 := by
  rw [hex, List.length_map, Nat.length_toDigits_le_iff (by decide) (by decide)]
  exact h

/-- No digit is a delimiter. -/
theorem notMem_hex {b : UInt8} (hb : ¬digit b < 16) (n : ℕ) : b ∉ hex n :=
  fun h => hb (digit_of_mem_hex h)

/-! ### What `inet_pton` makes of groups -/

namespace InetPton

/-- The groups with colons between them. -/
def join (gs : List ℕ) : Bytes := [58].intercalate (gs.map hex)

theorem join_cons (g : ℕ) (gs : List ℕ) :
    join (g :: gs) = hex g++gs.flatMap fun n => 58 :: hex n := by
  induction gs generalizing g with
  | nil => simp [join]
  | cons n gs ih =>
    have hstep : join (g :: n :: gs) = hex g++58 :: join (n :: gs) := by
      simp [join, List.intercalate]
    rw [hstep, ih, List.flatMap_cons, List.cons_append]

theorem join_ne_nil (g : ℕ) (gs : List ℕ) : join (g :: gs) ≠ [] := by
  simp [join_cons, hex_ne_nil]

theorem notMem_join {b : UInt8} (hb : ¬digit b < 16) (hcolon : b ≠ 58) (gs : List ℕ) :
    b ∉ join gs := by
  cases gs with
  | nil => simp [join]
  | cons g gs => simp [join_cons, notMem_hex hb, hcolon]

theorem piece_hex {g : ℕ} (h : g < 65536) : piece (hex g) = some g := by
  have hdigits : (hex g).all (digit · < 16) = true :=
    List.all_eq_true.mpr fun b hb => decide_eq_true (digit_of_mem_hex hb)
  rw [piece, if_pos ⟨hex_ne_nil g,hex_length_le h,hdigits⟩, numeral_hex]

theorem splitOn_join {gs : List ℕ} (h : gs ≠ []) : (join gs).splitOn 58 = gs.map hex := by
  refine List.splitOn_intercalate 58 (fun w hw => ?_) (by simpa using h)
  obtain ⟨g,-,rfl⟩ := List.mem_map.mp hw
  exact notMem_hex (by decide) g

theorem mapM_piece {gs : List ℕ} (h : ∀ g ∈ gs, g < 65536) : (gs.map hex).mapM piece = some gs := by
  induction gs with
  | nil => rfl
  | cons g gs ih =>
    rw [List.map_cons, List.mapM_cons, piece_hex (h g List.mem_cons_self),
      ih fun n hn => h n (List.mem_cons_of_mem g hn)]
    rfl

theorem pieces_hex {gs : List ℕ} (h : ∀ g ∈ gs, g < 65536) : pieces (gs.map hex) = some gs := by
  induction gs with
  | nil => rfl
  | cons g gs ih =>
    have hg := piece_hex (h g List.mem_cons_self)
    have hdot : 46 ∉ hex g := notMem_hex (by decide) g
    cases gs with
    | nil => simp [pieces, hdot, hg]
    | cons n gs =>
      have hrest := ih fun n hn => h n (List.mem_cons_of_mem g hn)
      rw [List.map_cons] at hrest
      rw [List.map_cons, List.map_cons, pieces, hg, hrest]
      rfl
      simp

/-- No `::` begins inside a text without colons. -/
theorem splitDouble_append {x : Bytes} (hx : 58 ∉ x) (w : Bytes) :
    splitDouble (x++w) = (splitDouble w).map fun s => (x++s.1,s.2) := by
  induction x with
  | nil => simp
  | cons b x ih =>
    rw [List.mem_cons, not_or] at hx
    rw [List.cons_append, splitDouble, if_neg fun h => hx.1 h.1.symm, ih hx.2, Option.map_map]
    rfl

theorem splitDouble_colon {w : Bytes} (hw : w.head? ≠ some 58) :
    splitDouble (58 :: w) = (splitDouble w).map fun s => (58 :: s.1,s.2) := by
  rw [splitDouble, if_neg fun h => hw h.2]

theorem head?_hex (n : ℕ) (w : Bytes) : (hex n++w).head? ≠ some 58 := by
  obtain ⟨b,bs,hb⟩ := List.exists_cons_of_ne_nil (hex_ne_nil n)
  have hmem : b ∈ hex n := hb ▸ List.mem_cons_self
  rw [hb, List.cons_append, List.head?_cons, ne_eq, Option.some_inj]
  rintro rfl
  exact notMem_hex (by decide) n hmem

/-- Between groups there is no `::`. -/
theorem splitDouble_groups (gs : List ℕ) (w : Bytes) :
    splitDouble ((gs.flatMap fun n => 58 :: hex n)++w) =
      (splitDouble w).map fun s => ((gs.flatMap fun n => 58 :: hex n)++s.1,s.2) := by
  induction gs with
  | nil => simp
  | cons n gs ih =>
    have hcolon : (58 : UInt8) ∉ hex n := notMem_hex (by decide) n
    rw [List.flatMap_cons, List.append_assoc, List.cons_append,
      splitDouble_colon (head?_hex n _), splitDouble_append hcolon, ih, Option.map_map,
      Option.map_map]
    refine congrArg (fun f => (splitDouble w).map f) (funext fun s => ?_)
    simp

theorem splitDouble_join (gs : List ℕ) (w : Bytes) :
    splitDouble (join gs++w) = (splitDouble w).map fun s => (join gs++s.1,s.2) := by
  cases gs with
  | nil => simp [join]
  | cons g gs =>
    have hcolon : (58 : UInt8) ∉ hex g := notMem_hex (by decide) g
    rw [join_cons, List.append_assoc, splitDouble_append hcolon, splitDouble_groups,
      Option.map_map]
    refine congrArg (fun f => (splitDouble w).map f) (funext fun s => ?_)
    simp

/-- A text without zeros left out. -/
theorem groups_join {gs : List ℕ} (hne : gs ≠ []) (h : ∀ g ∈ gs, g < 65536) :
    groups (join gs) = some gs := by
  have hsplit := splitDouble_join gs []
  rw [List.append_nil] at hsplit
  rw [groups, hsplit]
  simp only [splitDouble, Option.map_none]
  rw [splitOn_join hne, pieces_hex h]

theorem side_join {parse : List Bytes → Option (List ℕ)} {gs : List ℕ} (h : ∀ g ∈ gs, g < 65536)
    (hparse : ∀ {gs : List ℕ}, (∀ g ∈ gs, g < 65536) → parse (gs.map hex) = some gs) :
    side parse (join gs) = some gs := by
  cases gs with
  | nil => rfl
  | cons g gs =>
    rw [side, if_neg (join_ne_nil g gs), splitOn_join (List.cons_ne_nil g gs), hparse h]

/-- A text that leaves a run of zeros out. -/
theorem groups_double {before behind : List ℕ} (h : ∀ g ∈ before, g < 65536)
    (h' : ∀ g ∈ behind, g < 65536) (hlength : before.length+behind.length < 8) :
    groups (join before++bytes "::"++join behind) =
      some (before++List.replicate (8-before.length-behind.length) 0++behind) := by
  have hsplit : splitDouble (join before++bytes "::"++join behind) =
      some (join before,join behind) := by
    rw [List.append_assoc, splitDouble_join]
    simp [splitDouble, show bytes "::" = [58,58] from rfl]
  have hbefore := side_join h mapM_piece
  have hbehind := side_join h' pieces_hex
  rw [groups, hsplit]
  simp only [hbefore, hbehind, bind, Option.bind, if_pos hlength]
  rfl

end InetPton

/-! ### The loop of `insert` -/

/-- The first number from `first` on at which `p` fails, up to `last`. -/
theorem exists_first (p : ℕ → Prop) {first last : ℕ} (h : first ≤ last) :
    ∃ n, first ≤ n ∧ (∀ i, first ≤ i → i < n → p i) ∧ (n = last ∨ n < last ∧ ¬p n) := by
  induction last, h using Nat.le_induction with
  | base => exact ⟨first,le_refl _,fun i hi hi' => absurd hi' (Nat.not_lt.mpr hi),.inl rfl⟩
  | succ last h ih =>
    obtain ⟨n,hfirst,hp,rfl | ⟨hlt,hstop⟩⟩ := ih
    · by_cases hn : p n
      · refine ⟨n+1,by omega,fun i hi hi' => ?_,.inl rfl⟩
        rcases Nat.lt_succ_iff_lt_or_eq.mp hi' with hlt | rfl
        · exact hp i hi hlt
        · exact hn
      · exact ⟨n,hfirst,hp,.inr ⟨Nat.lt_succ_self n,hn⟩⟩
    · exact ⟨n,hfirst,hp,.inr ⟨Nat.lt_succ_of_lt hlt,hstop⟩⟩

namespace IPv6Address
open InetPton (join)

section loop
variable (host : Endian) (addr : ℕ → BitVec 16)

/-- The number that is printed for a group. -/
def value (i : ℕ) : ℕ := (byteswapOnLittleEndian host (addr i)).toNat

/-- The group, and the colon before it. -/
def groupText (i : ℕ) : Bytes := (if i ≠ 0 then bytes ":" else [])++hex (value host addr i)

variable {host addr}

theorem insertGroup_skip {i : ℕ} (h : addr i = 0) (os : Bytes) :
    insertGroup host addr (os,false) i = (os,false) := if_pos ⟨h,rfl⟩

theorem insertGroup_print {i : ℕ} {used : Bool}
    (h : used = true ∨ addr i ≠ 0 ∧ (i = 0 ∨ addr (i-1) ≠ 0)) (os : Bytes) :
    insertGroup host addr (os,used) i = (os++groupText host addr i,used) := by
  have hskip : ¬(addr i = 0 ∧ used = false) := by
    rintro ⟨hi,rfl⟩
    exact h.elim nofun fun h => h.1 hi
  have hdouble : ¬(i ≠ 0 ∧ addr (i-1) = 0 ∧ used = false) := by
    rintro ⟨hi,hprev,rfl⟩
    exact h.elim nofun fun h => h.2.elim hi fun h => h hprev
  simp only [insertGroup, if_neg hskip, if_neg hdouble, groupText, value]
  split_ifs <;> simp

/-- The first group behind a run of zeros. -/
theorem insertGroup_double {i : ℕ} (hi : i ≠ 0) (h : addr i ≠ 0) (hprev : addr (i-1) = 0)
    (os : Bytes) : insertGroup host addr (os,false) i =
      (os++bytes ":"++groupText host addr i,true) := by
  simp only [insertGroup, groupText, value, and_true, if_neg h, hprev, ne_eq, hi, not_false_eq_true,
    and_self, if_true, List.append_assoc]

theorem foldl_skip {i n : ℕ} (h : ∀ j, i ≤ j → j < i+n → addr j = 0) (os : Bytes) :
    (List.range' i n).foldl (insertGroup host addr) (os,false) = (os,false) := by
  induction n generalizing i with
  | zero => rfl
  | succ n ih =>
    rw [List.range'_succ, List.foldl_cons, insertGroup_skip (h i (le_refl i) (by omega))]
    exact ih fun j hj hj' => h j (by omega) (by omega)

theorem foldl_print {i n : ℕ} {used : Bool} (h : used = true ∨
    (∀ j, i ≤ j → j < i+n → addr j ≠ 0) ∧ (i = 0 ∨ addr (i-1) ≠ 0)) (os : Bytes) :
    (List.range' i n).foldl (insertGroup host addr) (os,used) =
      (os++(List.range' i n).flatMap (groupText host addr),used) := by
  induction n generalizing i os with
  | zero => simp
  | succ n ih =>
    have hfirst : used = true ∨ addr i ≠ 0 ∧ (i = 0 ∨ addr (i-1) ≠ 0) :=
      h.imp_right fun h => ⟨h.1 i (le_refl i) (by omega),h.2⟩
    have hrest : used = true ∨
        (∀ j, i+1 ≤ j → j < i+1+n → addr j ≠ 0) ∧ (i+1 = 0 ∨ addr (i+1-1) ≠ 0) :=
      h.imp_right fun h => ⟨fun j hj hj' => h.1 j (by omega) (by omega),
        .inr (h.1 i (le_refl i) (by omega))⟩
    rw [List.range'_succ, List.foldl_cons, insertGroup_print hfirst, ih hrest, List.flatMap_cons,
      List.append_assoc]

/-- Behind the first group. -/
theorem flatMap_groupText {i n : ℕ} (hi : i ≠ 0) : (List.range' i n).flatMap (groupText host addr) =
    ((List.range' i n).map (value host addr)).flatMap fun v => 58 :: hex v := by
  rw [List.flatMap_map]
  refine List.flatMap_congr fun j hj => ?_
  have hj0 : j ≠ 0 := by
    have := (List.mem_range'_1.mp hj).1
    omega
  rw [groupText, if_pos hj0]
  rfl

theorem flatMap_first (n : ℕ) : (List.range' 0 n).flatMap (groupText host addr) =
    join ((List.range' 0 n).map (value host addr)) := by
  cases n with
  | zero => rfl
  | succ n =>
    rw [List.range'_succ, List.flatMap_cons, List.map_cons, InetPton.join_cons,
      flatMap_groupText (by decide)]
    rfl

/-- The groups behind a run of zeros. -/
theorem foldl_behind {i n : ℕ} (hi : i ≠ 0) (h : addr i ≠ 0) (hprev : addr (i-1) = 0) (os : Bytes) :
    (List.range' i (n+1)).foldl (insertGroup host addr) (os,false) =
      (os++(bytes "::"++join ((List.range' i (n+1)).map (value host addr))),true) := by
  rw [List.range'_succ, List.foldl_cons, insertGroup_double hi h hprev, foldl_print (.inl rfl),
    flatMap_groupText (Nat.succ_ne_zero i), List.map_cons, InetPton.join_cons, groupText, if_pos hi]
  simp [show bytes ":" = [58] from rfl, show bytes "::" = [58,58] from rfl]

theorem value_lt (i : ℕ) : value host addr i < 65536 := BitVec.isLt _

theorem value_zero {i : ℕ} (h : addr i = 0) : value host addr i = 0 := by
  rw [value, h]
  cases host <;> decide

theorem values_lt (i n : ℕ) : ∀ g ∈ (List.range' i n).map (value host addr), g < 65536 := by
  intro g hg
  obtain ⟨j,-,rfl⟩ := List.mem_map.mp hg
  exact value_lt j

theorem range_split {n k : ℕ} (hn : n ≤ k) (hk : k ≤ 8) :
    List.range' 0 8 = List.range' 0 n++List.range' n (k-n)++List.range' k (8-k) := by
  have hleft := List.range'_append_1 (s := 0) (m := n) (n := k-n)
  have hright := List.range'_append_1 (s := 0) (m := k) (n := 8-k)
  rw [Nat.zero_add, Nat.add_sub_cancel' hn] at hleft
  rw [Nat.zero_add, Nat.add_sub_cancel' hk] at hright
  rw [hleft, hright]

/-- A text without the zeros from `n` up to `k` shows all groups. -/
theorem groups_left_out {n k : ℕ} (hn : n < k) (hk : k ≤ 8)
    (hzero : ∀ i, n ≤ i → i < k → addr i = 0) :
    InetPton.groups (join ((List.range' 0 n).map (value host addr))++bytes "::"++
      join ((List.range' k (8-k)).map (value host addr))) =
      some ((List.range' 0 8).map (value host addr)) := by
  rw [InetPton.groups_double (values_lt 0 n) (values_lt k (8-k)) (by simp; omega)]
  have hzeros : (List.range' n (k-n)).map (value host addr) = List.replicate (k-n) 0 := by
    rw [List.map_eq_replicate_iff.mpr fun i hi => ?_, List.length_range']
    rw [List.mem_range'_1] at hi
    exact value_zero (hzero i hi.1 (by omega))
  have hmissing : 8-((List.range' 0 n).map (value host addr)).length-
      ((List.range' k (8-k)).map (value host addr)).length = k-n := by
    simp only [List.length_map, List.length_range']
    omega
  rw [hmissing, range_split hn.le hk, List.map_append, List.map_append, hzeros]

/-- All groups are printed, or the first run of zeros is left out. -/
theorem insert_loop (host : Endian) (addr : ℕ → BitVec 16) :
    ∃ text os used_zeros, (List.range 8).foldl (insertGroup host addr) (bytes "[",false) =
        (os,used_zeros) ∧
      (if used_zeros = false ∧ addr 7 = 0 then os++bytes "::" else os) = bytes "["++text ∧
      InetPton.groups text = some ((List.range' 0 8).map (value host addr)) ∧ 93 ∉ text := by
  obtain ⟨n,-,hbefore,hstop⟩ := exists_first (fun i => addr i ≠ 0) (Nat.zero_le 8)
  have hbracket : ∀ gs, (93 : UInt8) ∉ join gs :=
    InetPton.notMem_join (by decide) (by decide)
  have hfirst : ∀ os, (List.range' 0 n).foldl (insertGroup host addr) (os,false) =
      (os++join ((List.range' 0 n).map (value host addr)),false) := by
    intro os
    rw [foldl_print (.inr ⟨fun j _ hj => hbefore j (Nat.zero_le j) (by omega),.inl rfl⟩),
      flatMap_first]
  rw [List.range_eq_range']
  rcases hstop with rfl | ⟨hn,hzero⟩
  · refine ⟨_,_,_,hfirst _,?_,InetPton.groups_join (by simp) (values_lt 0 8),hbracket _⟩
    rw [if_neg fun h => hbefore 7 (by decide) (by decide) h.2]
  · obtain ⟨k,hnk,hzeros,hend⟩ := exists_first (fun i => addr i = 0) (Nat.le_of_lt hn)
    have hlt : n < k := by
      rcases hend with rfl | ⟨-,hk⟩
      · exact hn
      · refine lt_of_le_of_ne hnk ?_
        rintro rfl
        exact hk (not_not.mp hzero)
    have hk : k ≤ 8 := hend.elim (fun h => h.le) fun h => h.1.le
    have hskip : ∀ os, (List.range' n (k-n)).foldl (insertGroup host addr) (os,false) =
        (os,false) := fun os => foldl_skip (fun j hj hj' => hzeros j hj (by omega)) os
    rw [range_split hlt.le hk, List.foldl_append, List.foldl_append, hfirst, hskip,
      ← range_split hlt.le hk]
    rcases hend with rfl | ⟨hk8,hprint⟩
    · have hlast : addr 7 = 0 := hzeros 7 (by omega) (by decide)
      refine ⟨_,_,_,rfl,?_,groups_left_out hlt hk hzeros,?_⟩
      · rw [if_pos ⟨rfl,hlast⟩]
        simp [join]
      · simp [hbracket, show bytes "::" = [58,58] from rfl]
    · obtain ⟨m,hm⟩ : ∃ m, 8-k = m+1 := ⟨8-k-1,by omega⟩
      have hprev : addr (k-1) = 0 := hzeros (k-1) (by omega) (by omega)
      refine ⟨_,_,_,hm ▸ foldl_behind (by omega) hprint hprev _,?_,groups_left_out hlt hk hzeros,?_⟩
      · rw [if_neg (by simp), hm, List.append_assoc, List.append_assoc]
      · simp [hbracket, show bytes "::" = [58,58] from rfl]

end loop

/-! ### The text is read again -/

/-- A group is two bytes in network order. -/
theorem value_word (host : Endian) (s6_addr : Vector UInt8 16) {i : ℕ} (hi : 2*i+1 < 16) :
    value host (word host s6_addr) i = 256*s6_addr[2*i].toNat+s6_addr[2*i+1].toNat := by
  have hobject : (s6_addr.toList.drop (2*i)).take 2 = [s6_addr[2*i],s6_addr[2*i+1]] := by
    rw [List.drop_eq_getElem_cons (by simp; omega), List.drop_eq_getElem_cons (by simp; omega)]
    simp
  have hswap : byteswapOnLittleEndian host (word host s6_addr i) =
      Bits.ofBytes [s6_addr[2*i+1],s6_addr[2*i]] := by
    cases host with
    | LITTLE_ENDIAN =>
      simp only [word, hobject, byteswapOnLittleEndian, ByteArray.byteswap, Bits.reverse]
      rw [Bits.toBytes_ofBytes (by decide) (by simp)]
      rfl
    | BIG_ENDIAN =>
      simp only [word, hobject, byteswapOnLittleEndian]
      rfl
  have hhigh := s6_addr[2*i].toNat_lt
  have hlow := s6_addr[2*i+1].toNat_lt
  rw [value, hswap, Bits.ofBytes, BitVec.toNat_ofNat]
  simp only [Bits.ofLittleEndian]
  omega

theorem address_values (host : Endian) (s6_addr : Vector UInt8 16) :
    InetPton.address ((List.range' 0 8).map (value host (word host s6_addr))) = s6_addr := by
  apply Vector.ext
  intro i hi
  have hvalue := value_word host s6_addr (i := i/2) (by omega)
  have hgroup : ((List.range' 0 8).map (value host (word host s6_addr))).getD (i/2) 0 =
      256*s6_addr[2*(i/2)].toNat+s6_addr[2*(i/2)+1].toNat := by
    rw [List.getD_eq_getElem?_getD, List.getElem?_map, List.getElem?_range' (by omega)]
    simp [hvalue]
  have hlow := s6_addr[2*(i/2)+1].toNat_lt
  simp only [InetPton.address, Vector.getElem_ofFn, hgroup]
  apply UInt8.toNat_inj.mp
  rw [UInt8.toNat_ofNat']
  rcases Nat.mod_two_eq_zero_or_one i with heven | hodd
  · have hindex : 2*(i/2) = i := by omega
    have hhigh := s6_addr[i].toNat_lt
    simp only [hindex] at hlow
    simp only [heven, if_true, hindex]
    omega
  · have hindex : 2*(i/2)+1 = i := by omega
    simp only [hindex] at hlow
    simp only [hodd, Nat.one_ne_zero, if_false, hindex]
    omega

/-- The text between the brackets denotes the address. -/
theorem create_insert (host : Endian) (address : Vector UInt8 16) (port : BitVec 16) :
    ∃ text, 93 ∉ text ∧
      (ofBytes host address port).insert host =
        bytes "["++text++bytes "]:"++Http.decimal port.toNat ∧
      inetPton6 text = some address ∧
      Create host text port = some (ofBytes host address port) := by
  obtain ⟨text,os,used_zeros,hloop,hinsert,hgroups,hbracket⟩ :=
    insert_loop host (word host address)
  have hparsed : inetPton6 text = some address := by
    simp [inetPton6, hgroups, address_values]
  refine ⟨text,hbracket,?_,hparsed,?_⟩
  · have hport : byteswapOnLittleEndian host (byteswapOnLittleEndian host port) = port :=
      byteswapOnLittleEndian_twice (by decide) host port
    simp only [insert, ofBytes, hloop, hinsert, hport]
  · rw [Create, hparsed]
    rfl

end IPv6Address
end CoroutineWebserve
