import CoroutineWebserve.Address.Model
import CoroutineWebserve.Http.Message
import Mathlib.Data.List.TakeWhile

/-!
# `Address::Lookup`

The string is split into a node and a service, which `getaddrinfo` resolves. Two scanners look at
it: one for an IPv6 address in brackets, and one for a colon when that has found no node.
-/
namespace CoroutineWebserve
open CoroutineWebserve.ByteArray (Endian)
open Http (Bytes bytes cStr)

/-- A `sockaddr`, as its family lets one read it. -/
inductive Sockaddr
  | inet (addr : SockaddrIn)
  | inet6 (addr : SockaddrIn6)
  | other (sa_family : BitVec 16)
deriving Repr, DecidableEq

inductive IPAddress
  | ipv4 (a : IPv4Address)
  | ipv6 (a : IPv6Address)
deriving Repr, DecidableEq

namespace IPAddress

def getPort (host : Endian) : IPAddress → BitVec 32
  | ipv4 a => a.getPort host
  | ipv6 a => a.getPort host

def setPort (host : Endian) (v : BitVec 16) : IPAddress → IPAddress
  | ipv4 a => ipv4 (a.setPort host v)
  | ipv6 a => ipv6 (a.setPort host v)

/-- The port that has been set is got. -/
theorem getPort_setPort (host : Endian) (v : BitVec 16) (a : IPAddress) :
    (a.setPort host v).getPort host = v.setWidth 32 := by
  cases a with
  | ipv4 a =>
    exact congrArg (·.setWidth 32) (byteswapOnLittleEndian_twice (by decide) host v)
  | ipv6 a =>
    exact congrArg (·.setWidth 32) (byteswapOnLittleEndian_twice (by decide) host v)

end IPAddress

inductive Address
  | ip (a : IPAddress)
  | unknown (sa_family : BitVec 16)
deriving Repr, DecidableEq

/-- What `Lookup` asks for; the other fields of its `addrinfo` are zero. -/
structure Hints where
  ai_family : Int32
  ai_socktype : Int32
  ai_protocol : Int32
deriving Repr, DecidableEq

namespace Address

/-- `Create(addr, addrlen)`. -/
def Create : Sockaddr → Address
  | .inet addr => ip (.ipv4 ⟨addr⟩)
  | .inet6 addr => ip (.ipv6 ⟨addr⟩)
  | .other sa_family => unknown sa_family

/-- `std::dynamic_pointer_cast<IPAddress>(a)`. -/
def toIPAddress : Address → Option IPAddress
  | ip a => some a
  | unknown _ => none

/-- The scanner for brackets: the node, and the offset of the service. A string ends with a NUL, so
that there is a byte behind the bracket. -/
def scanBrackets (host : Bytes) : Bytes × Option ℕ :=
  if host.head? = some 91 then
    match (host.drop 1).findIdx? (· = 93) with
    | some n => ((host.drop 1).take n,if host[n+2]? = some 58 then some (n+3) else none)
    | none => ([],none)
  else ([],none)

/-- The scanner for a colon. -/
def scanColon (host : Bytes) : Bytes × Option ℕ :=
  match host.findIdx? (· = 58) with
  | some service =>
    if 58 ∈ host.drop (service+1) then ([],some service)
    else (host.take service,some (service+1))
  | none => ([],none)

/-- The node and the service that `Lookup` passes to `getaddrinfo`. -/
def lookupArgs (host : Bytes) : Bytes × Option Bytes :=
  let (node,service) := scanBrackets host
  let (node,service) := if node = [] then scanColon host else (node,service)
  let node := if node = [] then host else node
  (cStr node,service.map fun service => cStr (host.drop service))

section lookup
variable (getaddrinfo : Bytes → Option Bytes → Hints → Option (List Sockaddr))

/-- `Lookup(result, host, family, type, protocol)`: the addresses, if there are any. -/
def Lookup (host : Bytes) (hints : Hints) : Option (List Address) := do
  let (node,service) := lookupArgs host
  let results ← getaddrinfo node service hints
  if results = [] then none else return results.map Create

/-- The default arguments. -/
def defaultHints : Hints := ⟨AF_INET.toNat.toInt32,0,0⟩

def LookupAny (host : Bytes) (hints : Hints) : Option Address := do
  (← Lookup getaddrinfo host hints).head?

def LookupAnyIPAddress (host : Bytes) (hints : Hints) : Option IPAddress := do
  (← Lookup getaddrinfo host hints).findSome? toIPAddress

end lookup

/-! ### Which strings are split as they should be -/

/-- `[n]:s` is `n` and `s`, `[n]` is `n`. A string that begins otherwise is split at its colon, and
is a node if it has none or several. -/
structure Splits (host : Bytes) : Prop where
  brackets_service : ∀ n s, n ≠ [] → 93 ∉ n → host = 91 :: n++93 :: 58 :: s →
    lookupArgs host = (n,some s)
  brackets : ∀ n, n ≠ [] → 93 ∉ n → host = 91 :: n++[93] → lookupArgs host = (n,none)
  colon : ∀ n s, n ≠ [] → host = n++58 :: s → host.head? ≠ some 91 → host.count 58 = 1 →
    lookupArgs host = (n,some s)
  whole : host.head? ≠ some 91 → host.count 58 ≠ 1 → lookupArgs host = (host,none)

theorem cStr_eq {s : Bytes} (h : 0 ∉ s) : cStr s = s := by
  rw [cStr, List.takeWhile_eq_self_iff]
  intro b hb
  simpa using fun hzero : b = 0 => h (hzero ▸ hb)

theorem findIdx?_first {c : UInt8} {n : Bytes} (h : c ∉ n) (s : Bytes) :
    (n++c :: s).findIdx? (· = c) = some n.length := by
  have hnone : n.findIdx? (· = c) = none := by
    rw [List.findIdx?_eq_none_iff]
    intro b hb
    simpa using fun heq : b = c => h (heq ▸ hb)
  rw [List.findIdx?_append, hnone, List.findIdx?_cons]
  simp

theorem scanBrackets_eq {n : Bytes} (h : 93 ∉ n) (r : Bytes) : scanBrackets (91 :: n++93 :: r) =
    (n,if r.head? = some 58 then some (n.length+3) else none) := by
  have hfirst : ((91 :: n++93 :: r).drop 1).findIdx? (· = 93) = some n.length :=
    findIdx?_first h r
  have hbehind : (91 :: n++93 :: r)[n.length+2]? = r.head? := by
    rw [List.cons_append, List.getElem?_cons_succ, List.getElem?_append_right (by omega)]
    simp [List.head?_eq_getElem?]
  have htake : ((91 :: n++93 :: r).drop 1).take n.length = n := List.take_left
  have hhead : (91 :: n++93 :: r).head? = some 91 := rfl
  rw [scanBrackets, if_pos hhead, hfirst]
  simp only [htake, hbehind]

theorem scanBrackets_none {host : Bytes} (h : host.head? ≠ some 91) :
    scanBrackets host = ([],none) := if_neg h

theorem scanColon_eq {n : Bytes} (h : 58 ∉ n) (s : Bytes) : scanColon (n++58 :: s) =
    if 58 ∈ s then ([],some n.length) else (n,some (n.length+1)) := by
  have hdrop : (n++58 :: s).drop (n.length+1) = s := by
    rw [← List.drop_drop, List.drop_left]
    rfl
  rw [scanColon, findIdx?_first h]
  simp only [hdrop, List.take_left]

theorem scanColon_none {host : Bytes} (h : 58 ∉ host) : scanColon host = ([],none) := by
  have hnone : host.findIdx? (· = 58) = none := by
    rw [List.findIdx?_eq_none_iff]
    intro b hb
    simpa using fun heq : b = 58 => h (heq ▸ hb)
  rw [scanColon, hnone]

section nul
variable {host : Bytes} (hnul : 0 ∉ host)
include hnul

/-- A node that the brackets have given. -/
theorem lookupArgs_brackets {n : Bytes} {service : Option ℕ} (hne : n ≠ [])
    (hscan : scanBrackets host = (n,service)) (hn : n <:+: host) :
    lookupArgs host = (n,service.map host.drop) := by
  have hdrop : ∀ i, cStr (host.drop i) = host.drop i := fun i =>
    cStr_eq fun h => hnul (List.mem_of_mem_drop h)
  simp only [lookupArgs, hscan, if_neg hne, hdrop, cStr_eq fun h => hnul (hn.subset h)]

theorem lookupArgs_colon {n : Bytes} {service : Option ℕ} (hbrackets : host.head? ≠ some 91)
    (hscan : scanColon host = (n,service)) (hn : n <:+: host) :
    lookupArgs host = (if n = [] then host else n,service.map host.drop) := by
  have hdrop : ∀ i, cStr (host.drop i) = host.drop i := fun i =>
    cStr_eq fun h => hnul (List.mem_of_mem_drop h)
  have hnode : cStr (if n = [] then host else n) = if n = [] then host else n := by
    refine cStr_eq fun h => hnul ?_
    split_ifs at h
    · exact h
    · exact hn.subset h
  simp only [lookupArgs, scanBrackets_none hbrackets, if_true, hscan, hdrop, hnode]

/-- Of several colons the first is where the service begins. -/
theorem lookupArgs_several (hbrackets : host.head? ≠ some 91) (hcount : 1 < host.count 58) :
    ∃ service, lookupArgs host = (host,some service) := by
  obtain ⟨n,s,rfl,hn⟩ :=
    List.eq_append_cons_of_mem (List.count_pos_iff.mp (Nat.zero_lt_of_lt hcount))
  have hs : 58 ∈ s := by
    rw [List.count_append, List.count_cons_self, List.count_eq_zero.mpr hn] at hcount
    exact List.count_pos_iff.mp (by omega)
  have hscan := (scanColon_eq hn s).trans (if_pos hs)
  exact ⟨_,lookupArgs_colon hnul hbrackets hscan (List.nil_infix ..)⟩

/-- A single colon is between the node and the service. -/
theorem lookupArgs_single {n s : Bytes} (hbrackets : host.head? ≠ some 91) (hne : n ≠ [])
    (hsplit : host = n++58 :: s) (hcount : host.count 58 = 1) :
    lookupArgs host = (n,some s) := by
  subst hsplit
  have hcounts : n.count 58 = 0 ∧ s.count 58 = 0 := by
    rw [List.count_append, List.count_cons_self] at hcount
    omega
  have hn := List.count_eq_zero.mp hcounts.1
  have hs := List.count_eq_zero.mp hcounts.2
  have hscan := (scanColon_eq hn s).trans (if_neg hs)
  have hdrop : (n++58 :: s).drop (n.length+1) = s := by
    rw [← List.drop_drop, List.drop_left]
    rfl
  rw [lookupArgs_colon hnul hbrackets hscan ⟨[],58 :: s,by simp⟩, if_neg hne, Option.map_some,
    hdrop]

end nul

/-- A service is passed where there should be none, from the first of several colons on. -/
theorem splits_iff {host : Bytes} (hnul : 0 ∉ host) :
    Splits host ↔ host.head? = some 91 ∨ host.count 58 ≤ 1 := by
  constructor
  · intro h
    by_contra hno
    rw [not_or, Nat.not_le] at hno
    obtain ⟨hbrackets,hcount⟩ := hno
    have hwhole := h.whole hbrackets (by omega)
    obtain ⟨service,hseveral⟩ := lookupArgs_several hnul hbrackets hcount
    rw [hseveral] at hwhole
    cases (Prod.mk.inj hwhole).2
  · intro h
    refine ⟨fun n s hne hn heq => ?_,fun n hne hn heq => ?_,fun n s hne heq hbrackets hcount =>
      lookupArgs_single hnul hbrackets hne heq hcount,fun hbrackets hcount => ?_⟩
    · subst heq
      have hscan := scanBrackets_eq hn (58 :: s)
      rw [List.head?_cons, if_pos rfl] at hscan
      have hdrop : (91 :: n++93 :: 58 :: s).drop (n.length+3) = s := by
        rw [show 91 :: n++93 :: 58 :: s = 91 :: n++[93,58]++s by simp]
        exact List.drop_left' (by simp)
      rw [lookupArgs_brackets hnul hne hscan ⟨[91],93 :: 58 :: s,by simp⟩, Option.map_some, hdrop]
    · subst heq
      have hscan := scanBrackets_eq hn []
      rw [List.head?_nil, if_neg (by simp)] at hscan
      exact lookupArgs_brackets hnul hne hscan ⟨[91],[93],by simp⟩
    · have hzero : host.count 58 = 0 := by
        have := h.resolve_left hbrackets
        omega
      have hscan := scanColon_none (List.count_eq_zero.mp hzero)
      rw [lookupArgs_colon hnul hbrackets hscan (List.nil_infix ..), if_pos rfl]
      rfl

/-- `[::1]:80` is split. -/
theorem splits_loopback : Splits (bytes "[::1]:80") :=
  (splits_iff (by decide)).mpr (.inl rfl)

/-- The literal `::1` gets the service `::1`. -/
theorem not_splits : ¬∀ host : Bytes, 0 ∉ host → Splits host := by
  intro h
  have hwhole := (h (bytes "::1") (by decide)).whole (by decide) (by decide)
  have hargs : lookupArgs (bytes "::1") = (bytes "::1",some (bytes "::1")) := by decide
  rw [hargs] at hwhole
  cases (Prod.mk.inj hwhole).2

end Address
end CoroutineWebserve
