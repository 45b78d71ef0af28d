import CoroutineWebserve.ByteArray.Codec

/-!
# `IPv4Address` and `IPv6Address`

An address holds its `sockaddr`, in which the port and an IPv4 address are in network order; `host`
is the byte order of the machine. The masks of subnets are made by `CreateMask`. What the language
leaves undefined is an error.
-/
namespace CoroutineWebserve
open CoroutineWebserve.ByteArray (Endian byteswap)

/-- `byteswapOnLittleEndian(t)`. -/
def byteswapOnLittleEndian {w : ℕ} (host : Endian) (t : BitVec w) : BitVec w :=
  match host with
  | .LITTLE_ENDIAN => byteswap t
  | .BIG_ENDIAN => t

theorem byteswapOnLittleEndian_twice {w : ℕ} (hw : 8 ∣ w) (host : Endian) (t : BitVec w) :
    byteswapOnLittleEndian host (byteswapOnLittleEndian host t) = t := by
  cases host with
  | LITTLE_ENDIAN => exact Bits.reverse_reverse hw t
  | BIG_ENDIAN => rfl

theorem byteswapOnLittleEndian_and {w : ℕ} (hw : 8 ∣ w) (host : Endian) (t v : BitVec w) :
    byteswapOnLittleEndian host (t &&& v) =
      byteswapOnLittleEndian host t &&& byteswapOnLittleEndian host v := by
  cases host with
  | LITTLE_ENDIAN => exact Bits.reverse_and hw t v
  | BIG_ENDIAN => rfl

theorem byteswapOnLittleEndian_or {w : ℕ} (hw : 8 ∣ w) (host : Endian) (t v : BitVec w) :
    byteswapOnLittleEndian host (t ||| v) =
      byteswapOnLittleEndian host t ||| byteswapOnLittleEndian host v := by
  cases host with
  | LITTLE_ENDIAN => exact Bits.reverse_or hw t v
  | BIG_ENDIAN => rfl

theorem byteswapOnLittleEndian_not {w : ℕ} (hw : 8 ∣ w) (host : Endian) (t : BitVec w) :
    byteswapOnLittleEndian host (~~~t) = ~~~byteswapOnLittleEndian host t := by
  cases host with
  | LITTLE_ENDIAN => exact Bits.reverse_not hw t
  | BIG_ENDIAN => rfl

/-- A shift by at least the width of an `int`, an `int` that is too large or too small, and an
access outside an array. -/
inductive Undefined
  | shift
  | overflow
  | index
deriving Repr, DecidableEq

/-- `CreateMask<T>(bits)` for a `T` of `w` bits. The amount of the shift is a `size_t`, and what
is shifted an `int`. -/
def CreateMask (w : ℕ) (bits : UInt32) : Except Undefined (BitVec w) :=
  let amount := (2^64+w-bits.toNat)%2^64
  if amount ≥ 32 then .error .shift
  else if 2^amount ≥ 2^31 then .error .overflow
  else .ok (BitVec.ofNat w (2^amount-1))

def AF_INET : BitVec 16 := 2

def AF_INET6 : BitVec 16 := 10

/-! ### IPv4 -/

/-- `sockaddr_in`. -/
structure SockaddrIn where
  sin_family : BitVec 16
  sin_port : BitVec 16
  s_addr : BitVec 32
  sin_zero : BitVec 64
deriving Repr, DecidableEq

structure IPv4Address where
  addr : SockaddrIn
deriving Repr, DecidableEq

namespace IPv4Address
variable (host : Endian)

/-- `IPv4Address(address, port)`. -/
def ofAddress (address : BitVec 32) (port : BitVec 16) : IPv4Address where
  addr := {
    sin_family := AF_INET
    sin_port := byteswapOnLittleEndian host port
    s_addr := byteswapOnLittleEndian host address
    sin_zero := 0 }

def broadcastAddress (a : IPv4Address) (prefix_len : UInt32) :
    Except Undefined (Option IPv4Address) := do
  if prefix_len > 32 then return none
  let mask ← CreateMask 32 prefix_len
  return some ⟨{ a.addr with s_addr := a.addr.s_addr ||| byteswapOnLittleEndian host mask }⟩

def networdAddress (a : IPv4Address) (prefix_len : UInt32) :
    Except Undefined (Option IPv4Address) := do
  if prefix_len > 32 then return none
  let mask ← CreateMask 32 prefix_len
  return some ⟨{ a.addr with s_addr := a.addr.s_addr &&& byteswapOnLittleEndian host mask }⟩

/-- `subnetMask(prefix_len)`, which reads nothing of the address. -/
def subnetMask (prefix_len : UInt32) : Except Undefined IPv4Address := do
  let mask ← CreateMask 32 prefix_len
  return ⟨{
    sin_family := AF_INET
    sin_port := 0
    s_addr := ~~~byteswapOnLittleEndian host mask
    sin_zero := 0 }⟩

def getPort (a : IPv4Address) : BitVec 32 :=
  (byteswapOnLittleEndian host a.addr.sin_port).setWidth 32

def setPort (a : IPv4Address) (v : BitVec 16) : IPv4Address :=
  ⟨{ a.addr with sin_port := byteswapOnLittleEndian host v }⟩

end IPv4Address

/-! ### IPv6 -/

/-- `sockaddr_in6`. -/
structure SockaddrIn6 where
  sin6_family : BitVec 16
  sin6_port : BitVec 16
  sin6_flowinfo : BitVec 32
  s6_addr : Vector UInt8 16
  sin6_scope_id : BitVec 32
deriving Repr, DecidableEq

structure IPv6Address where
  addr : SockaddrIn6
deriving Repr, DecidableEq

namespace IPv6Address
variable (host : Endian)

/-- `IPv6Address()`. -/
def new : IPv6Address where
  addr := {
    sin6_family := AF_INET6
    sin6_port := 0
    sin6_flowinfo := 0
    s6_addr := .replicate 16 0
    sin6_scope_id := 0 }

/-- `IPv6Address(address, port)`. -/
def ofBytes (address : Vector UInt8 16) (port : BitVec 16) : IPv6Address where
  addr := {
    sin6_family := AF_INET6
    sin6_port := byteswapOnLittleEndian host port
    sin6_flowinfo := 0
    s6_addr := address
    sin6_scope_id := 0 }

/-- `s6_addr[i]` becomes `f(s6_addr[i])`. -/
def update (s6_addr : Vector UInt8 16) (i : ℕ) (f : UInt8 → UInt8) :
    Except Undefined (Vector UInt8 16) :=
  if h : i < 16 then .ok (s6_addr.set i (f s6_addr[i])) else .error .index

/-- `for(i = first; i < last; ++i) s6_addr[i] = v;`. -/
def fill (s6_addr : Vector UInt8 16) (first last : ℕ) (v : UInt8) :
    Except Undefined (Vector UInt8 16) :=
  (List.range' first (last-first)).foldlM (fun s6_addr i => update s6_addr i fun _ => v) s6_addr

def broadcastAddress (a : IPv6Address) (prefix_len : UInt32) : Except Undefined IPv6Address := do
  let mask ← CreateMask 8 (prefix_len%8)
  let s6_addr ← update a.addr.s6_addr (prefix_len.toNat/8) (· ||| ⟨mask⟩)
  let s6_addr ← fill s6_addr (prefix_len.toNat/8+1) 16 0xff
  return ⟨{ a.addr with s6_addr }⟩

def networdAddress (a : IPv6Address) (prefix_len : UInt32) : Except Undefined IPv6Address := do
  let mask ← CreateMask 8 (prefix_len%8)
  let s6_addr ← update a.addr.s6_addr (prefix_len.toNat/8) (· &&& ⟨mask⟩)
  let s6_addr ← fill s6_addr (prefix_len.toNat/8+1) 16 0x00
  return ⟨{ a.addr with s6_addr }⟩

/-- `subnetMask(prefix_len)`, which reads nothing of the address. -/
def subnetMask (prefix_len : UInt32) : Except Undefined IPv6Address := do
  let mask ← CreateMask 8 (prefix_len%8)
  let s6_addr ← update new.addr.s6_addr (prefix_len.toNat/8) fun _ => ~~~⟨mask⟩
  let s6_addr ← fill s6_addr 0 (prefix_len.toNat/8) 0xff
  return ⟨{ new.addr with s6_addr }⟩

def getPort (a : IPv6Address) : BitVec 32 :=
  (byteswapOnLittleEndian host a.addr.sin6_port).setWidth 32

def setPort (a : IPv6Address) (v : BitVec 16) : IPv6Address :=
  ⟨{ a.addr with sin6_port := byteswapOnLittleEndian host v }⟩

end IPv6Address

end CoroutineWebserve
