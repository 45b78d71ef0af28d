import Mathlib.Data.List.Find
import Mathlib.Data.UInt
import Mathlib.Tactic.Common

/-!
# HTTP requests

The data of an `HttpRequest`: its method, its header map with case-insensitive keys, and
the numbers read from headers.
-/
namespace CoroutineWebserve.Http

/-- A `std::string`, or what a `char*` points to. -/
abbrev Bytes := List UInt8

/-- The bytes of a string literal. -/
def bytes (s : String) : Bytes := s.toList.map (·.toUInt8)

/-- `HTTP_METHOD_MAP`, in its order. -/
inductive HttpMethod
  | DELETE | GET | HEAD | POST | PUT | CONNECT | OPTIONS | TRACE | COPY | LOCK | MKCOL | MOVE
  | PROPFIND | PROPPATCH | SEARCH | UNLOCK | BIND | REBIND | UNBIND | ACL | REPORT | MKACTIVITY
  | CHECKOUT | MERGE | MSEARCH | NOTIFY | SUBSCRIBE | UNSUBSCRIBE | PATCH | PURGE | MKCALENDAR
  | LINK | UNLINK | SOURCE | INVALID_METHOD
deriving Repr, DecidableEq

open HttpMethod in
/-- The methods with their names, in the order of `HTTP_METHOD_MAP`. -/
def httpMethodMap : List (HttpMethod × Bytes) :=
  [(DELETE,bytes "DELETE"),(GET,bytes "GET"),(HEAD,bytes "HEAD"),(POST,bytes "POST"),
    (PUT,bytes "PUT"),(CONNECT,bytes "CONNECT"),(OPTIONS,bytes "OPTIONS"),
    (TRACE,bytes "TRACE"),(COPY,bytes "COPY"),(LOCK,bytes "LOCK"),(MKCOL,bytes "MKCOL"),
    (MOVE,bytes "MOVE"),(PROPFIND,bytes "PROPFIND"),(PROPPATCH,bytes "PROPPATCH"),
    (SEARCH,bytes "SEARCH"),(UNLOCK,bytes "UNLOCK"),(BIND,bytes "BIND"),
    (REBIND,bytes "REBIND"),(UNBIND,bytes "UNBIND"),(ACL,bytes "ACL"),
    (REPORT,bytes "REPORT"),(MKACTIVITY,bytes "MKACTIVITY"),(CHECKOUT,bytes "CHECKOUT"),
    (MERGE,bytes "MERGE"),(MSEARCH,bytes "M-SEARCH"),(NOTIFY,bytes "NOTIFY"),
    (SUBSCRIBE,bytes "SUBSCRIBE"),(UNSUBSCRIBE,bytes "UNSUBSCRIBE"),(PATCH,bytes "PATCH"),
    (PURGE,bytes "PURGE"),(MKCALENDAR,bytes "MKCALENDAR"),(LINK,bytes "LINK"),
    (UNLINK,bytes "UNLINK"),(SOURCE,bytes "SOURCE")]

/-- `CharsToHttpMethod(m)`: the first method whose name the memory at `m` starts with. -/
def charsToHttpMethod (m : Bytes) : HttpMethod :=
  match httpMethodMap.find? (·.2.isPrefixOf m) with
  | some (method,_) => method
  | none => .INVALID_METHOD

theorem space_notMem : ∀ e ∈ httpMethodMap, (32 : UInt8) ∉ e.2 := by decide

/-- A method ends at the space behind it, whatever the memory holds there. -/
theorem charsToHttpMethod_append (m rest : Bytes) :
    charsToHttpMethod (m++32 :: rest) = charsToHttpMethod m := by
  have hprefix : ∀ e ∈ httpMethodMap, e.2.isPrefixOf (m++32 :: rest) = e.2.isPrefixOf m := by
    intro e he
    rw [Bool.eq_iff_iff, List.isPrefixOf_iff_prefix, List.isPrefixOf_iff_prefix]
    refine ⟨fun h => ?_,fun h => h.trans (List.prefix_append ..)⟩
    by_contra hno
    have hlen : (m++[32]).length ≤ e.2.length := by
      by_contra hlt
      refine hno (List.prefix_of_prefix_length_le h (List.prefix_append ..) ?_)
      simp only [List.length_append, List.length_singleton] at hlt
      omega
    have hmid : m++[32] <+: m++32 :: rest := ⟨rest,by simp⟩
    have hsub := List.prefix_of_prefix_length_le hmid h hlen
    exact space_notMem e he (hsub.subset (by simp))
  simp only [charsToHttpMethod]
  rw [List.find?_congr hprefix]

/-- `strncmp(at, literal, length) == 0`, for a literal that ends with a NUL. -/
def strncmpEq : Bytes → Bytes → ℕ → Bool
  | _, _, 0 => true
  | [], [], _ => true
  | [], _ :: _, _ => false
  | b :: _, [], _ => b = 0
  | b :: rest, c :: literal, length+1 => b = c && strncmpEq rest literal length

theorem strncmpEq_take (m literal : Bytes) (length : ℕ) :
    strncmpEq (m.take length) literal length = strncmpEq m literal length := by
  induction length generalizing m literal with
  | zero => cases m <;> rfl
  | succ n ih =>
    cases m with
    | nil => rfl
    | cons b m =>
      cases literal with
      | nil => rfl
      | cons c literal => simp only [List.take_succ_cons, strncmpEq, ih]

/-- `tolower` in the C locale. -/
def tolower (b : UInt8) : UInt8 := if 65 ≤ b ∧ b ≤ 90 then b+32 else b

/-- `c_str()` as the C functions read it: up to the first NUL. -/
def cStr (s : Bytes) : Bytes := s.takeWhile (· ≠ 0)

/-- `StringToHttpMethod(m)`: the first method with this name, as `strcmp` compares them. -/
def stringToHttpMethod (m : Bytes) : HttpMethod :=
  match httpMethodMap.find? (·.2 = cStr m) with
  | some (method,_) => method
  | none => .INVALID_METHOD

/-- What `strcasecmp` compares. -/
def folded (s : Bytes) : Bytes := (cStr s).map tolower

/-- `strcasecmp(a, b) < 0`, the order `CaseInsensitiveLess`. -/
def caseInsensitiveLess (a b : Bytes) : Bool := folded a < folded b

/-- `std::map<std::string, std::string, CaseInsensitiveLess>`: its entries in order. -/
abbrev MapType := List (Bytes × Bytes)

/-- `map[key] = val`: an entry that is there keeps the key it was made with. -/
def MapType.set (key val : Bytes) : MapType → MapType
  | [] => [(key,val)]
  | e :: m =>
    if caseInsensitiveLess key e.1 then (key,val) :: e :: m
    else if caseInsensitiveLess e.1 key then e :: set key val m
    else (e.1,val) :: m

/-- `map.find(key)`. -/
def MapType.find (m : MapType) (key : Bytes) : Option Bytes :=
  (List.find? (fun e : Bytes × Bytes =>
    !caseInsensitiveLess key e.1 && !caseInsensitiveLess e.1 key) m).map (·.2)

/-- The fields of `HttpRequest` that receiving a request reads or sets. -/
structure HttpRequest where
  method : HttpMethod
  version : UInt8
  close : Bool
  path : Bytes
  query : Bytes
  fragment : Bytes
  body : Bytes
  headers : MapType
deriving Repr, DecidableEq

namespace HttpRequest

/-- `HttpRequest(version = 0x11, close = true)`. -/
def new : HttpRequest where
  method := .GET
  version := 0x11
  close := true
  path := bytes "/"
  query := []
  fragment := []
  body := []
  headers := []

def setHeader (r : HttpRequest) (key val : Bytes) : HttpRequest :=
  { r with headers := r.headers.set key val }

/-- `getHeader(key, def = "")`. -/
def getHeader (r : HttpRequest) (key : Bytes) : Bytes := (r.headers.find key).getD []

/-- `getHeaderAs<uint64_t>(key, def)`; `lexicalCast` is `boost::lexical_cast<uint64_t>`, and
`none` its exception. -/
def getHeaderAs (lexicalCast : Bytes → Option UInt64) (r : HttpRequest) (key : Bytes)
    (fallback : UInt64) : UInt64 :=
  ((r.headers.find key).bind lexicalCast).getD fallback

/-- `init()`: the header `connection` decides on `m_close`. -/
def init (r : HttpRequest) : HttpRequest :=
  let conn := r.getHeader (bytes "connection")
  if conn = [] then r
  else { r with close := folded conn ≠ folded (bytes "keep-alive") }

end HttpRequest

/-- The map is searched as it is filled: a key that was set is found, whatever its case. -/
example : (HttpRequest.new.setHeader (bytes "Content-Length") (bytes "5")).getHeader
    (bytes "content-length") = bytes "5" := by decide

end CoroutineWebserve.Http
