import CoroutineWebserve.Http.Dump
import CoroutineWebserve.Client.Machine
import Mathlib.Tactic.Ring

/-!
# HTTP responses

The data of an `HttpResponse`, its text, and the C functions that read numbers from it.
-/
namespace CoroutineWebserve.Client
open Http Ragel

/-- The value of a digit in bases up to 36; bytes that are none have the value 36. -/
def digit (b : UInt8) : ℕ :=
  if 48 ≤ b ∧ b ≤ 57 then b.toNat-48
  else if 65 ≤ b ∧ b ≤ 90 then b.toNat-55
  else if 97 ≤ b ∧ b ≤ 122 then b.toNat-87
  else 36

/-- The number that the digits are a numeral of. -/
def numeral (base : ℕ) (ds : Bytes) : ℕ := ds.foldl (fun n b => base*n+digit b) 0

theorem numeral_append (base : ℕ) (ds es : Bytes) :
    numeral base (ds++es) = numeral base ds*base^es.length+numeral base es := by
  have hfold : ∀ n, es.foldl (fun n b => base*n+digit b) n =
      n*base^es.length+es.foldl (fun n b => base*n+digit b) 0 := by
    induction es with
    | nil => intro n; simp
    | cons b es ih =>
      intro n
      rw [List.foldl_cons, List.foldl_cons, ih, ih (base*0+digit b), List.length_cons]
      ring
  simp only [numeral, List.foldl_append]
  exact hfold _

/-- `strtol(s, NULL, base)` for the bases 10 and 16, where `s` ends with a NUL. -/
def strtol (base : ℕ) (s : Bytes) : ℤ :=
  let s := s.dropWhile isSpace
  let negative := s.head? = some 45
  let s := if s.head? = some 45 ∨ s.head? = some 43 then s.drop 1 else s
  -- an `0x` belongs to the numeral only before a digit
  let hex := base = 16 ∧ s[0]? = some 48 ∧ s[1]?.map tolower = some 120 ∧
    ∃ d ∈ s[2]?, digit d < 16
  let s := if hex then s.drop 2 else s
  let n := numeral base (s.takeWhile (digit · < base))
  if negative then max (-n) (-2^63) else min n (2^63-1)

theorem digit_facts (b : UInt8) : (isXdigit b = true ↔ digit b < 16) ∧
    (isDigit b = true ↔ digit b < 10) ∧
    (digit b < 36 → isSpace b = false ∧ b ≠ 45 ∧ b ≠ 43) ∧
    (digit b < 16 → tolower b ≠ 120) := by
  revert b
  exact forall_byte (by decide +kernel)

theorem takeWhile_append {p : UInt8 → Bool} {ds rest : Bytes} (hds : ∀ b ∈ ds, p b)
    (hrest : ∀ b ∈ rest.head?, p b = false) : (ds++rest).takeWhile p = ds := by
  rw [List.takeWhile_append_of_pos hds]
  cases rest with
  | nil => simp
  | cons b rest =>
    have hb := hrest b rfl
    simp [hb]

/-- A number is read to the end of its digits. -/
theorem strtol_numeral {base : ℕ} (hbase : base ≤ 16) {ds rest : Bytes} (hne : ds ≠ [])
    (hds : ∀ b ∈ ds, digit b < base) (hrest : ∀ b ∈ rest.head?, digit b = 36 ∧ tolower b ≠ 120)
    (hsmall : numeral base ds < 2^63) : strtol base (ds++rest) = numeral base ds := by
  obtain ⟨d,ds,rfl⟩ := List.exists_cons_of_ne_nil hne
  have hd := hds d List.mem_cons_self
  obtain ⟨hspace,hminus,hplus⟩ := (digit_facts d).2.2.1 (by omega)
  have htake : ((d :: ds)++rest).takeWhile (digit · < base) = d :: ds := by
    refine takeWhile_append (fun b hb => by simpa using hds b hb) fun b hb => ?_
    simp only [(hrest b hb).1, decide_eq_false_iff_not]
    omega
  have hsecond : (((d :: ds)++rest)[1]?).map tolower ≠ some 120 := by
    cases ds with
    | nil =>
      cases rest with
      | nil => simp
      | cons b rest => simpa using (hrest b rfl).2
    | cons c ds =>
      have hc := hds c (by simp)
      simpa using (digit_facts c).2.2.2 (by omega)
  simp only [strtol]
  rw [List.cons_append, List.dropWhile_cons_of_neg (by simp [hspace]), ← List.cons_append]
  have hhead : ((d :: ds)++rest).head? = some d := rfl
  simp only [hhead, Option.some.injEq, hminus, hplus, or_self, if_false, hsecond, false_and,
    and_false, htake]
  exact min_eq_left (by omega)

/-- `HTTP_STATUS_MAP`. -/
def httpStatusMap : List (UInt32 × Bytes) :=
  [(100,bytes "Continue"),(101,bytes "Switching Protocols"),(102,bytes "Processing"),
    (200,bytes "OK"),(201,bytes "Created"),(202,bytes "Accepted"),
    (203,bytes "Non-Authoritative Information"),(204,bytes "No Content"),
    (205,bytes "Reset Content"),(206,bytes "Partial Content"),(207,bytes "Multi-Status"),
    (208,bytes "Already Reported"),(226,bytes "IM Used"),(300,bytes "Multiple Choices"),
    (301,bytes "Moved Permanently"),(302,bytes "Found"),(303,bytes "See Other"),
    (304,bytes "Not Modified"),(305,bytes "Use Proxy"),(307,bytes "Temporary Redirect"),
    (308,bytes "Permanent Redirect"),(400,bytes "Bad Request"),(401,bytes "Unauthorized"),
    (402,bytes "Payment Required"),(403,bytes "Forbidden"),(404,bytes "Not Found"),
    (405,bytes "Method Not Allowed"),(406,bytes "Not Acceptable"),
    (407,bytes "Proxy Authentication Required"),(408,bytes "Request Timeout"),
    (409,bytes "Conflict"),(410,bytes "Gone"),(411,bytes "Length Required"),
    (412,bytes "Precondition Failed"),(413,bytes "Payload Too Large"),
    (414,bytes "URI Too Long"),(415,bytes "Unsupported Media Type"),
    (416,bytes "Range Not Satisfiable"),(417,bytes "Expectation Failed"),
    (421,bytes "Misdirected Request"),(422,bytes "Unprocessable Entity"),(423,bytes "Locked"),
    (424,bytes "Failed Dependency"),(426,bytes "Upgrade Required"),
    (428,bytes "Precondition Required"),(429,bytes "Too Many Requests"),
    (431,bytes "Request Header Fields Too Large"),(451,bytes "Unavailable For Legal Reasons"),
    (500,bytes "Internal Server Error"),(501,bytes "Not Implemented"),(502,bytes "Bad Gateway"),
    (503,bytes "Service Unavailable"),(504,bytes "Gateway Timeout"),
    (505,bytes "HTTP Version Not Supported"),(506,bytes "Variant Also Negotiates"),
    (507,bytes "Insufficient Storage"),(508,bytes "Loop Detected"),(510,bytes "Not Extended"),
    (511,bytes "Network Authentication Required")]

/-- `HttpStatusToString(s)`. -/
def httpStatusToString (s : UInt32) : Bytes :=
  ((httpStatusMap.find? (·.1 = s)).map (·.2)).getD (bytes "<unknown>")

/-- `HttpResponse`. The `int` of the status is kept as the `uint32_t` that is printed. -/
structure HttpResponse where
  status : UInt32
  version : UInt8
  close : Bool
  websocket : Bool
  body : Bytes
  reason : Bytes
  headers : MapType
  cookies : List Bytes
deriving Repr, DecidableEq

namespace HttpResponse

/-- `HttpResponse(version = 0x11, close = true)`. -/
def new : HttpResponse where
  status := 200
  version := 0x11
  close := true
  websocket := false
  body := []
  reason := []
  headers := []
  cookies := []

def setHeader (r : HttpResponse) (key val : Bytes) : HttpResponse :=
  { r with headers := r.headers.set key val }

/-- `getHeaderAs<uint64_t>(key, def)`, as for a request. -/
def getHeaderAs (lexicalCast : Bytes → Option UInt64) (r : HttpResponse) (key : Bytes)
    (fallback : UInt64) : UInt64 :=
  ((r.headers.find key).bind lexicalCast).getD fallback

/-- The reason that `dump` prints. -/
def printedReason (r : HttpResponse) : Bytes :=
  if r.reason = [] then httpStatusToString r.status else r.reason

/-- `dump(os)`. -/
def dump (r : HttpResponse) : Bytes :=
  versionText r.version++bytes " "++decimal r.status.toNat++bytes " "++r.printedReason
    ++bytes "\r\n"++fieldLines r.websocket r.headers
    ++r.cookies.flatMap (fun c => fieldLine (bytes "Set-Cookie",c))
    ++connectionLine r.websocket r.close++bodyText r.body

end HttpResponse
end CoroutineWebserve.Client
