import CoroutineWebserve.Http.Lexical

/-!
# `HttpRequest::dump`

The text of a request. Numbers are printed in decimal.
-/
namespace CoroutineWebserve.Http

/-- `os << n`. -/
def decimal (n : ℕ) : Bytes := (Nat.toDigits 10 n).map (·.toUInt8)

theorem toNat_of_isDigit {c : Char} (h : c.isDigit) :
    48 ≤ c.toNat ∧ c.toNat ≤ 57 ∧ c.toUInt8.toNat = c.toNat := by
  have hrange := Char.isDigit_iff_toNat.mp h
  refine ⟨hrange.1,hrange.2,?_⟩
  have hsmall : c.toNat < 256 := lt_of_le_of_lt hrange.2 (by decide)
  exact Nat.mod_eq_of_lt hsmall

theorem decimalValue_map {l : List Char} (hl : ∀ c ∈ l, c.isDigit) (n : ℕ) :
    (l.map (·.toUInt8)).foldl (fun n b => 10*n+(b.toNat-48)) n = Nat.ofDigitChars 10 l n := by
  induction l generalizing n with
  | nil => simp
  | cons c l ih =>
    have hc := toNat_of_isDigit (hl c List.mem_cons_self)
    rw [List.map_cons, List.foldl_cons, Nat.ofDigitChars_cons, hc.2.2]
    exact ih (fun c hc => hl c (List.mem_cons_of_mem _ hc)) _

/-- A printed number is its numeral. -/
theorem decimal_decimal (n : ℕ) : Decimal (decimal n) n := by
  have hdigits : ∀ c ∈ Nat.toDigits 10 n, c.isDigit := fun c hc =>
    Nat.isDigit_of_mem_toDigits (by decide) (by decide) hc
  refine ⟨by simp [decimal, Nat.toDigits_ne_nil],?_,?_⟩
  · intro b hb
    obtain ⟨c,hc,rfl⟩ := List.mem_map.mp hb
    have h := toNat_of_isDigit (hdigits c hc)
    rw [UInt8.le_iff_toNat_le, UInt8.le_iff_toNat_le, h.2.2]
    exact ⟨h.1,h.2.1⟩
  · exact (decimalValue_map hdigits 0).trans Nat.ofDigitChars_ten_toDigits

/-- `os << name << ": " << value << "\r\n"`. -/
def fieldLine (e : Bytes × Bytes) : Bytes := e.1++bytes ": "++e.2++bytes "\r\n"

theorem fieldLine_eq (e : Bytes × Bytes) : fieldLine e = e.1++[58,32]++e.2++[13,10] := rfl

/-- The name and the value of a line that a buffer has at `p`. -/
theorem slices_fieldLine {buffer post : Bytes} {p : ℕ} {e : Bytes × Bytes}
    (h : buffer.drop p = fieldLine e++post) : (buffer.drop p).take e.1.length = e.1 ∧
      (buffer.drop (p+e.1.length+2)).take e.2.length = e.2 := by
  have hvalue : buffer.drop (p+e.1.length+2) = e.2++([13,10]++post) := by
    rw [Nat.add_assoc, ← List.drop_drop, h, fieldLine_eq, ← List.drop_drop]
    simp
  constructor
  · rw [h, fieldLine_eq]
    simp
  · rw [hvalue, List.take_left]

/-- The lines of a header map. The header `connection` is left out where `dump` prints its
own. -/
def fieldLines (websocket : Bool) (headers : MapType) : Bytes :=
  (headers.filter fun e => websocket || folded e.1 ≠ bytes "connection").flatMap fieldLine

/-- `HTTP/` and the two halves of the version. -/
def versionText (version : UInt8) : Bytes :=
  bytes "HTTP/"++decimal (version >>> 4).toNat++bytes "."++decimal (version &&& 0x0F).toNat

/-- The header `connection` that `dump` prints. -/
def connectionLine (websocket close : Bool) : Bytes :=
  if websocket then []
  else fieldLine (bytes "connection",if close then bytes "close" else bytes "keep-alive")

/-- The end of the head, with the length of the body if there is one, and the body. -/
def bodyText (body : Bytes) : Bytes :=
  if body = [] then bytes "\r\n"
  else fieldLine (bytes "content-length",decimal body.length)++bytes "\r\n"++body

/-- `HttpMethodToString(m)`. -/
def httpMethodToString (m : HttpMethod) : Bytes :=
  ((httpMethodMap.find? (·.1 = m)).map (·.2)).getD (bytes "<unknown>")

/-- `dump(os)`; `websocket` is `m_websocket`, which receiving a request does not set. -/
def HttpRequest.dump (websocket : Bool) (r : HttpRequest) : Bytes :=
  httpMethodToString r.method++bytes " "++r.path
    ++(if r.query = [] then [] else bytes "?")++r.query
    ++(if r.fragment = [] then [] else bytes "#")++r.fragment
    ++bytes " "++versionText r.version++bytes "\r\n"
    ++connectionLine websocket r.close++fieldLines websocket r.headers++bodyText r.body

end CoroutineWebserve.Http
