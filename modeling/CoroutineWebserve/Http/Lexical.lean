import CoroutineWebserve.Http.Message

/-!
# `boost::lexical_cast<uint64_t>`

As documented: an optional sign and decimal digits; a minus sign is the negation modulo
2^64. Everything else throws, and so does a number that is too large.
-/
namespace CoroutineWebserve.Http

/-- The number that the digits `v` are a numeral of. -/
def decimalValue (v : Bytes) : ℕ := v.foldl (fun n b => 10*n+(b.toNat-48)) 0

/-- The digits `v` are a decimal numeral of `n`. -/
def Decimal (v : Bytes) (n : ℕ) : Prop :=
  v ≠ [] ∧ (∀ b ∈ v, 48 ≤ b ∧ b ≤ 57) ∧ decimalValue v = n

instance (v : Bytes) (n : ℕ) : Decidable (Decimal v n) := inferInstanceAs (Decidable (_ ∧ _ ∧ _))

/-- Digits without a sign. -/
def castDigits (v : Bytes) : Option UInt64 :=
  if Decimal v (decimalValue v) ∧ decimalValue v < 2^64 then
    some (UInt64.ofNat (decimalValue v))
  else none

/-- `boost::lexical_cast<uint64_t>(v)`, `none` when it throws. -/
def lexicalCast : Bytes → Option UInt64
  | 43 :: v => castDigits v
  | 45 :: v => (castDigits v).map (-·)
  | v => castDigits v

/-- A parser of `uint64_t` that reads decimal numerals, and throws if they are too large. -/
def CastsDecimals (lexicalCast : Bytes → Option UInt64) : Prop :=
  ∀ v n, Decimal v n → lexicalCast v = if n < 2^64 then some (UInt64.ofNat n) else none

theorem castDigits_of_decimal {v : Bytes} {n : ℕ} (h : Decimal v n) :
    castDigits v = if n < 2^64 then some (UInt64.ofNat n) else none := by
  obtain ⟨hne,hdigits,rfl⟩ := h
  simp only [castDigits, show Decimal v (decimalValue v) from ⟨hne,hdigits,rfl⟩, true_and]

theorem lexicalCast_of_digits {v : Bytes} (h : ∀ b ∈ v, 48 ≤ b ∧ b ≤ 57) :
    lexicalCast v = castDigits v := by
  cases v with
  | nil => rfl
  | cons b v =>
    have hb := h b List.mem_cons_self
    unfold lexicalCast
    split
    · rename_i heq
      cases heq
      exact absurd hb (by decide)
    · rename_i heq
      cases heq
      exact absurd hb (by decide)
    · rfl

theorem lexicalCast_castsDecimals : CastsDecimals lexicalCast := fun _ _ h => by
  rw [lexicalCast_of_digits h.2.1, castDigits_of_decimal h]

example : lexicalCast (bytes "-1") = some (-1) := by decide +kernel

end CoroutineWebserve.Http
