import Mathlib.Data.UInt
import Mathlib.Tactic.Common

/-!
# Patterns over bytes

Regular patterns and what is left of them after a byte. A machine keeps the pattern that is
left where a generated automaton keeps a number.
-/
namespace CoroutineWebserve.Ragel

/-- A pattern over classes of bytes; a class is a list of ranges. -/
inductive Pattern
  | none
  | eps
  | byte (ranges : List (UInt8 × UInt8))
  | alt (p q : Pattern)
  | cat (p q : Pattern)
  | star (p : Pattern)
deriving Repr, DecidableEq

/-- The byte lies in one of the ranges. -/
def inRanges (ranges : List (UInt8 × UInt8)) (b : UInt8) : Bool :=
  ranges.any fun r => r.1 ≤ b && b ≤ r.2

/-- A decidable fact about bytes is checked for each of them. -/
theorem forall_byte {p : UInt8 → Prop} (h : ∀ n : Fin 256, p (UInt8.ofFin n)) (b : UInt8) :
    p b := by
  simpa using h b.toFin

namespace Pattern

instance : OrOp Pattern := ⟨alt⟩
instance : Append Pattern := ⟨cat⟩

/-- `'c'`. -/
def char (c : Char) : Pattern := byte [(c.toUInt8,c.toUInt8)]

/-- One of the characters of the string. -/
def oneOf (s : String) : Pattern := byte (s.toList.map fun c => (c.toUInt8,c.toUInt8))

/-- `"s"`. -/
def literal (s : String) : Pattern := s.toList.foldr (fun c p => char c ++ p) eps

/-- `p?`. -/
def opt (p : Pattern) : Pattern := p ||| eps

/-- `p+`. -/
def plus (p : Pattern) : Pattern := p ++ p.star

/-- `p{n}`. -/
def times (p : Pattern) : ℕ → Pattern
  | 0 => eps
  | n+1 => p ++ p.times n

/-- `p{n,}`. -/
def atLeast (p : Pattern) (n : ℕ) : Pattern := p.times n ++ p.star

/-- At most `n` times `p`. -/
def atMost (p : Pattern) : ℕ → Pattern
  | 0 => eps
  | n+1 => (p ++ p.atMost n).opt

/-- The pattern matches no bytes at all. -/
def nullable : Pattern → Bool
  | none | byte _ => false
  | eps | star _ => true
  | alt p q => p.nullable || q.nullable
  | cat p q => p.nullable && q.nullable

/-- One of the alternatives is `p`. -/
def has (p : Pattern) : Pattern → Bool
  | alt q r => p = q || p.has r
  | q => p = q

/-- The alternatives of both patterns, none twice. -/
def union : Pattern → Pattern → Pattern
  | none, q => q
  | alt p r, q => p.union (r.union q)
  | p, none => p
  | p, q => if p.has q then q else alt p q

/-- One pattern after the other. -/
def seq : Pattern → Pattern → Pattern
  | none, _ => none
  | eps, q => q
  | p, q => cat p q

/-- What is left of the pattern after the byte. -/
def after (b : UInt8) : Pattern → Pattern
  | none | eps => none
  | byte ranges => if inRanges ranges b then eps else none
  | alt p q => (p.after b).union (q.after b)
  | cat p q =>
    if p.nullable then ((p.after b).seq q).union (q.after b) else (p.after b).seq q
  | star p => (p.after b).seq p.star

end Pattern
end CoroutineWebserve.Ragel
