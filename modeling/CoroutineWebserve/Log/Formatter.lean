import CoroutineWebserve.Log.FileAppender

/-!
# `LogFormatter`

A pattern is text with `%k` and `%k{fmt}` for the data of an event. What the parser of a pattern
cannot read becomes text that says so, and the formatter counts as wrong.
-/
namespace CoroutineWebserve.Log

/-- The bytes of a string literal. -/
def bytes (s : String) : Bytes := s.toList.map (·.toUInt8)

/-- The classes derived from `LogFormatter::FormatItem`. -/
inductive FormatItem
  | message | level | elapse | name | threadId | newLine
  | dateTime (format : Bytes)
  | filename | line | tab | fiberId | threadName
  | string (s : Bytes)
deriving Repr, DecidableEq

/-- The constructor of `DateTimeFormatItem`. -/
def FormatItem.newDateTime (format : Bytes) : FormatItem :=
  .dateTime (if format = [] then bytes "%Y-%m-%d %H:%M:%S" else format)

/-- `s_format_items`. -/
def formatItem (str fmt : Bytes) : Option FormatItem :=
  if str = bytes "m" then some .message
  else if str = bytes "p" then some .level
  else if str = bytes "r" then some .elapse
  else if str = bytes "c" then some .name
  else if str = bytes "t" then some .threadId
  else if str = bytes "n" then some .newLine
  else if str = bytes "d" then some (.newDateTime fmt)
  else if str = bytes "f" then some .filename
  else if str = bytes "l" then some .line
  else if str = bytes "T" then some .tab
  else if str = bytes "F" then some .fiberId
  else if str = bytes "N" then some .threadName
  else none

/-- In the C locale. -/
def isalpha (c : UInt8) : Bool := 65 ≤ c && c ≤ 90 || 97 ≤ c && c ≤ 122

structure LogFormatter where
  pattern : Bytes
  items : List FormatItem
  error : Bool
deriving Repr, DecidableEq

namespace LogFormatter

/-- The inner loop of `init` in state 1, behind a left brace: the argument and what follows the
right brace. -/
def scanFmt (fmt : Bytes) : Bytes → Option (Bytes × Bytes)
  | [] => none
  | c :: cs => if c = 125 then some (fmt,cs) else scanFmt (fmt++[c]) cs

/-- The inner loop of `init` in state 0, behind a percent sign: the name, the argument and what
follows; `none` when the loop ends in state 1. -/
def scan (str : Bytes) : Bytes → Option (Bytes × Bytes × Bytes)
  | [] => some (str,[],[])
  | c :: cs =>
    if ¬isalpha c ∧ c ≠ 123 ∧ c ≠ 125 then some (str,[],c :: cs)
    else if c = 123 then (scanFmt [] cs).map fun r => (str,r)
    else scan (str++[c]) cs

/-- An entry of `vec`; text has type 0, what stands behind a percent sign has type 1. -/
inductive Piece
  | text (str : Bytes)
  | spec (str fmt : Bytes)
deriving Repr, DecidableEq

def Piece.ofText (nstr : Bytes) : List Piece := if nstr = [] then [] else [.text nstr]

/-- The outer loop of `init`, which skips what the inner loop has read: `vec` and `m_error`. -/
def pieces (nstr : Bytes) : ℕ → Bytes → List Piece × Bool
  | _, [] => (Piece.ofText nstr,false)
  | skip+1, _ :: cs => pieces nstr skip cs
  | 0, c :: cs =>
    if c ≠ 37 then pieces (nstr++[c]) 0 cs
    -- the second percent sign is looked at again
    else if cs.head? = some 37 then pieces (nstr++[37]) 0 cs
    else match scan [] cs with
      | some (str,fmt,rest) =>
        let (vec,error) := pieces [] (cs.length-rest.length) cs
        (Piece.ofText nstr++.spec str fmt :: vec,error)
      | none => (.text (bytes "<<pattern_error>>") :: (pieces nstr 0 cs).1,true)

/-- The item of an entry, and whether there is none of this name. -/
def item : Piece → FormatItem × Bool
  | .text str => (.string str,false)
  | .spec str fmt =>
    match formatItem str fmt with
    | some item => (item,false)
    | none => (.string (bytes "<<error_format %"++str++bytes ">>"),true)

/-- The constructor, which calls `init`. -/
def new (pattern : Bytes) : LogFormatter :=
  let (vec,error) := pieces [] 0 pattern
  { pattern
    items := vec.map fun piece => (item piece).1
    error := error || vec.any fun piece => (item piece).2 }

example : new (bytes "[%p]%d{%H:%M}%T%m%n") = ⟨bytes "[%p]%d{%H:%M}%T%m%n",
    [.string (bytes "["),.level,.string (bytes "]"),.dateTime (bytes "%H:%M"),.tab,.message,
      .newLine],false⟩ := by decide +kernel

end LogFormatter
end CoroutineWebserve.Log
