import CoroutineWebserve.Ragel.Pattern

/-!
# The grammar of request targets

The definitions of `http11_parser.rl`, in its order. `relaxed` is `parser->uri_relaxed`.
-/
namespace CoroutineWebserve.Http.Grammar
open Ragel Pattern
variable (relaxed : Bool)

def alpha : Pattern := byte [(65,90),(97,122)]
def digit : Pattern := byte [(48,57)]
def xdigit : Pattern := byte [(48,57),(65,70),(97,102)]

def moreDelims : Pattern := if relaxed then oneOf "{}^" else .none
def subDelims : Pattern := oneOf "!$&'()*+,;=" ||| moreDelims relaxed
def unreserved : Pattern := alpha ||| digit ||| oneOf "-._~"
def pctEncoded : Pattern := char '%' ++ xdigit ++ xdigit

/-- `any -- ascii` stands for the bytes of a multi-byte character. -/
def pchar : Pattern :=
  byte [(128,255)] ||| unreserved ||| pctEncoded ||| subDelims relaxed ||| oneOf ":@"

def fragment : Pattern := (pchar relaxed ||| oneOf "/?").star
def query : Pattern := (pchar relaxed ||| oneOf "/?").star

def segmentNzNc : Pattern :=
  (unreserved ||| pctEncoded ||| subDelims relaxed ||| char '@').plus
def segmentNz : Pattern := (pchar relaxed).plus
def segment : Pattern := (pchar relaxed).star

def pathEmpty : Pattern := (pchar relaxed).times 0
def pathRootless : Pattern := segmentNz relaxed ++ (char '/' ++ segment relaxed).star
def pathNoscheme : Pattern := segmentNzNc relaxed ++ (char '/' ++ segment relaxed).star
def pathAbsolute : Pattern :=
  char '/' ++ (segmentNz relaxed ++ (char '/' ++ segment relaxed).star).opt
def pathAbempty : Pattern := (char '/' ++ segment relaxed).star

def regName : Pattern := (unreserved ||| pctEncoded ||| subDelims relaxed).star

/-- Ragel's `-` is the difference of two sets: `"1"-"9"` is `1`, and the two others are `0`. -/
def decOctet : Pattern :=
  digit ||| char '1' ++ digit ||| char '1' ++ digit.times 2 ||| char '2' ++ char '0' ++ digit
    ||| literal "25" ++ char '0'

def ipv4Address : Pattern :=
  decOctet ++ char '.' ++ decOctet ++ char '.' ++ decOctet ++ char '.' ++ decOctet
def h16 : Pattern := xdigit ++ xdigit.atMost 3
def ls32 : Pattern := h16 ++ char ':' ++ h16 ||| ipv4Address

/-- `n( h16 ":" )`. Ragel has no such repetition: the number is the byte `n`. -/
def counted (n : UInt8) : Pattern := byte [(n,n)] ++ (h16 ++ char ':')

/-- `( ( h16 ":" ){n,} h16 )?`. -/
def leading (n : ℕ) : Pattern := ((h16 ++ char ':').atLeast n ++ h16).opt

def ipv6Address : Pattern :=
  counted 6 ++ ls32
    ||| literal "::" ++ counted 5 ++ ls32
    ||| h16.opt ++ literal "::" ++ counted 4 ++ ls32
    ||| leading 1 ++ literal "::" ++ counted 3 ++ ls32
    ||| leading 2 ++ literal "::" ++ counted 2 ++ ls32
    ||| leading 3 ++ literal "::" ++ h16 ++ char ':' ++ ls32
    ||| leading 4 ++ literal "::" ++ ls32
    ||| leading 5 ++ literal "::" ++ h16
    ||| leading 6 ++ literal "::"

def ipvFuture : Pattern :=
  char 'v' ++ xdigit.plus ++ char '.' ++ (unreserved ||| subDelims relaxed ||| char ':').plus
def ipLiteral : Pattern := char '[' ++ (ipv6Address ||| ipvFuture relaxed) ++ char ']'

def port : Pattern := digit.star
def host : Pattern := ipLiteral relaxed ||| ipv4Address ||| regName relaxed
def userinfo : Pattern := (unreserved ||| pctEncoded ||| subDelims relaxed ||| char ':').star
def authority : Pattern :=
  (userinfo relaxed ++ char '@').opt ++ host relaxed ++ (char ':' ++ port).opt

def relativePart : Pattern :=
  literal "//" ++ authority relaxed ++ pathAbempty relaxed ||| pathAbsolute relaxed
    ||| pathNoscheme relaxed ||| pathEmpty relaxed

def hierPart : Pattern :=
  literal "//" ++ authority relaxed ++ pathAbempty relaxed ||| pathAbsolute relaxed
    ||| pathRootless relaxed ||| pathEmpty relaxed

end CoroutineWebserve.Http.Grammar
