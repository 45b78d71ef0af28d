import CoroutineWebserve.Ragel.Pattern

/-!
# The grammar of `uri.rl`

Its definitions, in its order. An alphabet of signed characters is meant: `any -- ascii` are the
bytes from 128 on.
-/
namespace CoroutineWebserve.Uri.Grammar
open Ragel Pattern

def alpha : Pattern := byte [(65,90),(97,122)]
def digit : Pattern := byte [(48,57)]
def xdigit : Pattern := byte [(48,57),(65,70),(97,102)]

def subDelims : Pattern := oneOf "!$&'()*+,;="
def unreserved : Pattern := alpha ||| digit ||| oneOf "-._~"
def pctEncoded : Pattern := char '%' ++ xdigit ++ xdigit

def scheme : Pattern := alpha ++ (alpha ||| digit ||| oneOf "+-.").star

def userinfo : Pattern := (unreserved ||| pctEncoded ||| subDelims ||| char ':').star

/-- The `2` of `2 [0-4] digit` has no quotes: it is the byte 2. -/
def decOctet : Pattern :=
  digit ||| byte [(49,57)] ++ digit ||| char '1' ++ digit.times 2
    ||| byte [(2,2)] ++ byte [(48,52)] ++ digit ||| literal "25" ++ byte [(48,53)]

def ipv4Address : Pattern :=
  decOctet ++ char '.' ++ decOctet ++ char '.' ++ decOctet ++ char '.' ++ decOctet
def h16 : Pattern := xdigit ++ xdigit.atMost 3
def ls32 : Pattern := h16 ++ char ':' ++ h16 ||| ipv4Address

/-- `(h16 ":"){n}`. -/
def pieces (n : ℕ) : Pattern := (h16 ++ char ':').times n

/-- `((h16 ":"){n} h16)?`. -/
def leading (n : ℕ) : Pattern := (pieces n ++ h16).opt

def ipv6Address : Pattern :=
  pieces 6 ++ ls32
    ||| literal "::" ++ pieces 5 ++ ls32
    ||| leading 0 ++ literal "::" ++ pieces 4 ++ ls32
    ||| leading 1 ++ literal "::" ++ pieces 3 ++ ls32
    ||| leading 2 ++ literal "::" ++ pieces 2 ++ ls32
    ||| leading 3 ++ literal "::" ++ pieces 1 ++ ls32
    ||| leading 4 ++ literal "::" ++ ls32
    ||| leading 5 ++ literal "::" ++ h16
    ||| leading 6 ++ literal "::"

def ipvFuture : Pattern :=
  char 'v' ++ xdigit.plus ++ char '.' ++ (unreserved ||| subDelims ||| char ':').plus
def ipLiteral : Pattern := char '[' ++ (ipv6Address ||| ipvFuture) ++ char ']'
def regName : Pattern := (unreserved ||| pctEncoded ||| subDelims).star
def host : Pattern := ipLiteral ||| ipv4Address ||| regName
def port : Pattern := digit.star

/-- `pchar - ":"`; `pchar` has the colon besides. -/
def pcharNc : Pattern :=
  byte [(128,255)] ||| unreserved ||| pctEncoded ||| subDelims ||| char '@'
def pchar : Pattern :=
  byte [(128,255)] ||| unreserved ||| pctEncoded ||| subDelims ||| char ':' ||| char '@'
def segment : Pattern := pchar.star
def segmentNz : Pattern := pchar.plus
def segmentNzNc : Pattern := pcharNc.plus

def pathAbempty : Pattern := (char '/' ++ segment).opt ++ (char '/' ++ segment).star
def pathAbsolute : Pattern := char '/' ++ (segmentNz ++ (char '/' ++ segment).star).opt
def pathNoscheme : Pattern := segmentNzNc ++ (char '/' ++ segment).star
def pathRootless : Pattern := segmentNz ++ (char '/' ++ segment).star

def query : Pattern := (pchar ||| char '/' ||| char '?').star
def fragment : Pattern := (pchar ||| char '/' ||| char '?').star

end CoroutineWebserve.Uri.Grammar
