import LAppS.Lexing.Regex
import Mathlib.Order.Defs.LinearOrder

/-!
# The rules of the URI scanners

The definitions of `uri_parser.re2c` under their names. Some classes are wider than the names say: `path_charset` has
`?` and `#`, and `password_character` has `/` and `#`.
-/

namespace LAppS.URIView.Grammar
open Regex

abbrev Rule := Regex UInt8

def ALPHA : Rule := ranges [(97, 122), (65, 90)]

def hexdigit : Rule := ranges [(48, 57), (97, 102), (65, 70)]

def digit : Rule := ranges [(48, 57)]

def PCTHEX : Rule := comp (char 37) (times 2 hexdigit)

def utf8Tail : Rule := ranges [(0x80, 0xbf)]

def utf8_2 : Rule := comp (ranges [(0xc2, 0xdf)]) utf8Tail

def utf8_3 : Rule :=
  sum [prod [char 0xe0, ranges [(0xa0, 0xbf)], utf8Tail], comp (ranges [(0xe1, 0xec)]) (times 2 utf8Tail),
    prod [char 0xed, ranges [(0x80, 0x9f)], utf8Tail], comp (ranges [(0xee, 0xef)]) (times 2 utf8Tail)]

def utf8_4 : Rule :=
  sum [prod [char 0xf0, ranges [(0x90, 0xbf)], times 2 utf8Tail], comp (ranges [(0xf1, 0xf3)]) (times 3 utf8Tail),
    prod [char 0xf4, ranges [(0x80, 0x8f)], times 2 utf8Tail]]

def domainNameUtf8Charset : Rule :=
  sum [utf8_2, utf8_3, utf8_4, ranges [(0x30, 0x39), (0x41, 0x5a), (0x61, 0x7a)]]

def domainNameUtf8 : Rule :=
  many1 (plus (many1 domainNameUtf8Charset)
    (prod [many1 domainNameUtf8Charset, ranges [(46, 46), (45, 45)], many1 domainNameUtf8Charset]))

def pathUtf8Charset : Rule :=
  sum [utf8_2, utf8_3, utf8_4, ranges [(0x24, 0x29)], ranges [(0x2b, 0x2e)], ranges [(0x30, 0x3e)],
    ranges [(0x40, 0x5b)], ranges [(0x5d, 0x7e)], PCTHEX]

def queryUtf8Charset : Rule :=
  sum [utf8_2, utf8_3, utf8_4, ranges [(0x21, 0x22), (0x24, 0x2e)], ranges [(0x30, 0x5b)], ranges [(0x61, 0x7e)], PCTHEX]

def passwordCharacter : Rule := sum [utf8_2, utf8_3, utf8_4, ranges [(0x21, 0x39), (0x41, 0xff)]]

def unreserved : Rule := sum [ALPHA, digit, ranges [(45, 45), (46, 46), (95, 95), (126, 126)]]

def subDelims : Rule := ranges [(33, 33), (36, 36), (38, 44), (59, 59), (61, 61)]

def decOctet : Rule :=
  sum [digit, comp (ranges [(0x31, 0x39)]) digit, comp (char 49) (times 2 digit),
    prod [char 50, ranges [(0x30, 0x34)], digit], prod [char 50, char 53, ranges [(0x30, 0x35)]]]

def ipv4address : Rule := prod [decOctet, char 46, decOctet, char 46, decOctet, char 46, decOctet]

def h16 : Rule := comp hexdigit (atMost 3 hexdigit)

def ls32 : Rule := plus (prod [h16, char 58, h16]) ipv4address

/-- `(h16 ":"){n}`. -/
def h16s (n : Nat) : Rule := times n (comp h16 (char 58))

/-- `((h16 ":"){0,n} h16)? "::"`. -/
def elided (n : Nat) : Rule := comp (opt (comp (atMost n (comp h16 (char 58))) h16)) (string [58, 58])

def ipv6address : Rule :=
  sum [comp (h16s 6) ls32, prod [string [58, 58], h16s 5, ls32], prod [elided 0, h16s 4, ls32],
    prod [elided 1, h16s 3, ls32], prod [elided 2, h16s 2, ls32], prod [elided 3, h16, char 58, ls32],
    comp (elided 4) ls32, comp (elided 5) h16, elided 6]

def ipvfuture : Rule := prod [char 118, many1 hexdigit, char 46, many1 (sum [unreserved, subDelims, char 58])]

def ipLiteral : Rule := prod [char 91, plus ipv6address ipvfuture, char 93]

def pathCharset : Rule := plus pathUtf8Charset (ranges [(0x21, 0x2e), (0x30, 0x7e)])

/-- `[/] path_charset+`. -/
def pathSegment : Rule := comp (char 47) (many1 pathCharset)

def pathAbempty : Rule := plus (char 47) (comp (star pathSegment) (opt (char 47)))

/-- `[a-z0-9]+([-][a-z0-9]+)*`. -/
def punycodeLabel : Rule :=
  let letters := many1 (ranges [(97, 122), (48, 57)])
  comp letters (star (comp (char 45) letters))

def punycode : Rule :=
  prod [string [120, 110, 45, 45], punycodeLabel, char 46, opt (string [120, 110, 45, 45]), many1 punycodeLabel]

def host : Rule := sum [ipLiteral, ipv4address, domainNameUtf8, punycode]

def port : Rule := comp (ranges [(49, 57)]) (atMost 4 digit)

def queryCharacters : Rule := star (plus (many1 queryUtf8Charset) (ranges [(47, 47), (63, 63)]))

def query : Rule := comp (char 63) queryCharacters

def fragment : Rule := comp (char 35) queryCharacters

/-- The class `[+-.]` is a range. -/
def scheme : Rule := comp ALPHA (star (sum [ALPHA, digit, ranges [(43, 46)]]))

def username : Rule := comp ALPHA (star (sum [ALPHA, digit, char 46]))

def userinfo : Rule := prod [username, opt (comp (char 58) (many1 passwordCharacter)), char 64]

/-- The text `://`. -/
def schemeEnd : List UInt8 := [58, 47, 47]

def schema : Rule := comp scheme (string schemeEnd)

end LAppS.URIView.Grammar
