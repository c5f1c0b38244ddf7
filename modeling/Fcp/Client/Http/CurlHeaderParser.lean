import Mathlib.Algebra.Order.Ring.Nat

/-!
# The parser of response headers (curl_header_parser.cc)

The parser keeps the status and the headers of the last status line and decides which line is the
last one.
-/

namespace Fcp.Client.Http.Curl

abbrev Text := List Char

abbrev HeaderList := List (Text × Text)

/-- The first two pieces of `absl::StrSplit`, as a pair has no room for more. -/
def splitPair (separator : Char) (s : Text) : Text × Text :=
  (s.takeWhile (·≠separator),(s.dropWhile (·≠separator)).tail.takeWhile (·≠separator))

def isAsciiSpace (c : Char) : Bool := c = ' ' ∨ 9≤c.toNat ∧ c.toNat≤13

variable (s : Text)

def stripAsciiWhitespace : Text :=
  ((s.dropWhile isAsciiSpace).reverse.dropWhile isAsciiSpace).reverse

def parseDigits : Option ℤ :=
  if s≠[] ∧ s.all Char.isDigit then
    some (s.foldl (fun n digit => 10*n+(digit.toNat - '0'.toNat : ℕ)) 0)
  else none

/-- `absl::SimpleAtoi` on a text that is too short for an overflow. -/
def simpleAtoi : Option ℤ :=
  match stripAsciiWhitespace s with
  | '-'::digits => (parseDigits digits).map (- ·)
  | '+'::digits => parseDigits digits
  | digits => parseDigits digits

def equalsIgnoreCase (s t : Text) : Bool := s.map Char.toLower=t.map Char.toLower

def kHttpMovedPermanently : ℤ := 301

def kEncodingHdrs : List Text :=
  ["Content-Encoding".toList,"Content-Length".toList,"Transfer-Encoding".toList]

structure CurlHeaderParser where
  statusCode : ℤ := -1
  headerList : HeaderList := []
  isLastHeaderLine : Bool := false
  useCurlEncoding : Bool := false
  deriving DecidableEq

namespace CurlHeaderParser

variable (p : CurlHeaderParser) (line : Text)

def parseAsStatus : Option CurlHeaderParser :=
  if "HTTP/".toList.isPrefixOf line then
    (simpleAtoi ((splitPair ' ' line).2.take 3)).map fun statusCode =>
      { p with statusCode := statusCode, headerList := [] }
  else none

def parseAsHeader : Option CurlHeaderParser :=
  if ':'∈line then
    let (key,value) := splitPair ':' line
    if !p.useCurlEncoding || !kEncodingHdrs.any (equalsIgnoreCase key) then
      some { p with headerList := p.headerList++[(key,stripAsciiWhitespace value)] }
    else some p
  else none

def parseAsLastLine : Option CurlHeaderParser :=
  if line="\r\n".toList ∧ p.statusCode≠kHttpMovedPermanently then
    some { p with isLastHeaderLine := true }
  else none

def parseHeader : CurlHeaderParser :=
  (((p.parseAsStatus line).or (p.parseAsHeader line)).or (p.parseAsLastLine line)).getD p

end CurlHeaderParser

end Fcp.Client.Http.Curl
