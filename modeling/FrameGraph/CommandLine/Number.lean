import FrameGraph.Decimal.Binary

/-!
# Numbers on the command line

A count is decimal digits, perhaps behind a plus sign, and fits into 64 bits. A real is a decimal
with an optional sign, point and exponent, or one of the words for infinity and for no number.
-/
namespace FrameGraph.CommandLine

/-- A count of at most 64 bits. -/
def readCount? (text : String) : Option Nat :=
  let digits := match text.toList with
    | '+' :: rest => rest
    | chars => chars
  if digits.isEmpty || !digits.all Char.isDigit then none
  else
    let value := Decimal.digitsValue digits
    if value < UInt64.size then some value else none

def readSign (chars : List Char) : Bool × List Char :=
  match chars with
  | '-' :: rest => (true, rest)
  | '+' :: rest => (false, rest)
  | rest => (false, rest)

def readExponent? (chars : List Char) : Option Int :=
  match chars with
  | [] => some 0
  | e :: rest =>
    let (negative, digits) := readSign rest
    if (e = 'e' || e = 'E') && !digits.isEmpty && digits.all Char.isDigit then
      let value : Int := Decimal.digitsValue digits
      some (if negative then -value else value)
    else none

/-- The largest exponent that is not infinitely large for a number of so many digits. -/
def exponentBound (digits : Nat) : Int := 400 + digits

/-- The double nearest to `digits * 10 ^ exponent`. -/
def scaled (digits : List Char) (exponent : Int) : Float :=
  let bound := exponentBound digits.length
  Decimal.ofScientific (Decimal.digitsValue digits) (max (-bound) (min bound exponent))

def readMagnitude? (chars : List Char) : Option Float :=
  let whole := chars.takeWhile Char.isDigit
  let (fraction, rest) := match chars.dropWhile Char.isDigit with
    | '.' :: rest => (rest.takeWhile Char.isDigit, rest.dropWhile Char.isDigit)
    | rest => ([], rest)
  let digits := whole ++ fraction
  if digits.isEmpty then none
  else (readExponent? rest).map fun e => scaled digits (e - fraction.length)

def readReal? (text : String) : Option Float :=
  let (negative, chars) := readSign text.toList
  let lower := String.ofList (chars.map Char.toLower)
  let magnitude :=
    if lower = "inf" || lower = "infinity" then some (Float.ofBits 0x7ff0000000000000)
    else if lower = "nan" then some (Float.ofBits 0x7ff8000000000000)
    else readMagnitude? chars
  if negative then magnitude.map Neg.neg else magnitude

end FrameGraph.CommandLine
