import FrameGraph.Decimal.Shortest

/-!
# Decimal layouts

The digits of a number are one thing and their layout another. A `Layout` says up to which size
the digits stand in place, how an exponent is written, and whether a whole number keeps a fraction.
It also says which digits are taken where two choices are equally good.
-/
namespace FrameGraph.Decimal

/-- How the digits of a real are laid out. `point` is the place of the decimal point, counted from
before the first digit: 1 for `1.5`, 0 for `0.5`, -1 for `0.05`. -/
structure Layout where
  /-- A point left of this place calls for an exponent. -/
  leftmost : Option Int
  /-- A point right of this place calls for an exponent. -/
  rightmost : Option Int
  /-- A whole number in place ends in `.0`. -/
  keepsFraction : Bool
  /-- A positive exponent has its sign. -/
  signsExponent : Bool
  /-- Which of two equally near decimals is taken. -/
  tie : Tie

def inPlace (digits : List Char) (point : Int) (keepsFraction : Bool) : List Char :=
  if point ≤ 0 then
    '0' :: '.' :: List.replicate (-point).toNat '0' ++ digits
  else
    let whole := digits.take point.toNat ++ List.replicate (point.toNat - digits.length) '0'
    match digits.drop point.toNat with
    | [] => whole ++ if keepsFraction then ['.', '0'] else []
    | fraction => whole ++ '.' :: fraction

def withExponent (digits : List Char) (exponent : Int) (signsExponent : Bool) : List Char :=
  let sign := if exponent < 0 then ['-'] else if signsExponent then ['+'] else []
  let mantissa := match digits with
    | [] => []
    | [d] => [d]
    | d :: rest => d :: '.' :: rest
  mantissa ++ 'e' :: sign ++ Nat.toDigits 10 exponent.natAbs

def Layout.decimal (l : Layout) (d : Decimal) : List Char :=
  let digits := Nat.toDigits 10 d.coefficient
  let point : Int := digits.length + d.exponent
  let tooSmall := l.leftmost.any (point < ·)
  let tooLarge := l.rightmost.any (· < point)
  if tooSmall || tooLarge then withExponent digits (point - 1) l.signsExponent
  else inPlace digits point l.keepsFraction

def Layout.magnitude (l : Layout) (p : Nat) : List Char :=
  if p = 0 then (if l.keepsFraction then ['0', '.', '0'] else ['0'])
  else l.decimal (shortest l.tie p)

def Layout.real (l : Layout) (x : Float) : String :=
  let p := pattern x
  if infinite < p then "NaN"
  else
    let sign := if isNegative x then ['-'] else []
    String.ofList (sign ++ if p = infinite then "inf".toList else l.magnitude p)

/-- All digits in place, a whole number without a point. -/
def plain : Layout := ⟨none, none, false, false, .upper⟩

/-- The number rounded to one decimal, a half going to the even digit. -/
def toTenth (x : Float) : String :=
  let p := pattern x
  if infinite < p then "NaN"
  else
    let sign := if isNegative x then "-" else ""
    if p = infinite then sign ++ "inf"
    else
      let num := units p * 10
      let low := num / one
      let rest := 2 * (num % one)
      let tenths := if rest < one then low else if one < rest then low + 1
        else if low % 2 = 0 then low else low + 1
      s!"{sign}{tenths / 10}.{tenths % 10}"

end FrameGraph.Decimal
