/-!
# Binary magnitudes

The magnitudes of the doubles form an increasing ladder: the pattern of the 63 low bits, read as a
number, is the step, and every step is a whole number of units of 2⁻¹⁰⁷⁴. Reading a decimal is then
a search on the ladder, in exact arithmetic: the highest step not above the number, or its
successor when that is nearer, a tie going to the even pattern.
-/
namespace FrameGraph.Decimal

/-- How many bits of a pattern are the fraction. -/
def fractionBits : Nat := 52

/-- How many bits a pattern has; the one above them is the sign. -/
def patternBits : Nat := 63

/-- How many binary places a unit has. -/
def unitPlaces : Nat := 1074

/-- The pattern of infinity: the first step that no finite double has. -/
def infinite : Nat := 0x7ff * Nat.pow 2 fractionBits

/-- The magnitude at a step, in units of 2⁻¹⁰⁷⁴. -/
def units (pattern : Nat) : Nat :=
  let exponent := pattern / Nat.pow 2 fractionBits
  let fraction := pattern % Nat.pow 2 fractionBits
  if exponent = 0 then fraction else (Nat.pow 2 fractionBits + fraction) * Nat.pow 2 (exponent - 1)

/-- Adds to `low` those of the next `bits` powers of two that keep the step at or below
`num / den` units, the largest power first. -/
def climb (num den : Nat) : Nat → Nat → Nat
  | 0, low => low
  | bits + 1, low =>
    let step := low + Nat.pow 2 bits
    if step ≤ infinite ∧ units step * den ≤ num then climb num den bits step
    else climb num den bits low

/-- The step nearest to `num / den` units; a tie goes to the even pattern, and what lies beyond
the last finite double rounds to infinity. -/
def nearest (num den : Nat) : Nat :=
  let low := climb num den patternBits 0
  if low = infinite then infinite
  else
    let twice := 2 * num
    let middle := (units low + units (low + 1)) * den
    if twice < middle then low
    else if middle < twice then low + 1
    else if low % 2 = 0 then low else low + 1

def one : Nat := Nat.pow 2 unitPlaces

def ofRatio (num den : Nat) : Float :=
  Float.ofBits (nearest (num * one) den).toUInt64

def ofScientific (coefficient : Nat) (exponent : Int) : Float :=
  if exponent < 0 then ofRatio coefficient (Nat.pow 10 exponent.natAbs)
  else ofRatio (coefficient * Nat.pow 10 exponent.natAbs) 1

def ofInt (n : Int) : Float :=
  let p := nearest (n.natAbs * one) 1
  Float.ofBits (if n < 0 then Nat.pow 2 patternBits + p else p).toUInt64

def digitsValue (digits : List Char) : Nat :=
  digits.foldl (fun value d => value * 10 + (d.toNat - '0'.toNat)) 0

/-- The double nearest to the decimal with these whole and fractional digits. -/
def read (whole fraction : List Char) : Float :=
  ofRatio (digitsValue (whole ++ fraction)) (Nat.pow 10 fraction.length)

/-- A double without its sign: the pattern of its 63 low bits. -/
def pattern (x : Float) : Nat := x.toBits.toNat % Nat.pow 2 patternBits

def isNegative (x : Float) : Bool := Nat.pow 2 patternBits ≤ x.toBits.toNat

end FrameGraph.Decimal
