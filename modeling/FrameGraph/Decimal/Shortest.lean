import FrameGraph.Decimal.Binary

/-!
# The shortest decimal

Every double is a whole number of units of 10⁻¹⁰⁷⁵, twice its units times a power of five, and so
are the midpoints to its neighbours, between which all numbers read back as the double. Of the
decimals in that interval the shortest is a multiple of the largest possible power of ten. Only
two multiples of each power can be in the interval without a larger one: the neighbours of the
double itself.
-/
namespace FrameGraph

structure Decimal where
  coefficient : Nat
  exponent : Int
  deriving DecidableEq

namespace Decimal

/-- The decimals that read back as one double, in units of 10⁻¹⁰⁷⁵: from `low` to `high`, the ends
included if `closed`. -/
structure Interval where
  low : Nat
  value : Nat
  high : Nat
  closed : Bool

def Interval.ofPattern (p : Nat) : Interval :=
  let five := Nat.pow 5 (unitPlaces + 1)
  { low := (units (p - 1) + units p) * five
    value := 2 * units p * five
    high := (units p + units (p + 1)) * five
    closed := p % 2 = 0 }

def Interval.contains (i : Interval) (n : Nat) : Bool :=
  if i.closed then i.low ≤ n && n ≤ i.high else i.low < n && n < i.high

inductive Tie where
  | upper
  | even
  deriving DecidableEq

def Tie.prefersUpper (tie : Tie) (below : Nat) : Bool :=
  match tie with
  | upper => true
  | even => below % 2 = 1

/-- The multiple of `scale` in the interval that is nearest to the value, as its quotient by
`scale`. Nothing if there is none beside the value. -/
def Interval.multiple? (i : Interval) (tie : Tie) (scale : Nat) : Option Nat :=
  let below := i.value / scale
  let above := below + 1
  let down := i.value - below * scale
  let up := above * scale - i.value
  if i.contains (below * scale) then
    if i.contains (above * scale) && (up < down || (up = down && tie.prefersUpper below)) then
      some above
    else some below
  else if i.contains (above * scale) then some above
  else none

/-- The coarsest grid, from `10 ^ power` down, that has a point in the interval. -/
def Interval.coarsest (i : Interval) (tie : Tie) : Nat → Decimal
  | 0 => ⟨i.value, -1075⟩
  | power + 1 =>
    match i.multiple? tie (Nat.pow 10 (power + 1)) with
    | some n => ⟨n, (power + 1 : Int) - 1075⟩
    | none => i.coarsest tie power

def digitCount (n : Nat) : Nat := (Nat.toDigits 10 n).length

/-- The shortest decimal that reads back as the finite positive double with this pattern, and of
several such the nearest. -/
def shortest (tie : Tie) (p : Nat) : Decimal :=
  let i := Interval.ofPattern p
  i.coarsest tie (digitCount i.value)

end Decimal

end FrameGraph
