/-!
# Running statistics

Count, mean, spread and extremes of a series of samples, kept without the samples: each new one
moves the mean by its share of the distance, and adds to the sum of squared deviations the product
of its distances to the old and to the new mean. The recurrence is the same over every field; times
are measured over the doubles, where the order of the operations shows.
-/
namespace FrameGraph

/-- A natural number as the nearest double. -/
instance natCastFloat : NatCast Float := ⟨Float.ofNat⟩

/-- What is known of the samples so far. -/
structure Stats (α : Type) where
  count : Nat
  mean : α
  /-- The sum of the squared deviations from the mean. -/
  squares : α
  least : α
  greatest : α

namespace Stats

variable {α : Type} [NatCast α]

def empty : Stats α := ⟨0, ((0 : Nat) : α), ((0 : Nat) : α), ((0 : Nat) : α), ((0 : Nat) : α)⟩

def push [Add α] [Sub α] [Mul α] [Div α] [Min α] [Max α] (s : Stats α) (x : α) : Stats α :=
  let count := s.count + 1
  let delta := x - s.mean
  let mean := s.mean + delta / (count : α)
  { count
    mean
    squares := s.squares + delta * (x - mean)
    least := if s.count = 0 then x else min s.least x
    greatest := if s.count = 0 then x else max s.greatest x }

/-- The sample standard deviation; zero below two samples. -/
def deviation (s : Stats Float) : Float :=
  if s.count < 2 then 0 else (s.squares / ((s.count - 1 : Nat) : Float)).sqrt

def microseconds (nanos : UInt64) : Float := nanos.toFloat / 1000

def pushNanos (s : Stats Float) (nanos : UInt64) : Stats Float := s.push (microseconds nanos)

end Stats

end FrameGraph
