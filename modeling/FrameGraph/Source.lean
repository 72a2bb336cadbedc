import FrameGraph.Text.Bytes

/-!
# Places in a source text

Places are byte offsets. A line index holds the offsets at which lines start, in increasing order,
and finds the line of an offset by bisection: it is the number of starts at or before the offset.
-/
namespace FrameGraph

/-- A stretch of the source, from the byte at `start` up to the byte before `stop`. -/
structure Span where
  start : Nat
  stop : Nat
  deriving DecidableEq, Repr

namespace Span

/-- The stretch from the start of one span to the end of another. -/
def through (a b : Span) : Span := ⟨a.start, b.stop⟩

def point (offset : Nat) : Span := ⟨offset, offset⟩

end Span

structure LineIndex where
  starts : Array Nat

namespace LineIndex

/-- The starts of the lines after the first, of a text that begins at `offset`. -/
def laterStarts (offset : Nat) : List Char → List Nat
  | [] => []
  | c :: rest =>
    let next := offset + c.utf8Size
    if c = '\n' then next :: laterStarts next rest else laterStarts next rest

def ofChars (source : List Char) : LineIndex :=
  ⟨(0 :: laterStarts 0 source).toArray⟩

def ofSource (source : String) : LineIndex := ofChars source.toList

/-- How many starts are at or before the offset, given that the ones below `low` are and the ones
from `high` on are not; at most `steps` halvings. -/
def bisect (starts : Array Nat) (offset : Nat) : Nat → Nat → Nat → Nat
  | 0, low, _ => low
  | steps + 1, low, high =>
    if low < high then
      let middle := (low + high) / 2
      if starts[middle]?.any (· ≤ offset) then bisect starts offset steps (middle + 1) high
      else bisect starts offset steps low middle
    else low

/-- The line of an offset, counted from 1. -/
def line (index : LineIndex) (offset : Nat) : Nat :=
  bisect index.starts offset index.starts.size 0 index.starts.size

end LineIndex

end FrameGraph
