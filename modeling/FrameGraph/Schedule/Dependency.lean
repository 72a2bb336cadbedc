/-!
# Update order

Items are numbered, and each reads from some of the others. They are ordered in rounds of waiting:
an item is placed when nothing that it reads from is left to be placed, first come first served, and
the items that can be placed from the start come in the order of their numbers. What is on a cycle,
or reads from a cycle, is never placed.
-/
namespace FrameGraph.Dependency

/-- For each item, by number, the numbers of the items it reads from, one for every connection. -/
abbrev Reads := Array (List Nat)

/-- The items that read from an item, in order, one for every connection. -/
def readersOf (reads : Reads) (source : Nat) : List Nat :=
  reads.toList.zipIdx.flatMap fun (sources, reader) =>
    (sources.filter (· = source)).map fun _ => reader

structure Progress where
  /-- The items that can be placed, the next first. -/
  waiting : List Nat
  /-- For each item how many of its connections come from items not placed yet. -/
  pending : Array Nat
  /-- The items placed so far, the latest first. -/
  placed : List Nat

namespace Progress

def start (reads : Reads) : Progress :=
  let pending := reads.map List.length
  { waiting := (List.range reads.size).filter fun i => pending[i]? = some 0
    pending
    placed := [] }

/-- One of the connections of an item has its source placed. -/
def relax (p : Progress) (reader : Nat) : Progress :=
  let left := (p.pending[reader]?.getD 0) - 1
  { p with
    pending := p.pending.setIfInBounds reader left
    waiting := if left = 0 then p.waiting ++ [reader] else p.waiting }

def step (readers : Nat → List Nat) (p : Progress) : Progress :=
  match p.waiting with
  | [] => p
  | i :: waiting =>
    (readers i).foldl relax { p with waiting, placed := i :: p.placed }

def run (readers : Nat → List Nat) : Nat → Progress → Progress
  | 0, p => p
  | steps + 1, p => run readers steps (p.step readers)

end Progress

/-- The outcome of ordering all items: every item is placed, or some are left. -/
inductive Outcome where
  | complete (order : List Nat)
  | cyclic (left : List Nat)
  deriving DecidableEq

def sort (reads : Reads) : Outcome :=
  let readers := (Array.range reads.size).map (readersOf reads)
  let p := (Progress.start reads).run (fun i => readers[i]?.getD []) reads.size
  if p.placed.length < reads.size then
    .cyclic ((List.range reads.size).filter fun i => 0 < p.pending[i]?.getD 0)
  else .complete p.placed.reverse

end FrameGraph.Dependency
