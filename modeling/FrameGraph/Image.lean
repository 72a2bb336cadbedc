/-!
# Images

What nodes hand to each other: matrices of reals and surfaces of pixels, both grids stored row by
row. A grid carries the proof that it has a cell for every place, so a place inside it always has a
value.
-/
namespace FrameGraph

structure Grid (α : Type) where
  width : Nat
  height : Nat
  cells : Array α
  size_cells : cells.size = width * height
  deriving DecidableEq

namespace Grid

variable {α β : Type}

def fill (width height : Nat) (a : α) : Grid α :=
  ⟨width, height, Array.replicate (width * height) a, by simp⟩

/-- Where the cell in column `x` and row `y` is stored. -/
def index (g : Grid α) (x y : Nat) : Nat := y * g.width + x

def get? (g : Grid α) (x y : Nat) : Option α := g.cells[g.index x y]?

def set (g : Grid α) (x y : Nat) (a : α) : Grid α :=
  { g with
    cells := g.cells.setIfInBounds (g.index x y) a
    size_cells := by simp [g.size_cells] }

def rows (g : Grid α) : List (List α) :=
  (List.range g.height).map fun y => (List.range g.width).filterMap fun x => g.get? x y

/-- Changes every cell, knowing its place in storage. -/
def mapIdx (g : Grid α) (f : Nat → α → β) : Grid β :=
  ⟨g.width, g.height, g.cells.mapIdx f, by simp [g.size_cells]⟩

def map (g : Grid α) (f : α → β) : Grid β := g.mapIdx fun _ => f

def mapPlaces (g : Grid α) (f : Nat → Nat → α → β) : Grid β :=
  g.mapIdx fun i => f (i % g.width) (i / g.width)

end Grid

abbrev Matrix := Grid Float32

/-- A surface of pixels: red, green, blue and opacity, a byte each, from the high end. -/
abbrev Surface := Grid UInt32

def Matrix.zeros (width height : Nat) : Matrix := Grid.fill width height 0

def Surface.blank (width height : Nat) : Surface := Grid.fill width height 0

def pixelBytes (p : UInt32) : List UInt8 :=
  [24, 16, 8, 0].map fun shift => (p.toNat >>> shift).toUInt8

def Surface.bytes (s : Surface) : ByteArray := ⟨(s.cells.toList.flatMap pixelBytes).toArray⟩

/-- What kind of data a node produces, or an input accepts. -/
inductive OutputKind where
  | matrix
  | surface
  deriving DecidableEq, Repr

def OutputKind.name : OutputKind → String
  | matrix => "matrix"
  | surface => "surface"

/-- The shape that a node declares for its output during setup. -/
structure OutputShape where
  kind : OutputKind
  width : Nat
  height : Nat
  deriving DecidableEq

inductive Output where
  | matrix (m : Matrix)
  | surface (s : Surface)
  deriving DecidableEq

def Output.kind : Output → OutputKind
  | matrix _ => .matrix
  | surface _ => .surface

end FrameGraph
