/-!
# Windows

What a window scope holds: its size, its title, and where the pointer is while it is inside.
-/
namespace FrameGraph

structure Window where
  width : Nat
  height : Nat
  title : String
  /-- The pointer in window pixels, while it is inside. -/
  pointer : Option (Float32 × Float32)
  deriving DecidableEq

namespace Window

/-- The longest edge, in pixels. -/
def maxEdge : Nat := 8192

def inside (w : Window) (x y : Float32) : Bool :=
  0 ≤ x && 0 ≤ y && x < w.width.toUInt32.toFloat32 && y < w.height.toUInt32.toFloat32

/-- Moves the pointer; outside the window it is nowhere. -/
def movePointer (w : Window) (x y : Float32) : Window :=
  { w with pointer := if w.inside x y then some (x, y) else none }

end Window

end FrameGraph
