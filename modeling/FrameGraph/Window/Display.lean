import FrameGraph.Behaviour.NodeType

/-!
# The display

A display shows what is connected to its only input: each frame it draws it over the whole window,
every pixel taking the nearest place of the source, and counts the frames.
-/
namespace FrameGraph.Window

def ofNode (v : NodeView) : Except String Window :=
  match v.window? v.owner with
  | some w => .ok w
  | none => .error s!"'{v.typeName}' must be created inside a window"

/-- The opaque gray for a brightness between 0 and 1; what lies beyond is cut off. -/
def gray (v : Float32) : UInt32 :=
  let v := if v < 0 then 0 else if 1 < v then 1 else v
  let g := (v * 255).round.toUInt32
  g <<< 24 ||| g <<< 16 ||| g <<< 8 ||| 0xff

/-- Draws a source over a whole frame: the pixel in column `x` takes the source's column
`x * sourceWidth / width`, and its row likewise. A source without cells draws nothing. -/
def resample (frame : Surface) (sourceWidth sourceHeight : Nat) (sample : Nat → Nat → UInt32) :
    Surface :=
  if sourceWidth = 0 ∨ sourceHeight = 0 then frame
  else
    frame.mapPlaces fun x y _ =>
      sample (x * sourceWidth / frame.width) (y * sourceHeight / frame.height)

def draw (frame : Surface) : Output → Surface
  | .matrix m => resample frame m.width m.height fun x y => gray ((m.get? x y).getD 0)
  | .surface s => resample frame s.width s.height fun x y => (s.get? x y).getD 0

/-- A display starts with a blank frame of the window's size. -/
def startDisplay (v : NodeView) : NodeStart :=
  match ofNode v with
  | .error reason => { v.ready with refusal := some reason }
  | .ok w => { v.ready with state := some (.display (.blank w.width w.height) 0) }

/-- Draws the source, if there is one, and counts the frame. -/
def updateDisplay (v : NodeView) : NodeChange :=
  match v.state with
  | some (.display frame presented) =>
    let frame := match v.output? 0 with
      | some output => draw frame output
      | none => frame
    ⟨some (.display frame (presented + 1)), []⟩
  | state => ⟨state, []⟩

def displayType : NodeType where
  name := "display"
  inputs := [⟨"source", true, none⟩]
  setup := startDisplay
  update := updateDisplay

end FrameGraph.Window
