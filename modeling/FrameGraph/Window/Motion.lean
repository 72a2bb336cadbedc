import FrameGraph.Decimal.Layout
import FrameGraph.Window.Display

/-!
# The pointer's trail

A trail is a matrix of the window's size. Each frame it fades by a factor, and where the pointer is,
a disc is stamped into it at full brightness.
-/
namespace FrameGraph.Window

/-- The numbers from `c - radius` to `c + radius` that are below `size`. -/
def reach (c radius : Int) (size : Nat) : List Nat :=
  let low := (c - radius).toNat
  let high := min (c + radius + 1).toNat size
  List.range' low (high - low)

def inDisc (cx cy radius : Int) (x y : Nat) : Bool :=
  (x - cx) * (x - cx) + (y - cy) * (y - cy) ≤ radius * radius

/-- Stamps a disc around `(cx, cy)`, as much of it as is inside the matrix. -/
def stamp (m : Matrix) (cx cy radius : Int) : Matrix :=
  (reach cy radius m.height).foldl (fun m y =>
    (reach cx radius m.width).foldl (fun m x =>
      if inDisc cx cy radius x y then m.set x y 1 else m) m) m

def wholePart (x : Float32) : Int := x.toUInt64.toNat

def decayOf (n : NodeSelf) : Float := ((n.param? "decay").bind Value.real?).getD 0.9

def radiusOf (n : NodeSelf) : Int := (((n.param? "radius").bind Value.integer?).getD 1).toInt

/-- The radius of the disc, kept within the size of the trail. -/
def clampRadius (radius : Int) (m : Matrix) : Int :=
  max 0 (min radius (max m.width m.height))

/-- The next trail: faded, and with a disc where the pointer is. -/
def nextTrail (trail : Matrix) (decay : Float32) (radius : Int)
    (pointer : Option (Float32 × Float32)) : Matrix :=
  let faded := trail.map (· * decay)
  match pointer with
  | none => faded
  | some (x, y) => stamp faded (wholePart x) (wholePart y) (clampRadius radius trail)

/-- A trail starts dark, and its parameters have to be within bounds. -/
def startMotion (v : NodeView) : NodeStart :=
  match ofNode v with
  | .error reason => { v.ready with refusal := some reason }
  | .ok w =>
    let decay := decayOf v.toNodeSelf
    let radius := radiusOf v.toNodeSelf
    let reach := max w.width w.height
    if !(0 ≤ decay && decay ≤ 1) then
      { v.ready with
        refusal := some s!"decay must be within [0, 1], got {Decimal.plain.real decay}" }
    else if radius < 0 ∨ (reach : Int) < radius then
      { v.ready with refusal := some s!"radius must be between 0 and {reach}, got {radius}" }
    else
      { v.ready with
        state := some (.matrix (.zeros w.width w.height))
        shape := some ⟨.matrix, w.width, w.height⟩ }

/-- Fades the trail and follows the pointer of the window. -/
def updateMotion (v : NodeView) : NodeChange :=
  match v.state with
  | some (.matrix trail) =>
    let pointer := (v.window? v.owner).bind Window.pointer
    let decay := (decayOf v.toNodeSelf).toFloat32
    ⟨some (.matrix (nextTrail trail decay (radiusOf v.toNodeSelf) pointer)), []⟩
  | state => ⟨state, []⟩

def motionType : NodeType where
  name := "mouse-motion"
  params := [⟨"decay", .real 0.9⟩, ⟨"radius", .integer 1⟩]
  produces := some .matrix
  output := fun state => state.matrix?.map .matrix
  setup := startMotion
  update := updateMotion

end FrameGraph.Window
