import FrameGraph.Catalog
import FrameGraph.Window.Motion

/-!
# Window scopes

A window is a scope that knows the type of trails and holds a display. The host moves its pointer
and reads the frames that the display has drawn.
-/
namespace FrameGraph.Window

/-- The length of an edge, or why it is not accepted. -/
def edge (v : ScopeView) (name : String) : Except String Nat :=
  let value := (((v.param? name).bind Value.integer?).getD 0).toInt
  if 1 ≤ value ∧ value ≤ maxEdge then .ok value.toNat
  else .error s!"{name} must be between 1 and {maxEdge}, got {value}"

/-- The window that the parameters of a scope describe, or why they describe none. -/
def describe (v : ScopeView) : Except String Window := do
  let width ← edge v "width"
  let height ← edge v "height"
  let title := ((v.param? "title").bind Value.string?).getD ""
  return { width, height, title, pointer := none }

def setup : Setup :=
  .look fun v =>
    match describe v with
    | .error reason => .fail reason
    | .ok window =>
      .keep window <|
      .defineNodeType .here "mouse-motion" motionType <| Setup.orFail <|
      .makeNode .here "display" displayType [] <| Setup.orFail <|
      .say (.windowOpened v.path window.width window.height) .done

def scopeType : ScopeType where
  name := "window"
  params := [⟨"width", .integer 640⟩, ⟨"height", .integer 480⟩, ⟨"title", .string "lumen"⟩]
  setup := setup
  destroy := fun v => [.windowClosed v.path]

def catalog : Catalog := ⟨[], [scopeType], []⟩

/-- Moves the pointer of a window. The answer tells whether the scope is one. -/
def movePointerIn (w : World) (scope : ScopeId) (x y : Float32) : World × Bool :=
  match w.window? scope with
  | none => (w, false)
  | some window =>
    (w.modifyScope scope fun s => { s with window := some (window.movePointer x y) }, true)

/-- The frame and the count of the display in a scope. -/
def display? (w : World) (scope : ScopeId) : Option (Surface × Nat) := do
  match ← (← w.scope? scope).member? "display" with
  | .node id =>
    match (← w.node? id).state with
    | some (.display frame presented) => some (frame, presented)
    | _ => none
  | _ => none

def frame? (w : World) (scope : ScopeId) : Option Surface := (display? w scope).map Prod.fst

def presented (w : World) (scope : ScopeId) : Nat := ((display? w scope).map Prod.snd).getD 0

end FrameGraph.Window
