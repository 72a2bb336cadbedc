import FrameGraph.Behaviour.Schema
import FrameGraph.Window.Basic
import FrameGraph.World.Id

/-!
# Node types

A node type is a schema and what its nodes do: how they set themselves up, how they compute a
frame, what they show, and how they take themselves down. A node sees itself, the outputs connected
to its inputs and the windows, and it changes nothing but itself.
-/
namespace FrameGraph

inductive NodeState where
  | matrix (m : Matrix)
  | surface (s : Surface)
  | display (frame : Surface) (presented : Nat)
  deriving DecidableEq

def NodeState.matrix? : NodeState → Option Matrix
  | matrix m => some m
  | _ => none

def NodeState.surface? : NodeState → Option Surface
  | surface s => some s
  | _ => none

structure NodeSelf where
  name : String
  typeName : String
  owner : ScopeId
  params : List (String × Value)
  state : Option NodeState
  shape : Option OutputShape

def NodeSelf.param? (n : NodeSelf) (name : String) : Option Value := n.params.lookup name

/-- What a node sees: itself, the current output on each of its inputs, and the windows. -/
structure NodeView extends NodeSelf where
  inputs : List (String × Option Output)
  window? : ScopeId → Option Window

namespace NodeView

def output? (v : NodeView) (index : Nat) : Option Output :=
  (v.inputs[index]?).bind Prod.snd

def outputNamed? (v : NodeView) (name : String) : Option Output :=
  (v.inputs.lookup name).join

end NodeView

/-- What setting up leaves behind, and the reason if it was refused. -/
structure NodeStart where
  state : Option NodeState
  shape : Option OutputShape
  notes : List String
  refusal : Option String

/-- The state after an update or a destruction, and notes about it. -/
structure NodeChange where
  state : Option NodeState
  notes : List String

def NodeSelf.unchanged (n : NodeSelf) : NodeChange := ⟨n.state, []⟩

/-- Setting up changes nothing and is not refused. -/
def NodeSelf.ready (n : NodeSelf) : NodeStart := ⟨n.state, n.shape, [], none⟩

structure NodeType where
  name : String
  inputs : List InputSpec := []
  params : List ParamSpec := []
  /-- The kind of output that its nodes show, if they show any. -/
  produces : Option OutputKind := none
  /-- What a state shows. -/
  output : NodeState → Option Output := fun _ => none
  /-- Makes the first state and declares the shape of the output. -/
  setup : NodeView → NodeStart := fun v => v.ready
  /-- Computes the state of the next frame. -/
  update : NodeView → NodeChange := fun v => v.unchanged
  /-- Takes the node down. -/
  destroy : NodeSelf → NodeChange := NodeSelf.unchanged

end FrameGraph
