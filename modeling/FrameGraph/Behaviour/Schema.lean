import FrameGraph.Image
import FrameGraph.Value

/-!
# Schemas

What a type says about the inputs and the parameters of its instances. Names are looked up from the
front, so of two entries with one name the first counts.
-/
namespace FrameGraph

structure InputSpec where
  name : String
  mandatory : Bool
  /-- The kind it accepts; any kind if there is none. -/
  accepted : Option OutputKind
  deriving DecidableEq

def InputSpec.accepts (i : InputSpec) (kind : OutputKind) : Bool :=
  match i.accepted with
  | none => true
  | some k => k = kind

/-- A parameter of a type. Its type is that of its default. -/
structure ParamSpec where
  name : String
  default : Value
  deriving DecidableEq

def ParamSpec.type (p : ParamSpec) : ValueType := p.default.type

def inputIndex? (inputs : List InputSpec) (name : String) : Option Nat :=
  inputs.findIdx? (·.name = name)

def paramIndex? (params : List ParamSpec) (name : String) : Option Nat :=
  params.findIdx? (·.name = name)

def defaults (params : List ParamSpec) : List Value := params.map ParamSpec.default

/-- The values under the names of their parameters. -/
def named (params : List ParamSpec) (values : List Value) : List (String × Value) :=
  (params.map ParamSpec.name).zip values

end FrameGraph
