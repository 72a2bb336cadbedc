import FrameGraph.Decimal.Layout
import FrameGraph.Text.Quoted
import FrameGraph.World.Basic

/-!
# Inspection

Nodes, scopes and their types as texts for a developer: each is a record with named fields. What a
type does is not shown, only that there is more. A table shows its entries and not its slots.
-/
namespace FrameGraph.Inspect

def fields (items : List (String × String)) : List String :=
  items.map fun (field, value) => s!"{field}: {value}"

/-- A name with things in braces. -/
def braced (name : String) (items : List String) : String :=
  name ++ " \x7b " ++ ", ".intercalate items ++ " \x7d"

def record (name : String) (items : List (String × String)) : String :=
  braced name (fields items)

/-- A record with some of its fields. -/
def partialRecord (name : String) (items : List (String × String)) : String :=
  braced name (fields items ++ [".."])

def variant (name value : String) : String := s!"{name}({value})"

def bool (b : Bool) : String := if b then "true" else "false"

/-- Reals keep a fraction and stand in place from 10⁻⁴ up to 10¹⁶. -/
def realLayout : Decimal.Layout := ⟨some (-3), some 16, true, false, .upper⟩

def value : Value → String
  | .bool b => variant "Bool" (bool b)
  | .integer n => variant "Int" (toString n.toInt)
  | .real x => variant "Real" (realLayout.real x)
  | .string s => variant "Str" (Text.quoted s)

def kind : OutputKind → String
  | .matrix => "Matrix"
  | .surface => "Surface"

/-- The cells of a kind of output. -/
def element : OutputKind → String
  | .matrix => "F32"
  | .surface => "Rgba8"

def nodeId (id : NodeId) : String := variant "NodeId" (toString id.index)

def scopeId (id : ScopeId) : String := variant "ScopeId" (toString id.index)

def shape (s : OutputShape) : String :=
  record "OutputDesc" [("kind", kind s.kind), ("element", element s.kind),
    ("width", toString s.width), ("height", toString s.height)]

def input (i : InputSpec) : String :=
  record "InputSpec" [("name", Text.quoted i.name), ("mandatory", bool i.mandatory),
    ("accepts", Text.optional (i.accepted.map kind))]

def param (p : ParamSpec) : String :=
  record "ParamSpec" [("name", Text.quoted p.name), ("default", value p.default)]

def nodeType (t : NodeType) : String :=
  partialRecord "NodeDelegate" [("name", Text.quoted t.name),
    ("inputs", Text.bracketed (t.inputs.map input)),
    ("params", Text.bracketed (t.params.map param)),
    ("produces", Text.optional (t.produces.map kind))]

def scopeType (t : ScopeType) : String :=
  partialRecord "ScopeDelegate" [("name", Text.quoted t.name),
    ("params", Text.bracketed (t.params.map param))]

def node (n : Node) : String :=
  record "Node" [("name", Text.quoted n.name), ("delegate", Text.quoted n.type.name),
    ("owner", scopeId n.owner), ("parent", scopeId n.parent),
    ("inputs", Text.bracketed (n.inputs.map fun i => Text.optional (i.map nodeId))),
    ("params", Text.bracketed (n.params.map value)),
    ("output", Text.optional (n.shape.map shape))]

def scope (s : Scope) : String :=
  record "Scope" [("name", Text.quoted s.name), ("delegate", Text.quoted s.type.name),
    ("owner", Text.optional (s.owner.map scopeId)),
    ("parent", Text.optional (s.parent.map scopeId)),
    ("params", Text.bracketed (s.params.map value)), ("members", toString s.members.size)]

/-- A table: its entries, in slot order, with their keys quoted. -/
def table {α : Type} (value : α → String) (t : Table α) : String :=
  let entries := t.toList.map fun entry => s!"{Text.quoted entry.1}: {value entry.2}"
  "\x7b" ++ ", ".intercalate entries ++ "\x7d"

end FrameGraph.Inspect
