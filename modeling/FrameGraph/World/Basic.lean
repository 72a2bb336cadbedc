import FrameGraph.Behaviour.ScopeType
import FrameGraph.Event
import FrameGraph.Table.Basic

/-!
# Worlds

A world holds every node and every scope at the place of its number. Places are never used again:
what has been taken down leaves its place empty, so an old id finds nothing. Scopes hold their
members in tables; a member is a node or a scope that the scope owns, or a type that it knows.
-/
namespace FrameGraph

structure Node where
  name : String
  type : NodeType
  /-- The scope that knows the type. -/
  owner : ScopeId
  /-- The scope that holds the node. -/
  parent : ScopeId
  /-- What each input reads from. -/
  inputs : List (Option NodeId)
  params : List Value
  /-- The shape of the output, once declared. -/
  shape : Option OutputShape
  state : Option NodeState
  isSetUp : Bool

namespace Node

def new (name : String) (type : NodeType) (owner parent : ScopeId) (params : List Value) : Node :=
  { name, type, owner, parent, params
    inputs := List.replicate type.inputs.length none
    shape := none
    state := none
    isSetUp := false }

def param? (n : Node) (name : String) : Option Value :=
  (paramIndex? n.type.params name).bind fun i => n.params[i]?

def input? (n : Node) (index : Nat) : Option NodeId := (n.inputs[index]?).join

def inputNamed? (n : Node) (name : String) : Option NodeId :=
  (inputIndex? n.type.inputs name).bind n.input?

def connect (n : Node) (index : Nat) (source : NodeId) : Node :=
  { n with inputs := n.inputs.set index (some source) }

def disconnect (n : Node) : Node :=
  { n with inputs := n.inputs.map fun _ => none }

def output? (n : Node) : Option Output := n.state.bind n.type.output

/-- The inputs with their indices and what they read from. -/
def wiring (n : Node) : List (InputSpec × Option NodeId) := n.type.inputs.zip n.inputs

def self (n : Node) : NodeSelf :=
  { name := n.name
    typeName := n.type.name
    owner := n.owner
    params := named n.type.params n.params
    state := n.state
    shape := n.shape }

end Node

/-- An entry in the namespace of a scope. -/
inductive Member where
  | node (id : NodeId)
  | scope (id : ScopeId)
  | nodeType (type : NodeType)
  | scopeType (type : ScopeType)

namespace Member

/-- What sort of member it is, as messages show it. -/
def sort : Member → String
  | node _ => "node"
  | scope _ => "scope"
  | nodeType _ => "node type"
  | scopeType _ => "scope type"

/-- The scope owns the member and takes it down with itself. -/
def isOwned : Member → Bool
  | node _ | scope _ => true
  | nodeType _ | scopeType _ => false

end Member

structure Scope where
  name : String
  type : ScopeType
  /-- The scope that knows the type; none for the root. -/
  owner : Option ScopeId
  /-- The scope that holds this one; none for the root. -/
  parent : Option ScopeId
  params : List Value
  members : Table Member
  window : Option Window
  isSetUp : Bool

namespace Scope

def new (name : String) (type : ScopeType) (owner parent : Option ScopeId)
    (params : List Value) : Scope :=
  { name, type, owner, parent, params
    members := .empty
    window := none
    isSetUp := false }

def member? (s : Scope) (name : String) : Option Member := s.members.get? name

def param? (s : Scope) (name : String) : Option Value :=
  (paramIndex? s.type.params name).bind fun i => s.params[i]?

end Scope

/-- All nodes and scopes, and what has happened to them. -/
structure World where
  nodes : Array (Option Node)
  scopes : Array (Option Scope)
  journal : Array Event

namespace World

/-- The world of an empty root, whose journal starts with the given events. -/
def new (journal : Array Event) : World :=
  ⟨#[], #[some (.new "root" (.plain "root") none none [])], journal⟩

def record (w : World) (e : Event) : World := { w with journal := w.journal.push e }

def recordAll (w : World) (es : List Event) : World := es.foldl record w

def recordNotes (w : World) (notes : List String) : World :=
  w.recordAll (notes.map fun text => .remark (.note text))

/-- The node with an id, unless it has been taken down. -/
def node? (w : World) (id : NodeId) : Option Node := (w.nodes[id.index]?).join

/-- The scope with an id, unless it has been taken down. -/
def scope? (w : World) (id : ScopeId) : Option Scope := (w.scopes[id.index]?).join

/-- Puts a node, or nothing, into the place of an id. -/
def setNode (w : World) (id : NodeId) (n : Option Node) : World :=
  { w with nodes := w.nodes.setIfInBounds id.index n }

/-- Puts a scope, or nothing, into the place of an id. -/
def setScope (w : World) (id : ScopeId) (s : Option Scope) : World :=
  { w with scopes := w.scopes.setIfInBounds id.index s }

def modifyNode (w : World) (id : NodeId) (f : Node → Node) : World :=
  match w.node? id with
  | some n => w.setNode id (some (f n))
  | none => w

def modifyScope (w : World) (id : ScopeId) (f : Scope → Scope) : World :=
  match w.scope? id with
  | some s => w.setScope id (some (f s))
  | none => w

def nodeCount (w : World) : Nat := w.nodes.countP Option.isSome

def scopeCount (w : World) : Nat := w.scopes.countP Option.isSome

def window? (w : World) (id : ScopeId) : Option Window := (w.scope? id).bind Scope.window

end World

end FrameGraph
