import FrameGraph.Behaviour.NodeType

/-!
# Scope types

A scope type is a schema and how its scopes set themselves up. Setting up is a program: a tree of
steps, each of which looks at the scope, keeps something, or makes a member, and goes on according
to the answer. Programs are data, so what a setup does can be read off it: a setup that names no
other place creates inside its own scope only.
-/
namespace FrameGraph

inductive WorldError where
  | alreadyDefined (name scope : String)
  | scopeSetup (name reason : String)
  deriving DecidableEq

def WorldError.message : WorldError → String
  | alreadyDefined name scope => s!"'{name}' is already defined in '{scope}'"
  | scopeSetup name reason => s!"setup of scope '{name}' failed: {reason}"

/-- Something a behaviour says about itself. -/
inductive Remark where
  | note (text : String)
  | windowOpened (path : String) (width height : Nat)
  | windowClosed (path : String)
  deriving DecidableEq

structure ScopeView where
  id : ScopeId
  parent : Option ScopeId
  path : String
  params : List (String × Value)

def ScopeView.param? (s : ScopeView) (name : String) : Option Value := s.params.lookup name

/-- The scope in which a member is made: the one being set up, or another. -/
inductive Location where
  | here
  | inside (scope : ScopeId)
  deriving DecidableEq

/-- A type of scopes, over the programs that set them up. -/
structure ScopeTypeOver (σ : Type) where
  name : String
  params : List ParamSpec
  setup : σ
  /-- What is said when a scope is taken down, after everything in it. Taking a scope down leaves the
  rest of the world alone: a type can only say something here, and change nothing. -/
  destroy : ScopeView → List Remark

/-- A program that sets up a scope. It enters only what it makes: no step gives an existing node or
scope another entry, connects nodes, or takes anything down. What is said of any world whatever, as of
builds, frames and runs, does not rest on this. -/
inductive Setup where
  /-- The scope is set up. -/
  | done
  /-- The scope cannot be set up. -/
  | fail (reason : String)
  /-- Looks at the scope. -/
  | look (next : ScopeView → Setup)
  /-- Says something. -/
  | say (remark : Remark) (next : Setup)
  /-- Keeps a window in the scope. -/
  | keep (window : Window) (next : Setup)
  /-- Makes a node type known under a name. -/
  | defineNodeType (location : Location) (name : String) (type : NodeType)
      (next : Except WorldError Unit → Setup)
  /-- Makes a scope type known under a name. -/
  | defineScopeType (location : Location) (name : String) (type : ScopeTypeOver Setup)
      (next : Except WorldError Unit → Setup)
  /-- Makes a node. -/
  | makeNode (location : Location) (name : String) (type : NodeType) (params : List Value)
      (next : Except WorldError NodeId → Setup)
  /-- Makes a scope, which is set up before anything else happens. -/
  | makeScope (location : Location) (name : String) (type : ScopeTypeOver Setup)
      (params : List Value) (next : Except WorldError ScopeId → Setup)

abbrev ScopeType := ScopeTypeOver Setup

namespace ScopeType

def plain (name : String) : ScopeType := ⟨name, [], .done, fun _ => []⟩

end ScopeType

/-- Fails with the error's message, or goes on. -/
def Setup.orFail {α : Type} (next : Setup) : Except WorldError α → Setup
  | .ok _ => next
  | .error e => .fail e.message

end FrameGraph
