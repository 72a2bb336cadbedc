import FrameGraph.World.Basic

/-!
# Paths

A path leads from a scope to a member, by the names of the scopes between. The path of a node or a
scope from the root is found the other way, along its parents. A parent is always older than what
it holds, so the way up ends.
-/
namespace FrameGraph.World

/-- A member that a path leads to, and the scope that holds it. -/
structure Resolved where
  member : Member
  container : ScopeId

/-- The member that a path from a scope leads to. All names but the last are names of scopes. -/
def resolve (w : World) (scope : ScopeId) : List String → Option Resolved
  | [] => none
  | [name] => do
    let member ← (← w.scope? scope).member? name
    return ⟨member, scope⟩
  | name :: rest => do
    match ← (← w.scope? scope).member? name with
    | .scope child => w.resolve child rest
    | _ => none

/-- The scope that a path from a scope leads to; the empty path leads nowhere else. -/
def resolveScope (w : World) (scope : ScopeId) (path : List String) : Option ScopeId :=
  if path.isEmpty then (w.scope? scope).map fun _ => scope
  else
    match w.resolve scope path with
    | some ⟨.scope id, _⟩ => some id
    | _ => none

def namesUp (w : World) (id : ScopeId) : List String :=
  match (w.scope? id).bind fun s => s.parent.map fun parent => (s.name, parent) with
  | some (name, parent) =>
    if parent.index < id.index then name :: w.namesUp parent else [name]
  | none => []
termination_by id.index

/-- The path of a scope from the root; that of the root itself is empty. -/
def scopePath (w : World) (id : ScopeId) : String :=
  ".".intercalate (w.namesUp id).reverse

def nodePath (w : World) (id : NodeId) : String :=
  match w.node? id with
  | none => s!"<{id.text}>"
  | some n =>
    let path := w.scopePath n.parent
    if path.isEmpty then n.name else path ++ "." ++ n.name

/-- The nodes in a scope and in the scopes inside it, in the order of the entries, through at most
so many levels of scopes. -/
def nodesWithin (w : World) : Nat → ScopeId → List NodeId
  | 0, _ => []
  | depth + 1, scope =>
    match w.scope? scope with
    | none => []
    | some s => s.members.toList.flatMap fun entry =>
      match entry.2 with
      | .node id => [id]
      | .scope child => w.nodesWithin depth child
      | .nodeType _ | .scopeType _ => []

def gather (w : World) : List NodeId := w.nodesWithin w.scopes.size .root

end FrameGraph.World
