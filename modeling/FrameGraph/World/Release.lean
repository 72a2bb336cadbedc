import FrameGraph.World.Path

/-!
# Taking down

A scope is taken down from the inside: first what it owns, in the order of its entries, then the
scope itself, which says farewell if it had been set up, and leaves its place empty. Its entries are
removed before anything else, so nothing is taken down twice.
-/
namespace FrameGraph.World

def releaseNode (w : World) (id : NodeId) : World :=
  match w.node? id with
  | none => w
  | some n =>
    let w := w.setNode id none
    if n.isSetUp then
      (w.recordNotes (n.type.destroy n.self).notes).record (.life (.nodeDestroyed id))
    else w

def farewell (w : World) (id : ScopeId) (s : Scope) : World :=
  let view : ScopeView :=
    { id
      parent := s.parent
      path := w.scopePath id
      params := named s.type.params s.params }
  (w.recordAll ((s.type.destroy view).map Event.remark)).record (.life (.scopeDestroyed id))

/-- Takes a scope down from the inside, through at most so many levels of scopes. -/
def releaseWithin : Nat → World → ScopeId → World
  | 0, w, _ => w
  | depth + 1, w, id =>
    match w.scope? id with
    | none => w
    | some s =>
      let (entries, members) := s.members.drain
      let w := w.setScope id (some { s with members })
      let w := entries.foldl (fun w entry =>
        match entry.2 with
        | .node node => w.releaseNode node
        | .scope child => releaseWithin depth w child
        | .nodeType _ | .scopeType _ => w) w
      match w.scope? id with
      | none => w
      | some s => (if s.isSetUp then w.farewell id s else w).setScope id none

/-- Takes a scope down from the inside. An empty scope holds no others, so there are not more levels
than scopes. -/
def release (w : World) (id : ScopeId) : World :=
  releaseWithin (w.scopes.size + 1) w id

/-- Takes a scope down and removes its entry from the scope that held it. -/
def destroyScope (w : World) (id : ScopeId) : World :=
  let held := (w.scope? id).bind fun s => s.parent.map fun parent => (parent, s.name)
  let w := w.release id
  match held with
  | none => w
  | some (parent, name) =>
    w.modifyScope parent fun s => { s with members := s.members.erase name }

/-- Takes down everything that the root owns. The root keeps the types it knows. -/
def clear (w : World) : World :=
  match w.scope? .root with
  | none => w
  | some root =>
    let (entries, members) := root.members.drain
    let w := w.setScope .root (some { root with members })
    let w := entries.foldl (fun w entry =>
      match entry.2 with
      | .node node => w.releaseNode node
      | .scope child => w.release child
      | .nodeType _ | .scopeType _ => w) w
    let kept := entries.filter fun entry => !entry.2.isOwned
    w.modifyScope .root fun root =>
      { root with
        members := kept.foldl (fun members entry =>
          match members.insert entry.1 entry.2 with
          | .ok members => members
          | .error _ => members) root.members }

end FrameGraph.World
