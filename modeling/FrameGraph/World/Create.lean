import FrameGraph.World.Release

/-!
# Making members

A name is taken once: making a member under a name that is taken fails and changes nothing. A scope
is set up before it becomes a member; when its setup fails, all that the setup made is taken down
again, and the scope is gone without having been taken down itself.
-/
namespace FrameGraph.World

/-- The error for a name in a scope that is taken, or for a scope that is gone. -/
def taken (w : World) (scope : ScopeId) (name : String) : WorldError :=
  .alreadyDefined name (w.scopePath scope)

/-- The name is free in the scope, and the scope is there. -/
def isFree (w : World) (scope : ScopeId) (name : String) : Bool :=
  match w.scope? scope with
  | some s => !s.members.contains name
  | none => false

/-- Adds an entry to a scope. Any member will do: a node or a scope may be given a second entry. -/
def insertMember (w : World) (scope : ScopeId) (name : String) (member : Member) :
    Except WorldError World :=
  match w.scope? scope with
  | none => .error (w.taken scope name)
  | some s =>
    match s.members.insert name member with
    | .error _ => .error (w.taken scope name)
    | .ok members => .ok (w.setScope scope (some { s with members }))

def makeNode (w : World) (parent : ScopeId) (name : String) (type : NodeType) (owner : ScopeId)
    (params : List Value) : World × Except WorldError NodeId :=
  if w.isFree parent name then
    let id : NodeId := ⟨w.nodes.size⟩
    let w := { w with nodes := w.nodes.push (some (.new name type owner parent params)) }
    match w.insertMember parent name (.node id) with
    | .error e => (w, .error e)
    | .ok w => (w.record (.nodeCreated (w.nodePath id)), .ok id)
  else (w, .error (w.taken parent name))

def define (w : World) (scope : ScopeId) (name : String) (type : Member) :
    World × Except WorldError Unit :=
  match w.insertMember scope name type with
  | .error e => (w, .error e)
  | .ok w => (w, .ok ())

def viewScope (w : World) (id : ScopeId) (s : Scope) : ScopeView :=
  { id
    parent := s.parent
    path := w.scopePath id
    params := named s.type.params s.params }

def locate (self : ScopeId) : Location → ScopeId
  | .here => self
  | .inside id => id

/-- Ends the setup of a scope that has succeeded: the scope becomes a member. -/
def settle (w : World) (id parent : ScopeId) (name typeName : String) :
    World × Except WorldError ScopeId :=
  let w := w.modifyScope id fun s => { s with isSetUp := true }
  match w.insertMember parent name (.scope id) with
  | .error e => (w, .error e)
  | .ok w => (w.record (.scopeCreated (w.scopePath id) typeName), .ok id)

/-- Ends the setup of a scope that has failed: what it made is taken down. -/
def abandon (w : World) (id : ScopeId) (name reason : String) :
    World × Except WorldError ScopeId :=
  (w.release id, .error (.scopeSetup name reason))

mutual

def makeScope (w : World) (parent : ScopeId) (name : String) (owner : ScopeId)
    (params : List Value) : ScopeType → World × Except WorldError ScopeId
  | ⟨typeName, specs, setup, destroy⟩ =>
    if w.isFree parent name then
      let id : ScopeId := ⟨w.scopes.size⟩
      let type : ScopeType := ⟨typeName, specs, setup, destroy⟩
      let scope : Scope := .new name type (some owner) (some parent) params
      match runSetup { w with scopes := w.scopes.push (some scope) } id setup with
      | (w, .ok ()) => (w.record (.life (.scopeSetUp id true))).settle id parent name typeName
      | (w, .error reason) => (w.record (.life (.scopeSetUp id false))).abandon id name reason
    else (w, .error (w.taken parent name))

def runSetup (w : World) (self : ScopeId) : Setup → World × Except String Unit
  | .done => (w, .ok ())
  | .fail reason => (w, .error reason)
  | .look next =>
    match w.scope? self with
    | some s => runSetup w self (next (w.viewScope self s))
    | none => (w, .ok ())
  | .say remark next => runSetup (w.record (.remark remark)) self next
  | .keep window next =>
    runSetup (w.modifyScope self fun s => { s with window := some window }) self next
  | .defineNodeType location name type next =>
    let (w, answer) := w.define (locate self location) name (.nodeType type)
    runSetup w self (next answer)
  | .defineScopeType location name type next =>
    let (w, answer) := w.define (locate self location) name (.scopeType type)
    runSetup w self (next answer)
  | .makeNode location name type params next =>
    let (w, answer) := w.makeNode (locate self location) name type self params
    runSetup w self (next answer)
  | .makeScope location name type params next =>
    let (w, answer) := makeScope w (locate self location) name self params type
    runSetup w self (next answer)

end

end FrameGraph.World
