import FrameGraph.Assembly.Arguments
import FrameGraph.World.Create

/-!
# Assembly

A program is put together in a scope of a world in two passes, each in the order of the statements:
first everything is made, then everything is connected. A statement either takes effect or is
reported, and then it changes no node, no scope and no connection.
-/
namespace FrameGraph.Assembly

open Script

inductive Made where
  | node (id : NodeId)
  | scope (id : ScopeId)
  deriving DecidableEq

/-- Where each path that a statement has made something under stands, the latest first. -/
abbrev Definitions := List (String × Span)

def unresolvedSource (s : Statement) : Diagnostic :=
  .error Code.unresolved s.source.span s.line s!"unresolved name '{s.source.text}'"

/-- The target path of a statement is not in a scope. -/
def homeless (s : Statement) : Diagnostic :=
  .error Code.invalidPath s.target.span s.line s!"'{s.target.text}' is not inside a scope"

def alreadyDefined (s : Statement) (first : Option Span) : Diagnostic :=
  let d := Diagnostic.error Code.alreadyDefined s.target.span s.line
    s!"'{s.target.text}' is already defined"
  match first with
  | some span => d.relate span "first defined here"
  | none => d

def notAType (s : Statement) (found : Member) : Diagnostic :=
  .error Code.notInstantiable s.source.span s.line
    s!"'{s.source.text}' is a {found.sort}, not a type"

def notMade (s : Statement) : WorldError → Diagnostic
  | .scopeSetup _ reason =>
    .error Code.setupFailed s.span s.line s!"cannot create '{s.target.text}': {reason}"
  | .alreadyDefined name scope =>
    .error Code.alreadyDefined s.target.span s.line (WorldError.alreadyDefined name scope).message

/-- Makes an instance of a type, with the arguments of the statement. -/
def make (w : World) (destination container : ScopeId) (s : Statement) (type : Member) :
    World × Except (List Diagnostic) Made :=
  let name := s.target.last.name
  match type with
  | .nodeType t =>
    match Signature.values ⟨t.name, t.params, s.line⟩ s.assignments with
    | .error problems => (w, .error problems)
    | .ok params =>
      match w.makeNode destination name t container params with
      | (w, .ok id) => (w, .ok (.node id))
      | (w, .error e) => (w, .error [notMade s e])
  | .scopeType t =>
    match Signature.values ⟨t.name, t.params, s.line⟩ s.assignments with
    | .error problems => (w, .error problems)
    | .ok params =>
      match w.makeScope destination name container params t with
      | (w, .ok id) => (w, .ok (.scope id))
      | (w, .error e) => (w, .error [notMade s e])
  | other => (w, .error [notAType s other])

def instantiate (w : World) (scope : ScopeId) (definitions : Definitions) (s : Statement) :
    World × Except (List Diagnostic) Made :=
  match w.resolve scope s.source.names with
  | none => (w, .error [unresolvedSource s])
  | some source =>
    match w.resolveScope scope s.target.leading with
    | none => (w, .error [homeless s])
    | some destination =>
      if (w.scope? destination).any fun d => d.members.contains s.target.last.name then
        (w, .error [alreadyDefined s (definitions.lookup s.target.text)])
      else make w destination source.container s source.member

def compoundSource (s : Statement) : Diagnostic :=
  .error Code.invalidPath s.source.span s.line
    s!"connection source '{s.source.text}' must be a single name"

def lookupNode (w : World) (scope : ScopeId) (s : Statement) (path : List String) (span : Span) :
    Except Diagnostic NodeId :=
  let text := ".".intercalate path
  match w.resolve scope path with
  | some ⟨.node id, _⟩ => .ok id
  | some ⟨other, _⟩ =>
    .error (.error Code.notANode span s.line s!"'{text}' is a {other.sort}, not a node")
  | none => .error (.error Code.unresolved span s.line s!"unresolved name '{text}'")

/-- The inputs that there are, in words. -/
def inputHint (inputs : List InputSpec) : String :=
  if inputs.isEmpty then "this node has no inputs"
  else "inputs are: " ++ ", ".intercalate (inputs.map InputSpec.name)

def unknownInput (s : Statement) (type : NodeType) : Diagnostic :=
  { Diagnostic.error Code.unknownInput s.target.last.span s.line
      s!"'{type.name}' has no input '{s.target.last.name}'" with
    hint := some (inputHint type.inputs) }

def silentSource (s : Statement) : Diagnostic :=
  .error Code.incompatible s.source.span s.line s!"'{s.source.text}' produces no output"

def unaccepted (s : Statement) (type : NodeType) (kind : OutputKind) : Diagnostic :=
  .error Code.incompatible s.span s.line
    (s!"input '{s.target.last.name}' of '{type.name}' does not accept {kind.name} output " ++
      s!"from '{s.source.text}'")

/-- The nodes that a connection joins, by target and source. -/
def endpoints (w : World) (scope : ScopeId) (s : Statement) :
    Except Diagnostic (NodeId × NodeId) := do
  if !s.source.isSimple then throw (compoundSource s)
  let target ← lookupNode w scope s s.target.leading s.target.span
  let source ← lookupNode w scope s [s.source.last.name] s.source.span
  return (target, source)

/-- The input of a target node that reads from a source node. -/
def slotFor (s : Statement) (target source : Node) : Except Diagnostic Nat :=
  match target.type.inputs.zipIdx.find? (·.1.name = s.target.last.name) with
  | none => .error (unknownInput s target.type)
  | some (spec, index) =>
    match source.type.produces with
    | none => .error (silentSource s)
    | some kind => if spec.accepts kind then .ok index else .error (unaccepted s target.type kind)

/-- Carries out a statement that connects two nodes. An entry whose node is gone is passed over
without a word. -/
def connect (w : World) (scope : ScopeId) (s : Statement) : Except (List Diagnostic) World :=
  match endpoints w scope s with
  | .error d => .error [d]
  | .ok (target, source) =>
    match w.node? target, w.node? source with
    | some t, some n =>
      match slotFor s t n with
      | .error d => .error [d]
      | .ok index =>
        let w := w.modifyNode target (·.connect index source)
        .ok (w.record (.connected (w.nodePath target) s.target.last.name (w.nodePath source)))
    | some t, none =>
      if (inputIndex? t.type.inputs s.target.last.name).isNone then .error [unknownInput s t.type]
      else .error []
    | none, _ => .error []

end FrameGraph.Assembly

namespace FrameGraph

/-- A program being put together: the world, and an account of the statements so far. -/
structure Assembly where
  world : World
  diagnostics : List Diagnostic
  definitions : Assembly.Definitions
  nodes : Nat
  scopes : Nat
  connections : Nat

namespace Assembly

open Script

def start (w : World) : Assembly := ⟨w, [], [], 0, 0, 0⟩

/-- The first pass over a statement. -/
def makeStep (scope : ScopeId) (a : Assembly) (s : Statement) : Assembly :=
  if s.instantiates then
    let (world, result) := instantiate a.world scope a.definitions s
    match result with
    | .error problems => { a with world, diagnostics := a.diagnostics ++ problems }
    | .ok made =>
      let definitions := (s.target.text, s.target.span) :: a.definitions
      match made with
      | .node _ => { a with world, definitions, nodes := a.nodes + 1 }
      | .scope _ => { a with world, definitions, scopes := a.scopes + 1 }
  else a

/-- The second pass over a statement. -/
def connectStep (scope : ScopeId) (a : Assembly) (s : Statement) : Assembly :=
  if s.instantiates then a
  else
    match connect a.world scope s with
    | .error problems => { a with diagnostics := a.diagnostics ++ problems }
    | .ok world => { a with world, connections := a.connections + 1 }

/-- No statement was reported as an error. -/
def isOk (a : Assembly) : Bool := errorCount a.diagnostics = 0

def apply (w : World) (scope : ScopeId) (p : Program) : Assembly :=
  let made := p.statements.foldl (makeStep scope) (start w)
  p.statements.foldl (connectStep scope) made

end Assembly

end FrameGraph
