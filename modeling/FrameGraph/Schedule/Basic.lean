import FrameGraph.Schedule.Dependency
import FrameGraph.World.Path

/-!
# Schedules

A schedule lists the nodes of a world so that each comes after the nodes it reads from. Building one
gathers the nodes, orders them, checks that no mandatory input is open, and sets the nodes up in
order; if one cannot be set up, those that were are taken down again, the latest first.
-/
namespace FrameGraph

inductive BuildError where
  | cycle (nodes : List String)
  | incomplete (node slot : String) (missing : Nat)
  | incompatible (node slot : String) (found : OutputKind)
  | setup (node reason : String)
  deriving DecidableEq

def BuildError.message : BuildError → String
  | cycle nodes => "dependency cycle between " ++ ", ".intercalate nodes
  | incomplete node slot missing =>
    s!"mandatory input '{slot}' of '{node}' is not connected ({missing} unconnected in total)"
  | incompatible node slot found => s!"input '{slot}' of '{node}' cannot read {found.name} output"
  | setup node reason => s!"setup of '{node}' failed: {reason}"

structure Schedule where
  order : List NodeId
  deriving DecidableEq

namespace Schedule

/-- The number of a node among the gathered ones; the last if it was gathered more than once. -/
def position? (gathered : List NodeId) (id : NodeId) : Option Nat :=
  (gathered.zipIdx.reverse.find? (·.1 = id)).map Prod.snd

def readsAmong (w : World) (gathered : List NodeId) : Dependency.Reads :=
  (gathered.map fun id =>
    match w.node? id with
    | none => []
    | some n => (n.inputs.filterMap fun source => source).filterMap (position? gathered)).toArray

def select (gathered : List NodeId) (numbers : List Nat) : List NodeId :=
  numbers.filterMap fun i => gathered[i]?

def sort (w : World) (gathered : List NodeId) : Except BuildError (List NodeId) :=
  match Dependency.sort (readsAmong w gathered) with
  | .complete numbers => .ok (select gathered numbers)
  | .cyclic numbers => .error (.cycle ((select gathered numbers).map w.nodePath))

def openInputs (n : Node) : List String :=
  n.wiring.filterMap fun (spec, source) =>
    if spec.mandatory && source.isNone then some spec.name else none

/-- The mandatory inputs that are not connected, each with the path of its node. -/
def unconnected (w : World) (order : List NodeId) : List (String × String) :=
  order.flatMap fun id =>
    match w.node? id with
    | none => []
    | some n => (openInputs n).map fun slot => (w.nodePath id, slot)

/-- The first input that cannot read what is declared for its source. -/
def badInput? (w : World) (path : String) (n : Node) : Option BuildError :=
  n.wiring.findSome? fun (spec, source) =>
    match source with
    | none => none
    | some id =>
      match (w.node? id).bind Node.shape with
      | some shape =>
        if spec.accepts shape.kind then none else some (.incompatible path spec.name shape.kind)
      | none => some (.setup path s!"input '{spec.name}' reads from a node with no output")

/-- What a node sees of a world. It does not see its own output, also where it reads from itself. -/
def view (w : World) (id : NodeId) (n : Node) : NodeView :=
  { n.self with
    inputs := n.wiring.map fun (spec, source) =>
      (spec.name, source.bind fun s => if s = id then none else (w.node? s).bind Node.output?)
    window? := w.window? }

/-- Why a declared shape is not what the type says, if it is not. -/
def declarationFault? (type : NodeType) (shape : Option OutputShape) : Option String :=
  match type.produces, shape with
  | none, _ => none
  | some kind, some s =>
    if s.kind = kind then none
    else some s!"declared {s.kind.name} output but the delegate produces {kind.name}"
  | some kind, none => some s!"no {kind.name} output declared"

/-- Runs the setup of a node. It counts as set up once the setup is not refused, even if the shape
it declares is then found wrong. -/
def startNode (w : World) (id : NodeId) (n : Node) : World × Option String :=
  let start := n.type.setup (view w id n)
  let w := w.recordNotes start.notes
  let n := { n with state := start.state, shape := start.shape }
  match start.refusal with
  | some reason =>
    ((w.setNode id (some n)).record (.life (.nodeSetUp id false)), some reason)
  | none =>
    ((w.setNode id (some { n with isSetUp := true })).record (.life (.nodeSetUp id true)),
      declarationFault? n.type n.shape)

/-- Sets a node up: its inputs first have to fit what their sources have declared. -/
def setUpNode (w : World) (id : NodeId) : World × Option BuildError :=
  match w.node? id with
  | none => (w, none)
  | some n =>
    let path := w.nodePath id
    match badInput? w path n with
    | some e => (w, some e)
    | none =>
      match startNode w id n with
      | (w, some reason) => (w, some (.setup path reason))
      | (w, none) => (w.record (.nodeReady path), none)

/-- Takes a node down if it is set up; it stays in its scope, with its connections. -/
def takeDownNode (w : World) (id : NodeId) : World :=
  match w.node? id with
  | none => w
  | some n =>
    if n.isSetUp then
      let change := n.type.destroy n.self
      let w := w.recordNotes change.notes
      let w := w.setNode id (some { n with state := change.state, isSetUp := false })
      w.record (.life (.nodeDestroyed id))
    else w

def takeDown (w : World) (nodes : List NodeId) : World :=
  nodes.reverse.foldl takeDownNode w

/-- Sets nodes up in order, given those that are, the latest first. At the first that fails, it and
the others are taken down again. -/
def setUpAll (w : World) (done : List NodeId) : List NodeId → World × Option BuildError
  | [] => (w, none)
  | id :: rest =>
    match setUpNode w id with
    | (w, none) => setUpAll w (id :: done) rest
    | (w, some e) =>
      let w := w.record (.buildFailed (w.nodePath id) e.message)
      (takeDown w (id :: done).reverse, some e)

def build (w : World) : World × Except BuildError Schedule :=
  match sort w w.gather with
  | .error e =>
    match e with
    | .cycle nodes => (w.record (.cycleFound nodes), .error e)
    | e => (w, .error e)
  | .ok order =>
    let missing := unconnected w order
    let w := w.recordAll (missing.map fun (node, slot) => .inputUnconnected node slot)
    match missing with
    | (node, slot) :: _ => (w, .error (.incomplete node slot missing.length))
    | [] =>
      match setUpAll w [] order with
      | (w, some e) => (w, .error e)
      | (w, none) => (w.record (.scheduleBuilt order.length), .ok ⟨order⟩)

def size (s : Schedule) : Nat := s.order.length

def isEmpty (s : Schedule) : Bool := s.order.isEmpty

def describe (s : Schedule) (w : World) : List String := s.order.map w.nodePath

end Schedule

end FrameGraph
