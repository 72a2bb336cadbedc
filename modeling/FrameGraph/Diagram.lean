import FrameGraph.World.Path

/-!
# Diagrams

The network of a world in the DOT language: a box for every node, a cluster for every scope inside
the cluster of the scope that holds it, and an arrow for every connected input, from the source to
the reader. A diagram is made as a list of lines that say what they show, and written afterwards.
-/
namespace FrameGraph.Diagram

/-- A line of a diagram, with how deep it stands among the clusters. -/
inductive Line where
  | opening
  | node (depth : Nat) (id : NodeId) (shows : Bool) (name typeName : String)
  | openCluster (depth : Nat) (id : ScopeId) (typeName name : String)
  | closeCluster (depth : Nat)
  | blank
  | edge (source target : NodeId) (slot : String)
  | closing
  deriving DecidableEq

def escapeChar (c : Char) : List Char :=
  match c with
  | '\\' => ['\\', '\\']
  | '"' => ['\\', '"']
  | c => [c]

def escape (s : String) : String := String.ofList (s.toList.flatMap escapeChar)

def indent (depth : Nat) : String := String.ofList (List.replicate (4 * depth + 4) ' ')

/-- A line in writing, with the line feed. A cluster takes several lines to open. -/
def Line.render : Line → String
  | opening =>
    "digraph lumen \x7b\n" ++
      "    rankdir=LR;\n" ++
      "    node [fontname=\"Helvetica\", fontsize=10];\n" ++
      "    edge [fontname=\"Helvetica\", fontsize=9];\n"
  | node depth id shows name typeName =>
    let color := if shows then "lightblue" else "lightsalmon"
    s!"{indent depth}{id.text} [shape=box, style=filled, fillcolor={color}, " ++
      s!"label=\"{escape name}\\n{escape typeName}\"];\n"
  | openCluster depth id typeName name =>
    let margin := indent depth
    s!"\n{margin}subgraph cluster_{id.text} \x7b\n" ++
      s!"{margin}    label=\"{escape typeName}: {escape name}\";\n" ++
      s!"{margin}    style=rounded;\n" ++
      s!"{margin}    color=gray50;\n"
  | closeCluster depth => s!"{indent depth}\x7d\n"
  | blank => "\n"
  | edge source target slot =>
    s!"    {source.text} -> {target.text} [label=\"{escape slot}\"];\n"
  | closing => "\x7d\n"

/-- The lines of what a scope holds, through at most so many levels of scopes. -/
def contents (w : World) : Nat → Nat → ScopeId → List Line
  | 0, _, _ => []
  | levels + 1, depth, scope =>
    match w.scope? scope with
    | none => []
    | some s => s.members.toList.flatMap fun (name, member) =>
      match member with
      | .node id =>
        match w.node? id with
        | none => []
        | some n => [.node depth id n.type.produces.isSome n.name n.type.name]
      | .scope child =>
        match w.scope? child with
        | none => []
        | some c =>
          .openCluster depth child c.type.name name ::
            contents w levels (depth + 1) child ++ [.closeCluster depth]
      | .nodeType _ | .scopeType _ => []

def edgesTo (w : World) (id : NodeId) : List Line :=
  match w.node? id with
  | none => []
  | some n => n.wiring.filterMap fun (spec, source) =>
    source.map fun source => .edge source id spec.name

def lines (w : World) : List Line :=
  let edges := w.gather.flatMap (edgesTo w)
  .opening :: contents w w.scopes.size 0 .root ++
    (if edges.isEmpty then [] else .blank :: edges) ++ [.closing]

/-- A world's network in the DOT language. -/
def text (w : World) : String := String.join ((lines w).map Line.render)

end FrameGraph.Diagram
