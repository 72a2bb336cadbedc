import FrameGraph.Decimal.Layout
import FrameGraph.Text.Json
import FrameGraph.Timing.Stats
import FrameGraph.World.Id

/-!
# Profiles

One set of statistics for every node that has been measured, in the order of the first measurement,
and one for whole frames. Samples of one node do not touch the statistics of another. An index leads
from a node to its statistics, so that none are searched for.
-/
namespace FrameGraph

structure Profile where
  nodes : Array (NodeId × Stats Float)
  /-- Where in `nodes` the statistics of a node are. -/
  index : List (NodeId × Nat)
  frame : Stats Float

/-- The statistics of one thing, under its name, in microseconds. -/
structure TimingSummary where
  name : String
  samples : Nat
  mean : Float
  deviation : Float
  least : Float
  greatest : Float
  deriving DecidableEq

structure ProfileReport where
  frames : Nat
  frame : TimingSummary
  nodes : List TimingSummary
  deriving DecidableEq

/-- The statistics under a name. -/
def Stats.summary (s : Stats Float) (name : String) : TimingSummary :=
  ⟨name, s.count, s.mean, s.deviation, s.least, s.greatest⟩

namespace Profile

def empty : Profile := ⟨#[], [], .empty⟩

/-- The place of a node, which is made behind the others if the node has none yet. -/
def place (p : Profile) (id : NodeId) : Profile × Nat :=
  match p.index.lookup id with
  | some slot => (p, slot)
  | none =>
    let slot := p.nodes.size
    ({ p with nodes := p.nodes.push (id, .empty), index := (id, slot) :: p.index }, slot)

def record (p : Profile) (id : NodeId) (nanos : UInt64) : Profile :=
  let (p, slot) := p.place id
  { p with nodes := p.nodes.modify slot fun (id, stats) => (id, stats.pushNanos nanos) }

def recordFrame (p : Profile) (nanos : UInt64) : Profile :=
  { p with frame := p.frame.pushNanos nanos }

def frames (p : Profile) : Nat := p.frame.count

def stats? (p : Profile) (id : NodeId) : Option (Stats Float) :=
  (p.index.lookup id).bind fun slot => p.nodes[slot]?.map Prod.snd

/-- The report, with the nodes under the names that `path` gives them. -/
def report (p : Profile) (path : NodeId → String) : ProfileReport :=
  { frames := p.frames
    frame := p.frame.summary "frame"
    nodes := p.nodes.toList.map fun (id, stats) => stats.summary (path id) }

end Profile

namespace ProfileReport

/-- Times keep a fraction and stand in place from 10⁻⁵ up to 10¹⁶; an exponent has its sign, and a
tie goes to the even digit. -/
def layout : Decimal.Layout := ⟨some (-4), some 16, true, true, .even⟩

def summaryLines (indent : String) (s : TimingSummary) : List String :=
  [s!"{indent}\"name\": {Text.jsonString s.name},",
    s!"{indent}\"samples\": {s.samples},",
    s!"{indent}\"mean_us\": {layout.real s.mean},",
    s!"{indent}\"stddev_us\": {layout.real s.deviation},",
    s!"{indent}\"min_us\": {layout.real s.least},",
    s!"{indent}\"max_us\": {layout.real s.greatest}"]

def elementLines : List TimingSummary → List String
  | [] => []
  | [s] => "    \x7b" :: summaryLines "      " s ++ ["    \x7d"]
  | s :: rest => "    \x7b" :: summaryLines "      " s ++ "    \x7d," :: elementLines rest

/-- The report as JSON, indented by two spaces. -/
def json (r : ProfileReport) : String :=
  let nodes := match r.nodes with
    | [] => ["  \"nodes\": []"]
    | nodes => "  \"nodes\": [" :: elementLines nodes ++ ["  ]"]
  "\n".intercalate
    (["\x7b", s!"  \"frames\": {r.frames},", "  \"frame\": \x7b"] ++ summaryLines "    " r.frame ++
      ["  \x7d,"] ++ nodes ++ ["\x7d"])

end ProfileReport

end FrameGraph
