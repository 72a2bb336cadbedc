import FrameGraph.Schedule.Basic

/-!
# Frames

In a frame every node of a schedule computes its next state once, in order, so it sees what its
sources have computed in the same frame. Measuring the frame changes nothing about it.
-/
namespace FrameGraph

/-- How long each node took in a frame, by its place in the order, and how long the whole frame
took, in nanoseconds. -/
structure FrameTiming where
  node : Nat → UInt64
  frame : UInt64

namespace Schedule

def updateNode (w : World) (id : NodeId) : World :=
  match w.node? id with
  | none => w
  | some n =>
    let change := n.type.update (view w id n)
    let w := w.recordNotes change.notes
    let w := w.setNode id (some { n with state := change.state })
    w.record (.life (.nodeUpdated id))

def update (s : Schedule) (w : World) : World := s.order.foldl updateNode w

/-- One frame, with the measured times of its nodes and of the whole. -/
def updateTimed (s : Schedule) (w : World) (p : Profile) (t : FrameTiming) : World × Profile :=
  let (w, p) := s.order.zipIdx.foldl (fun (w, p) (id, i) =>
    (updateNode w id, p.record id (t.node i))) (w, p)
  (w, p.recordFrame t.frame)

/-- Takes all nodes down, the last first, and disconnects them. -/
def tearDown (s : Schedule) (w : World) : World :=
  let w := s.order.foldl (fun w id => w.modifyNode id Node.disconnect) (takeDown w s.order)
  w.record (.scheduleTornDown s.size)

end Schedule

end FrameGraph
