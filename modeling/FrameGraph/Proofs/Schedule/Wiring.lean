import FrameGraph.Proofs.World.Ownership
import FrameGraph.Schedule.Frame

/-!
# Running and the wiring

Setting nodes up, updating them and taking them down changes their states and their shapes. It does
not change the scopes, nor what nodes there are, nor what they read from.
-/
namespace FrameGraph

/-- The node without what running it changes. -/
def Node.bare (n : Node) : Node := { n with state := none, shape := none, isSetUp := false }

namespace World

variable {w w' w'' : World}

/-- Scopes, nodes and connections are the same in both worlds. -/
structure SameWiring (w w' : World) : Prop where
  scopes : w'.scopes = w.scopes
  node : ∀ x, (w'.node? x).map Node.bare = (w.node? x).map Node.bare

namespace SameWiring

theorem refl (w : World) : SameWiring w w := ⟨rfl, fun _ => rfl⟩

theorem trans (h : SameWiring w w') (h' : SameWiring w' w'') : SameWiring w w'' :=
  ⟨h'.scopes.trans h.scopes, fun x => (h'.node x).trans (h.node x)⟩

theorem of_same (hscopes : w'.scopes = w.scopes) (hnode : ∀ x, w'.node? x = w.node? x) :
    SameWiring w w' :=
  ⟨hscopes, fun x => by rw [hnode]⟩

theorem record (w : World) (e : Event) : SameWiring w (w.record e) := .of_same rfl fun _ => rfl

theorem recordAll (w : World) (es : List Event) : SameWiring w (w.recordAll es) :=
  .of_same (w.recordAll_scopes es) (w.node?_recordAll es)

theorem setNode {id : NodeId} {n n' : Node} (hn : w.node? id = some n) (h : n'.bare = n.bare) :
    SameWiring w (w.setNode id (some n')) := by
  refine ⟨rfl, fun x => ?_⟩
  rw [node?_setNode]
  by_cases hx : x = id
  · rw [if_pos ⟨hx, lt_size_of_node? hn⟩, hx, hn, Option.map_some, Option.map_some, h]
  · rw [if_neg fun h => hx h.1]

/-- A node in one world is in the other, with the same wiring. -/
theorem node_of_node (h : SameWiring w w') {x : NodeId} {n : Node} (hn : w'.node? x = some n) :
    ∃ m, w.node? x = some m ∧ m.bare = n.bare := by
  have hnode := h.node x
  rw [hn, Option.map_some, eq_comm, Option.map_eq_some_iff] at hnode
  exact hnode

theorem sameTree (h : SameWiring w w') : SameTree w w' := by
  refine .of_scopes h.scopes fun x => ?_
  have hkey (o : Option Node) :
      o.map (fun n => (n.name, n.parent)) = (o.map Node.bare).map fun n => (n.name, n.parent) := by
    cases o <;> rfl
  rw [nodeKey?, nodeKey?, hkey, h.node x, ← hkey]

end SameWiring

end World

namespace Schedule

open World

variable (w : World)

theorem takeDownNode_wiring (id : NodeId) : SameWiring w (takeDownNode w id) := by
  rw [takeDownNode]
  cases hn : w.node? id with
  | none => exact .refl w
  | some n =>
    dsimp only
    split
    · refine ((SameWiring.recordAll w _).trans (.setNode (n := n) ?_ ?_)).trans (.record _ _)
      · exact (w.node?_recordNotes _ id).trans hn
      · rfl
    · exact .refl w

theorem takeDown_wiring (nodes : List NodeId) : SameWiring w (takeDown w nodes) := by
  rw [takeDown]
  generalize nodes.reverse = nodes
  induction nodes generalizing w with
  | nil => exact .refl w
  | cons id nodes ih => exact (takeDownNode_wiring w id).trans (ih _)

theorem startNode_wiring {id : NodeId} {n : Node} (hn : w.node? id = some n) :
    SameWiring w (startNode w id n).1 := by
  have hset {n' : Node} (hbare : n'.bare = n.bare) (notes : List String) (e : Event) :
      SameWiring w (((w.recordNotes notes).setNode id (some n')).record e) :=
    ((SameWiring.recordAll w _).trans
      (.setNode ((w.node?_recordNotes notes id).trans hn) hbare)).trans (.record _ e)
  rw [startNode]
  dsimp only
  split
  · refine hset ?_ _ _
    rfl
  · refine hset ?_ _ _
    rfl

theorem setUpNode_wiring (id : NodeId) : SameWiring w (setUpNode w id).1 := by
  rw [setUpNode]
  cases hn : w.node? id with
  | none => exact .refl w
  | some n =>
    dsimp only
    split
    · exact .refl w
    · have hstart := startNode_wiring w hn
      generalize startNode w id n = started at hstart ⊢
      obtain ⟨w', reason⟩ := started
      cases reason with
      | some reason => exact hstart
      | none => exact hstart.trans (.record _ _)

theorem setUpAll_wiring (done rest : List NodeId) :
    SameWiring w (setUpAll w done rest).1 := by
  induction rest generalizing w done with
  | nil => exact .refl w
  | cons id rest ih =>
    rw [setUpAll]
    have hnode := setUpNode_wiring w id
    generalize setUpNode w id = result at hnode ⊢
    obtain ⟨w', failure⟩ := result
    cases failure with
    | none => exact hnode.trans (ih w' (id :: done))
    | some e => exact hnode.trans ((SameWiring.record w' _).trans (takeDown_wiring _ _))

theorem build_wiring : SameWiring w (build w).1 := by
  rw [build]
  cases sort w w.gather with
  | error e =>
    cases e with
    | cycle nodes => exact .record w _
    | incomplete node slot missing => exact .refl w
    | incompatible node slot found => exact .refl w
    | setup node reason => exact .refl w
  | ok order =>
    dsimp only
    generalize (unconnected w order).map _ = events
    have hlogged := SameWiring.recordAll w events
    split
    · exact hlogged
    · have hall := hlogged.trans (setUpAll_wiring _ [] order)
      revert hall
      generalize setUpAll _ [] order = result
      obtain ⟨w', failure⟩ := result
      intro hall
      cases failure with
      | some e => exact hall
      | none => exact hall.trans (.record _ _)

theorem updateNode_wiring (id : NodeId) : SameWiring w (updateNode w id) := by
  rw [updateNode]
  cases hn : w.node? id with
  | none => exact .refl w
  | some n =>
    refine ((SameWiring.recordAll w _).trans (.setNode (n := n) ?_ ?_)).trans (.record _ _)
    · exact (w.node?_recordNotes _ id).trans hn
    · rfl

theorem update_wiring (s : Schedule) : SameWiring w (s.update w) := by
  rw [update]
  generalize s.order = nodes
  induction nodes generalizing w with
  | nil => exact .refl w
  | cons id nodes ih => exact (updateNode_wiring w id).trans (ih _)

/-- Tearing down disconnects the nodes, but it leaves the tree as it is. -/
theorem tearDown_tree (s : Schedule) : SameTree w (s.tearDown w) := by
  have hdisconnect (nodes : List NodeId) (w : World) :
      SameTree w (nodes.foldl (fun w id => w.modifyNode id Node.disconnect) w) := by
    induction nodes generalizing w with
    | nil => exact .refl w
    | cons id nodes ih =>
      exact (SameTree.modifyNode w id (f := Node.disconnect) fun n => ⟨rfl, rfl⟩).trans (ih _)
  exact ((takeDown_wiring w s.order).sameTree.trans (hdisconnect s.order _)).trans (.record _ _)

end Schedule

end FrameGraph
