import FrameGraph.Proofs.World.Growth
import FrameGraph.Proofs.World.Reached

/-!
# Inputs

Whatever is done to a world, each of its nodes has one place for every input of its type.
-/
namespace FrameGraph

/-- The node has one place for every input of its type. -/
def Node.IsSlotted (n : Node) : Prop := n.inputs.length = n.type.inputs.length

theorem Node.IsNew.isSlotted {n : Node} (h : n.IsNew) : n.IsSlotted := by
  rw [h, IsSlotted, new, List.length_replicate]

theorem Node.IsSlotted.input?_connect {n : Node} (h : n.IsSlotted) {index : Nat} {spec : InputSpec}
    (hindex : n.type.inputs[index]? = some spec) (source : NodeId) :
    (n.connect index source).input? index = some source := by
  have hlength : index < n.inputs.length := by
    rw [h]
    exact (List.getElem?_eq_some_iff.mp hindex).1
  simp [connect, input?, hlength]

namespace World

variable {w w' : World}

/-- So does every node. -/
def Slotted (w : World) : Prop := ∀ x n, w.node? x = some n → n.IsSlotted

namespace Slotted

/-- The nodes keep their types and as many places as they had. -/
theorem of_nodes (h : w.Slotted) (hnode : ∀ x n', w'.node? x = some n' → ∃ n, w.node? x = some n ∧
    n'.type = n.type ∧ n'.inputs.length = n.inputs.length) : w'.Slotted := by
  intro x n' hn'
  obtain ⟨n, hn, htype, hlength⟩ := hnode x n' hn'
  rw [Node.IsSlotted, htype, hlength]
  exact h x n hn

theorem grows (h : w.Slotted) (hw : Grows w w') : w'.Slotted := by
  intro x n hn
  obtain hlt | hle := Nat.lt_or_ge x.index w.nodes.size
  · exact h x n (by rw [← hw.node x hlt, hn])
  · exact (hw.new x n hle hn).isSlotted

theorem sameWiring (h : w.Slotted) (hw : SameWiring w w') : w'.Slotted := by
  refine h.of_nodes fun x n' hn' => ?_
  obtain ⟨n, hn, hbare⟩ := hw.node_of_node hn'
  have hinputs : n'.inputs = n.inputs := congrArg (·.inputs) hbare.symm
  exact ⟨n, hn, congrArg (·.type) hbare.symm, by rw [hinputs]⟩

theorem pruned (h : w.Slotted) (hw : Pruned w w') : w'.Slotted := by
  refine h.of_nodes fun x n' hn' => ?_
  obtain hnone | hsame := hw.node x
  · rw [hnone] at hn'
    cases hn'
  · exact ⟨n', by rw [← hsame, hn'], rfl, rfl⟩

theorem modifyNode (h : w.Slotted) (id : NodeId) {f : Node → Node}
    (hf : ∀ n, (f n).type = n.type ∧ (f n).inputs.length = n.inputs.length) :
    (w.modifyNode id f).Slotted := by
  refine h.of_nodes fun x n' hn' => ?_
  rw [node?_modifyNode] at hn'
  split at hn'
  · rename_i hx
    obtain ⟨n, hn, rfl⟩ := Option.map_eq_some_iff.mp hn'
    exact ⟨n, by rw [hx, hn], (hf n).1, (hf n).2⟩
  · exact ⟨n', hn', rfl, rfl⟩

theorem connect (h : w.Slotted) (target : NodeId) (index : Nat) (source : NodeId) :
    (w.modifyNode target (·.connect index source)).Slotted :=
  h.modifyNode target fun _ => ⟨rfl, List.length_set⟩

theorem disconnect (h : w.Slotted) (id : NodeId) : (w.modifyNode id Node.disconnect).Slotted :=
  h.modifyNode id fun _ => ⟨rfl, List.length_map _⟩

theorem tearDown (h : w.Slotted) (s : Schedule) : (s.tearDown w).Slotted := by
  have hdisconnect (nodes : List NodeId) (w : World) (hs : w.Slotted) :
      (nodes.foldl (fun w id => w.modifyNode id Node.disconnect) w).Slotted := by
    induction nodes generalizing w with
    | nil => exact hs
    | cons id nodes ih => exact ih _ (hs.disconnect id)
  exact hdisconnect s.order _ (h.sameWiring (Schedule.takeDown_wiring w s.order))

end Slotted

theorem new_slotted (journal : Array Event) : (World.new journal).Slotted := by
  intro x n hn
  cases hn

theorem Edit.slotted (h : Edit w w') (ht : w.Tree) (hs : w.Slotted) : w'.Slotted := by
  have horderly := Forest.orderly ht
  cases h with
  | record e notLife => exact hs
  | connect target index source => exact hs.connect target index source
  | define scope name type isType confined =>
    exact hs.grows (define_grows w scope name isType horderly).2
  | makeNode parent name type owner params =>
    exact hs.grows (makeNode_grows w parent name type owner params horderly).2
  | makeScope parent name owner params type confined =>
    exact hs.grows (makeScope_grows w parent name owner params type horderly).2
  | destroyScope id => exact hs.pruned (ht.destroyScope_pruned id)
  | clear => exact hs.pruned (Forest.clear_pruned ht)

theorem Edits.slotted (h : Edits w w') (ht : w.Tree) (hs : w.Slotted) : w'.Slotted := by
  induction h with
  | refl => exact hs
  | tail hfirst hlast ih => exact hlast.slotted (Edits.tree hfirst ht) ih

end World

namespace Operation

open World Schedule

theorem run_slotted {w : World} (ht : w.Tree) (hs : w.Slotted) (op : Operation)
    (hop : op.Confined) : (op.run w).Slotted := by
  cases op with
  | change c => exact (c.edits ht hop).slotted ht hs
  | build => exact hs.sameWiring (build_wiring w)
  | update s => exact hs.sameWiring (update_wiring w s)
  | tearDown s => exact hs.tearDown s

/-- In every world that can be reached from a new one. -/
theorem foldl_run_slotted {w : World} (ht : w.Tree) (hs : w.Slotted) (ops : List Operation)
    (hops : ∀ op ∈ ops, op.Confined) : (ops.foldl run w).Slotted := by
  induction ops generalizing w with
  | nil => exact hs
  | cons op ops ih =>
    have hop := hops op List.mem_cons_self
    exact ih (run_tree ht op hop) (run_slotted ht hs op hop)
      fun op hop => hops op (List.mem_cons_of_mem _ hop)

end Operation

end FrameGraph
