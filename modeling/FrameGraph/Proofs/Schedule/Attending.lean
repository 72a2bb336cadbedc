import FrameGraph.Proofs.Schedule.Running
import FrameGraph.Proofs.World.Stages

/-!
# Attending to nodes

Building, updating and tearing down run the nodes of a schedule that are there. No scope has a step
by that, and nothing is made or taken away.
-/
namespace FrameGraph

theorem LifeStep.subject_of_isOf {step : LifeStep} {x : NodeId} (h : step.isOf x = true) :
    step.subject = .node x := by
  cases step with
  | nodeSetUp | nodeUpdated | nodeDestroyed => exact congrArg Member.node (of_decide_eq_true h)
  | scopeSetUp | scopeDestroyed => cases h

namespace World

variable {w w' w'' : World}

/-- Nodes that are there were run, and nothing is different but their states. -/
structure Attends (w w' : World) : Prop where
  scopes : w'.scopes = w.scopes
  nodeKey : ∀ x, w'.nodeKey? x = w.nodeKey? x
  nodes : w'.nodes.size = w.nodes.size
  steps : ∃ done, w'.steps = w.steps ++ done ∧
    ∀ step ∈ done, ∃ x, step.isOf x = true ∧ w.Lives (.node x)

namespace Attends

theorem of_silent (hscopes : w'.scopes = w.scopes) (hkey : ∀ x, w'.nodeKey? x = w.nodeKey? x)
    (hnodes : w'.nodes.size = w.nodes.size) (hsteps : w'.steps = w.steps) : Attends w w' :=
  ⟨hscopes, hkey, hnodes, [], by rw [hsteps, List.append_nil], List.forall_mem_nil _⟩

theorem refl (w : World) : Attends w w := .of_silent rfl (fun _ => rfl) rfl rfl

theorem trans (h : Attends w w') (h' : Attends w' w'') : Attends w w'' := by
  obtain ⟨done, hsteps, hthere⟩ := h.steps
  obtain ⟨done', hsteps', hthere'⟩ := h'.steps
  refine ⟨h'.scopes.trans h.scopes, fun x => (h'.nodeKey x).trans (h.nodeKey x),
    h'.nodes.trans h.nodes, done ++ done', by rw [hsteps', hsteps, List.append_assoc],
    fun step hstep => ?_⟩
  obtain hstep | hstep := List.mem_append.mp hstep
  · exact hthere step hstep
  · obtain ⟨x, hof, hlives⟩ := hthere' step hstep
    exact ⟨x, hof, lives_node_iff.mpr (h.nodeKey x ▸ lives_node_iff.mp hlives)⟩

theorem record (w : World) {e : Event} (he : e.step? = none) : Attends w (w.record e) :=
  .of_silent rfl (fun _ => rfl) rfl (w.steps_record he)

theorem recordAll (w : World) {es : List Event} (h : ∀ e ∈ es, e.step? = none) :
    Attends w (w.recordAll es) :=
  .of_silent (w.recordAll_scopes es) (fun x => by rw [nodeKey?, node?_recordAll]; rfl)
    (by rw [recordAll_nodes]) (w.steps_recordAll h)

/-- A node was run: it has said something, its state was changed, and it has a step. -/
theorem run {id : NodeId} {n n' : Node} {step : LifeStep} (hn : w.node? id = some n)
    (hbare : n'.bare = n.bare) (hof : step.isOf id = true) (notes : List String) :
    Attends w (((w.recordNotes notes).setNode id (some n')).record (.life step)) := by
  have hwiring : SameWiring w (((w.recordNotes notes).setNode id (some n')).record (.life step)) :=
    ((SameWiring.recordAll w _).trans
      (.setNode ((w.node?_recordNotes notes id).trans hn) hbare)).trans (.record _ _)
  refine ⟨hwiring.scopes, hwiring.sameTree.nodeKey, by simp, [step], by simp, fun step' hstep => ?_⟩
  rw [List.mem_singleton.mp hstep]
  exact ⟨id, hof, n, hn⟩

theorem foldl {α : Type} {f : World → α → World} (h : ∀ w a, Attends w (f w a)) (l : List α)
    (w : World) : Attends w (l.foldl f w) := by
  induction l generalizing w with
  | nil => exact .refl w
  | cons a l ih => exact (h w a).trans (ih _)

/-- No scope is concerned. -/
theorem settles (h : Attends w w') : Settles (fun _ => False) w w' := by
  intro hw
  obtain ⟨done, hsteps, hthere⟩ := h.steps
  have htree : SameTree w w' := .of_scopes h.scopes h.nodeKey
  have hproceeds : Proceeds w w' done := by
    refine .of_no_farewell (.of_sameTree htree h.nodes) hsteps (fun step hstep => ?_) fun x hx => ?_
    · obtain ⟨x, hof, hlives⟩ := hthere step hstep
      rw [LifeStep.subject_of_isOf hof]
      exact .inl hlives
    · obtain ⟨y, hof, -⟩ := hthere _ hx
      cases hof
  refine .of_departs hw (hw.forest.sameTree htree) (.of_quiet hproceeds htree.size (fun x => ?_)
    fun step hstep x => ?_)
  · exact phase?_of_scope? (by rw [scope?, scope?, h.scopes])
  · obtain ⟨y, hof, -⟩ := hthere step hstep
    cases step with
    | nodeSetUp | nodeUpdated | nodeDestroyed => rfl
    | scopeSetUp | scopeDestroyed => cases hof

end Attends

end World

namespace Schedule

open World

variable (w : World)

theorem takeDownNode_attends (id : NodeId) : Attends w (takeDownNode w id) := by
  rw [takeDownNode]
  cases hn : w.node? id with
  | none => exact .refl w
  | some n =>
    dsimp only
    split
    · refine .run hn ?_ ?_ _
      · rfl
      · exact decide_eq_true rfl
    · exact .refl w

theorem takeDown_attends (nodes : List NodeId) : Attends w (takeDown w nodes) :=
  .foldl takeDownNode_attends nodes.reverse w

theorem startNode_attends {id : NodeId} {n : Node} (hn : w.node? id = some n) :
    Attends w (startNode w id n).1 := by
  rw [startNode]
  dsimp only
  split
  · refine .run hn ?_ ?_ _
    · rfl
    · exact decide_eq_true rfl
  · refine .run hn ?_ ?_ _
    · rfl
    · exact decide_eq_true rfl

theorem setUpNode_attends (id : NodeId) : Attends w (setUpNode w id).1 := by
  rw [setUpNode]
  cases hn : w.node? id with
  | none => exact .refl w
  | some n =>
    dsimp only
    split
    · exact .refl w
    · have hstart := startNode_attends w hn
      generalize startNode w id n = started at hstart ⊢
      obtain ⟨w', reason⟩ := started
      cases reason with
      | some reason => exact hstart
      | none => exact hstart.trans (.record _ rfl)

theorem setUpAll_attends (done rest : List NodeId) : Attends w (setUpAll w done rest).1 := by
  induction rest generalizing w done with
  | nil => exact .refl w
  | cons id rest ih =>
    rw [setUpAll]
    have hnode := setUpNode_attends w id
    generalize setUpNode w id = result at hnode ⊢
    obtain ⟨w', failure⟩ := result
    cases failure with
    | none => exact hnode.trans (ih w' (id :: done))
    | some e => exact (hnode.trans (.record w' rfl)).trans (takeDown_attends _ _)

theorem build_attends : Attends w (build w).1 := by
  rw [build]
  cases sort w w.gather with
  | error e =>
    cases e with
    | cycle nodes => exact .record w rfl
    | incomplete node slot missing => exact .refl w
    | incompatible node slot found => exact .refl w
    | setup node reason => exact .refl w
  | ok order =>
    dsimp only
    have hevents : ∀ e ∈ (unconnected w order).map fun missing =>
        Event.inputUnconnected missing.1 missing.2, e.step? = none := by
      intro e he
      obtain ⟨missing, -, rfl⟩ := List.mem_map.mp he
      rfl
    have hlogged := Attends.recordAll w hevents
    split
    · exact hlogged
    · have hall := hlogged.trans (setUpAll_attends _ [] order)
      revert hall
      generalize setUpAll _ [] order = result
      obtain ⟨w', failure⟩ := result
      intro hall
      cases failure with
      | some e => exact hall
      | none => exact hall.trans (.record _ rfl)

theorem updateNode_attends (id : NodeId) : Attends w (updateNode w id) := by
  rw [updateNode]
  cases hn : w.node? id with
  | none => exact .refl w
  | some n =>
    refine .run hn ?_ ?_ _
    · rfl
    · exact decide_eq_true rfl

theorem update_attends (g : Schedule) : Attends w (g.update w) :=
  .foldl updateNode_attends g.order w

theorem tearDown_attends (g : Schedule) : Attends w (g.tearDown w) := by
  have hdisconnect (w : World) (id : NodeId) : Attends w (w.modifyNode id Node.disconnect) :=
    .of_silent (w.modifyNode_scopes _ _)
      (SameTree.modifyNode w id (f := Node.disconnect) fun n => ⟨rfl, rfl⟩).nodeKey
      (w.modifyNode_size _ _) (w.steps_modifyNode _ _)
  exact ((takeDown_attends w g.order).trans (.foldl hdisconnect g.order _)).trans (.record _ rfl)

end Schedule

end FrameGraph
