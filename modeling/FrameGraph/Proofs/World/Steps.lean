import FrameGraph.Proofs.World.Places

/-!
# Steps in the journal

The journal has every run of a behaviour in it, as a step in the life of a node or a scope. What
else is written down is no step.
-/
namespace FrameGraph

/-- The step that an event is, if it is one. -/
def Event.step? : Event → Option LifeStep
  | .life step => some step
  | _ => none

theorem Event.step?_eq_none {e : Event} (h : ∀ step, e ≠ .life step) : e.step? = none := by
  cases e with
  | life step => exact absurd rfl (h step)
  | _ => rfl

/-- A list that is cut at an element is cut there in its front or in its back. -/
theorem append_eq_append_cons {α : Type} {front back before after : List α} {a : α}
    (h : front ++ back = before ++ a :: after) :
    (∃ rest, front = before ++ a :: rest ∧ after = rest ++ back) ∨
      ∃ rest, before = front ++ rest ∧ back = rest ++ a :: after := by
  obtain ⟨rest, hbefore, hback⟩ | ⟨rest, hfront, hafter⟩ := List.append_eq_append_iff.mp h
  · exact .inr ⟨rest, hbefore, hback⟩
  · cases rest with
    | nil => exact .inr ⟨[], by simpa using hfront.symm, by simpa using hafter.symm⟩
    | cons b rest =>
      cases hafter
      exact .inl ⟨rest, hfront, rfl⟩

namespace World

variable (w : World)

/-- The steps so far, the first first. -/
def steps (w : World) : List LifeStep := w.journal.toList.filterMap Event.step?

/-- The node is there and set up. -/
def isUp (w : World) (x : NodeId) : Bool := (w.node? x).any Node.isSetUp

theorem steps_push (e : Event) : (w.record e).steps = w.steps ++ e.step?.toList := by
  simp only [steps, record, Array.toList_push, List.filterMap_append]
  cases h : e.step? <;> simp [h]

@[simp] theorem steps_life (step : LifeStep) :
    (w.record (.life step)).steps = w.steps ++ [step] :=
  w.steps_push _

theorem steps_record {e : Event} (h : e.step? = none) : (w.record e).steps = w.steps := by
  rw [steps_push, h, Option.toList_none, List.append_nil]

theorem steps_recordAll {es : List Event} (h : ∀ e ∈ es, e.step? = none) :
    (w.recordAll es).steps = w.steps := by
  induction es generalizing w with
  | nil => rfl
  | cons e es ih =>
    exact (ih (w.record e) fun e he => h e (List.mem_cons_of_mem _ he)).trans
      (w.steps_record (h e List.mem_cons_self))

@[simp] theorem steps_recordNotes (notes : List String) : (w.recordNotes notes).steps = w.steps := by
  refine w.steps_recordAll fun e he => ?_
  obtain ⟨text, -, rfl⟩ := List.mem_map.mp he
  rfl

@[simp] theorem steps_setNode (id : NodeId) (n : Option Node) : (w.setNode id n).steps = w.steps :=
  rfl

@[simp] theorem steps_setScope (id : ScopeId) (s : Option Scope) :
    (w.setScope id s).steps = w.steps := rfl

@[simp] theorem steps_modifyNode (id : NodeId) (f : Node → Node) :
    (w.modifyNode id f).steps = w.steps := by
  rw [modifyNode]
  split <;> rfl

@[simp] theorem steps_modifyScope (id : ScopeId) (f : Scope → Scope) :
    (w.modifyScope id f).steps = w.steps := by
  rw [modifyScope]
  split <;> rfl

/-! ## Which nodes are set up -/

variable {w} {w' : World}

theorem isUp_of_node? {x : NodeId} (h : w'.node? x = w.node? x) : w'.isUp x = w.isUp x := by
  rw [isUp, isUp, h]

theorem isUp_eq_true_iff {x : NodeId} :
    w.isUp x = true ↔ ∃ n, w.node? x = some n ∧ n.isSetUp = true := by
  rw [isUp, Option.any_eq_true]

variable (w)

@[simp] theorem isUp_record (e : Event) (x : NodeId) : (w.record e).isUp x = w.isUp x := rfl

@[simp] theorem isUp_recordAll (es : List Event) (x : NodeId) :
    (w.recordAll es).isUp x = w.isUp x :=
  isUp_of_node? (w.node?_recordAll es x)

@[simp] theorem isUp_recordNotes (notes : List String) (x : NodeId) :
    (w.recordNotes notes).isUp x = w.isUp x :=
  w.isUp_recordAll _ x

theorem isUp_setNode {id : NodeId} {n : Node} (hn : w.node? id = some n) (n' : Node)
    (x : NodeId) : (w.setNode id (some n')).isUp x = if x = id then n'.isSetUp else w.isUp x := by
  rw [isUp, isUp, node?_setNode]
  simp only [lt_size_of_node? hn, and_true]
  split <;> rfl

theorem isUp_modifyNode (id : NodeId) {f : Node → Node} (hf : ∀ n, (f n).isSetUp = n.isSetUp)
    (x : NodeId) : (w.modifyNode id f).isUp x = w.isUp x := by
  rw [isUp, isUp, node?_modifyNode]
  split
  · rename_i hx
    rw [hx, Option.any_map]
    exact congrArg (Option.any · (w.node? id)) (funext hf)
  · rfl

end World

end FrameGraph
