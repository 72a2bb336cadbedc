import FrameGraph.Proofs.World.Steps
import Mathlib.Data.List.Induction

/-!
# The course of lives

Which steps are possible depends on which nodes are set up: only such a node is updated or destroyed,
and only another one is set up. Where all steps were possible, the steps of each node come in blocks,
one for every setup, and what is set up at last has a block that is still open.
-/
namespace FrameGraph

namespace LifeStep

/-- The step is one of the node. -/
def isOf (id : NodeId) : LifeStep → Bool
  | nodeSetUp x _ | nodeUpdated x | nodeDestroyed x => x = id
  | scopeSetUp .. | scopeDestroyed _ => false

/-- The nodes that are set up after a step, the latest first, given those before it. There are none
if the step was not possible. -/
def advance (up : List NodeId) : LifeStep → Option (List NodeId)
  | nodeSetUp id ok => if id ∈ up then none else some (if ok then id :: up else up)
  | nodeUpdated id => if id ∈ up then some up else none
  | nodeDestroyed id => if id ∈ up then some (up.erase id) else none
  | scopeSetUp .. | scopeDestroyed _ => some up

end LifeStep

open LifeStep

/-- The nodes that are set up after the steps, the latest first, if all steps were possible. -/
def course (up : List NodeId) (steps : List LifeStep) : Option (List NodeId) :=
  steps.foldlM advance up

/-- The steps of a node, in blocks. Either its setup was refused, or it was completed, and then the
node was updated any number of times and destroyed once. -/
inductive Blocks (id : NodeId) : List LifeStep → Prop
  | none : Blocks id []
  | refused {steps : List LifeStep} (before : Blocks id steps) :
    Blocks id (steps ++ [.nodeSetUp id false])
  | lived {steps : List LifeStep} (before : Blocks id steps) (updates : Nat) :
    Blocks id
      (steps ++ .nodeSetUp id true :: List.replicate updates (.nodeUpdated id) ++ [.nodeDestroyed id])

/-- The last block of the node lacks the destruction. -/
def OpenBlock (id : NodeId) (steps : List LifeStep) : Prop :=
  ∃ before updates, Blocks id before ∧
    steps = before ++ .nodeSetUp id true :: List.replicate updates (.nodeUpdated id)

variable {id : NodeId} {up up' : List NodeId} {steps : List LifeStep} {step : LifeStep}

theorem course_append (up : List NodeId) (steps more : List LifeStep) :
    course up (steps ++ more) = (course up steps).bind fun up => course up more :=
  List.foldlM_append

theorem course_cons (up : List NodeId) (step : LifeStep) (steps : List LifeStep) :
    course up (step :: steps) = (step.advance up).bind fun up => course up steps :=
  List.foldlM_cons

/-- A step in the middle was possible for what was set up then. -/
theorem advance_of_course {before after : List LifeStep}
    (h : course [] (before ++ step :: after) = some up') :
    ∃ now next, course [] before = some now ∧ step.advance now = some next := by
  rw [course_append, Option.bind_eq_some_iff] at h
  obtain ⟨now, hnow, h⟩ := h
  rw [course_cons, Option.bind_eq_some_iff] at h
  obtain ⟨next, hnext, -⟩ := h
  exact ⟨now, next, hnow, hnext⟩

/-! ## Runs of one sort -/

/-- Steps of scopes are always possible. -/
theorem course_of_scopes (h : ∀ step ∈ steps, ∀ id, step.isOf id = false) (up : List NodeId) :
    course up steps = some up := by
  induction steps with
  | nil => rfl
  | cons step steps ih =>
    obtain ⟨hstep, hsteps⟩ := List.forall_mem_cons.mp h
    have hadvance : step.advance up = some up := by
      cases step with
      | nodeSetUp id ok => simpa [isOf] using hstep id
      | nodeUpdated id => simpa [isOf] using hstep id
      | nodeDestroyed id => simpa [isOf] using hstep id
      | scopeSetUp id ok => rfl
      | scopeDestroyed id => rfl
    rw [course_cons, hadvance]
    exact ih hsteps

theorem course_setUps {ids : List NodeId} (hids : ids.Nodup) (h : ∀ id ∈ ids, id ∉ up) :
    course up (ids.map (.nodeSetUp · true)) = some (ids.reverse ++ up) := by
  induction ids generalizing up with
  | nil => rfl
  | cons id ids ih =>
    obtain ⟨hid, hids⟩ := List.nodup_cons.mp hids
    obtain ⟨hfree, hrest⟩ := List.forall_mem_cons.mp h
    have hadvance : advance up (.nodeSetUp id true) = some (id :: up) := if_neg hfree
    rw [List.map_cons, course_cons, hadvance, Option.bind_some, ih hids, List.reverse_cons,
      List.append_assoc, List.singleton_append]
    intro x hx hmem
    obtain rfl | hmem := List.mem_cons.mp hmem
    · exact hid hx
    · exact hrest x hx hmem

theorem course_updates {ids : List NodeId} (h : ∀ id ∈ ids, id ∈ up) :
    course up (ids.map .nodeUpdated) = some up := by
  induction ids with
  | nil => rfl
  | cons id ids ih =>
    obtain ⟨hid, hids⟩ := List.forall_mem_cons.mp h
    have hadvance : advance up (.nodeUpdated id) = some up := if_pos hid
    rw [List.map_cons, course_cons, hadvance]
    exact ih hids

/-- What is set up can be destroyed, the latest first. -/
theorem course_destroys (up : List NodeId) : course up (up.map .nodeDestroyed) = some [] := by
  induction up with
  | nil => rfl
  | cons id up ih =>
    have hadvance : advance (id :: up) (.nodeDestroyed id) = some up := by
      rw [advance, if_pos List.mem_cons_self, List.erase_cons_head]
    rw [List.map_cons, course_cons, hadvance]
    exact ih

/-! ## Single steps -/

/-- What a step was, and what it has changed. -/
inductive Advances (up : List NodeId) : LifeStep → List NodeId → Prop
  | refused {id : NodeId} (down : id ∉ up) : Advances up (.nodeSetUp id false) up
  | completed {id : NodeId} (down : id ∉ up) : Advances up (.nodeSetUp id true) (id :: up)
  | updated {id : NodeId} (isUp : id ∈ up) : Advances up (.nodeUpdated id) up
  | destroyed {id : NodeId} (isUp : id ∈ up) : Advances up (.nodeDestroyed id) (up.erase id)
  | scope {step : LifeStep} (other : ∀ id, step.isOf id = false) : Advances up step up

theorem advances_of_advance (h : step.advance up = some up') : Advances up step up' := by
  cases step with
  | nodeSetUp id ok =>
    obtain ⟨hdown, hup⟩ := Option.ite_none_left_eq_some.mp h
    cases hup
    cases ok with
    | false => exact .refused hdown
    | true => exact .completed hdown
  | nodeUpdated id =>
    obtain ⟨hup, heq⟩ := Option.ite_none_right_eq_some.mp h
    cases heq
    exact .updated hup
  | nodeDestroyed id =>
    obtain ⟨hup, heq⟩ := Option.ite_none_right_eq_some.mp h
    cases heq
    exact .destroyed hup
  | scopeSetUp id ok =>
    cases h
    exact .scope fun _ => rfl
  | scopeDestroyed id =>
    cases h
    exact .scope fun _ => rfl

theorem Advances.nodup (h : Advances up step up') (hup : up.Nodup) : up'.Nodup := by
  cases h with
  | refused | updated | scope => exact hup
  | completed down => exact List.nodup_cons.mpr ⟨down, hup⟩
  | destroyed => exact hup.erase _

/-- A step changes nothing about other nodes. -/
theorem Advances.mem_iff (h : Advances up step up') (hof : step.isOf id = false) :
    id ∈ up' ↔ id ∈ up := by
  cases h with
  | refused | updated | scope => rfl
  | completed =>
    have hne : id ≠ _ := Ne.symm (of_decide_eq_false hof)
    rw [List.mem_cons, or_iff_right hne]
  | destroyed => exact List.mem_erase_of_ne (Ne.symm (of_decide_eq_false hof))

/-! ## Blocks -/

theorem OpenBlock.updated (h : OpenBlock id steps) : OpenBlock id (steps ++ [.nodeUpdated id]) := by
  obtain ⟨before, updates, hbefore, rfl⟩ := h
  exact ⟨before, updates + 1, hbefore, by simp [List.replicate_succ']⟩

theorem OpenBlock.destroyed (h : OpenBlock id steps) : Blocks id (steps ++ [.nodeDestroyed id]) := by
  obtain ⟨before, updates, hbefore, rfl⟩ := h
  exact .lived hbefore updates

/-- The node has a block that is open if it is set up, and all its blocks are closed if not. -/
structure InBlocks (id : NodeId) (up : List NodeId) (steps : List LifeStep) : Prop where
  isOpen : id ∈ up → OpenBlock id steps
  isClosed : id ∉ up → Blocks id steps

/-- A step of the node extends its last block or starts another. -/
theorem InBlocks.advance (h : InBlocks id up steps) (hup : up.Nodup) (hof : step.isOf id = true)
    (hstep : Advances up step up') : InBlocks id up' (steps ++ [step]) := by
  cases hstep with
  | refused down =>
    obtain rfl := of_decide_eq_true hof
    exact ⟨fun hmem => absurd hmem down, fun _ => .refused (h.isClosed down)⟩
  | completed down =>
    obtain rfl := of_decide_eq_true hof
    exact ⟨fun _ => ⟨steps, 0, h.isClosed down, rfl⟩, fun hnot => absurd List.mem_cons_self hnot⟩
  | updated isUp =>
    obtain rfl := of_decide_eq_true hof
    exact ⟨fun _ => (h.isOpen isUp).updated, fun hnot => absurd isUp hnot⟩
  | destroyed isUp =>
    obtain rfl := of_decide_eq_true hof
    exact ⟨fun hmem => absurd hmem hup.not_mem_erase, fun _ => (h.isOpen isUp).destroyed⟩
  | scope other =>
    rw [other] at hof
    cases hof

/-- Where all steps were possible, the lives of all nodes are in blocks. -/
theorem course_inBlocks (h : course [] steps = some up) :
    up.Nodup ∧ ∀ id, InBlocks id up (steps.filter (isOf id)) := by
  induction steps using List.reverseRecOn generalizing up with
  | nil =>
    cases h
    exact ⟨.nil, fun id => ⟨nofun, fun _ => .none⟩⟩
  | append_singleton steps step ih =>
    rw [course_append, Option.bind_eq_some_iff] at h
    obtain ⟨now, hnow, hstep⟩ := h
    rw [course_cons, Option.bind_eq_some_iff] at hstep
    obtain ⟨next, hnext, hnil⟩ := hstep
    cases hnil
    have hadvances := advances_of_advance hnext
    obtain ⟨hnodup, hblocks⟩ := ih hnow
    refine ⟨hadvances.nodup hnodup, fun id => ?_⟩
    rw [List.filter_append]
    cases hof : step.isOf id with
    | true =>
      rw [List.filter_cons_of_pos hof, List.filter_nil]
      exact (hblocks id).advance hnodup hof hadvances
    | false =>
      have hmem := hadvances.mem_iff hof
      rw [List.filter_cons_of_neg (ne_true_of_eq_false hof), List.filter_nil, List.append_nil]
      exact ⟨fun h => (hblocks id).isOpen (hmem.mp h), fun h => (hblocks id).isClosed (hmem.not.mp h)⟩

end FrameGraph
