import FrameGraph.World.Basic
import Mathlib.Logic.Basic

/-!
# Places

What is found at the place of an id after a place has been written. Writing events down changes no
place, and nothing that is done to nodes changes a scope, nor the other way round.
-/
namespace FrameGraph

/-- What is at a place, unless it is empty. -/
def placed? {α : Type} (places : Array (Option α)) (i : Nat) : Option α := (places[i]?).join

theorem placed?_set {α : Type} (places : Array (Option α)) (i : Nat) (a : Option α) (j : Nat) :
    placed? (places.setIfInBounds i a) j =
      if j = i ∧ i < places.size then a else placed? places j := by
  rw [placed?, Array.getElem?_setIfInBounds]
  by_cases hj : i = j
  · subst hj
    by_cases hi : i < places.size
    · simp [hi]
    · simp [placed?, hi]
  · rw [if_neg hj, if_neg fun h => hj h.1.symm, placed?]

theorem placed?_push {α : Type} (places : Array (Option α)) (a : Option α) (j : Nat) :
    placed? (places.push a) j = if j = places.size then a else placed? places j := by
  rw [placed?, Array.getElem?_push]
  by_cases hj : j = places.size
  · simp [hj]
  · simp [placed?, hj]

theorem lt_size_of_placed? {α : Type} {places : Array (Option α)} {i : Nat} {a : α}
    (h : placed? places i = some a) : i < places.size := by
  refine Nat.lt_of_not_le fun hi => ?_
  simp [placed?, hi] at h

theorem placed?_eq_none_of_le {α : Type} {places : Array (Option α)} {i : Nat}
    (h : places.size ≤ i) : placed? places i = none := by
  simp [placed?, h]

/-- Places with the same content are the same, but for empty places behind. -/
theorem eq_append_of_placed? {α : Type} {places places' : Array (Option α)}
    (hsize : places.size ≤ places'.size) (h : ∀ i, placed? places' i = placed? places i) :
    places' = places ++ Array.replicate (places'.size - places.size) none := by
  refine Array.ext (by simp; omega) fun i hi hi' => ?_
  have hplace := h i
  rw [placed?, Array.getElem?_eq_getElem hi, Option.join_some] at hplace
  rw [hplace, Array.getElem_append]
  split
  · rename_i hlt
    rw [placed?, Array.getElem?_eq_getElem hlt, Option.join_some]
  · rename_i hle
    rw [placed?_eq_none_of_le (Nat.le_of_not_lt hle), Array.getElem_replicate]

theorem NodeId.index_eq_iff {a b : NodeId} : a.index = b.index ↔ a = b :=
  ⟨congrArg NodeId.mk, congrArg NodeId.index⟩

theorem ScopeId.index_eq_iff {a b : ScopeId} : a.index = b.index ↔ a = b :=
  ⟨congrArg ScopeId.mk, congrArg ScopeId.index⟩

namespace World

variable (w : World)

/-! ## Events -/

@[simp] theorem record_nodes (e : Event) : (w.record e).nodes = w.nodes := rfl

@[simp] theorem record_scopes (e : Event) : (w.record e).scopes = w.scopes := rfl

@[simp] theorem recordAll_nodes (es : List Event) : (w.recordAll es).nodes = w.nodes := by
  induction es generalizing w with
  | nil => rfl
  | cons e es ih => exact ih (w.record e)

@[simp] theorem recordAll_scopes (es : List Event) : (w.recordAll es).scopes = w.scopes := by
  induction es generalizing w with
  | nil => rfl
  | cons e es ih => exact ih (w.record e)

@[simp] theorem node?_record (e : Event) (x : NodeId) : (w.record e).node? x = w.node? x := rfl

@[simp] theorem scope?_record (e : Event) (x : ScopeId) : (w.record e).scope? x = w.scope? x := rfl

@[simp] theorem node?_recordAll (es : List Event) (x : NodeId) :
    (w.recordAll es).node? x = w.node? x := by
  rw [node?, recordAll_nodes, node?]

@[simp] theorem scope?_recordAll (es : List Event) (x : ScopeId) :
    (w.recordAll es).scope? x = w.scope? x := by
  rw [scope?, recordAll_scopes, scope?]

@[simp] theorem node?_recordNotes (notes : List String) (x : NodeId) :
    (w.recordNotes notes).node? x = w.node? x :=
  w.node?_recordAll _ x

@[simp] theorem recordNotes_nodes (notes : List String) : (w.recordNotes notes).nodes = w.nodes :=
  w.recordAll_nodes _

/-! ## Nodes -/

@[simp] theorem setNode_scopes (id : NodeId) (n : Option Node) :
    (w.setNode id n).scopes = w.scopes := rfl

@[simp] theorem modifyNode_scopes (id : NodeId) (f : Node → Node) :
    (w.modifyNode id f).scopes = w.scopes := by
  rw [modifyNode]
  split <;> rfl

@[simp] theorem setNode_size (id : NodeId) (n : Option Node) :
    (w.setNode id n).nodes.size = w.nodes.size :=
  Array.size_setIfInBounds

@[simp] theorem modifyNode_size (id : NodeId) (f : Node → Node) :
    (w.modifyNode id f).nodes.size = w.nodes.size := by
  rw [modifyNode]
  split
  · exact w.setNode_size _ _
  · rfl

variable {w}

theorem lt_size_of_node? {x : NodeId} {n : Node} (h : w.node? x = some n) :
    x.index < w.nodes.size :=
  lt_size_of_placed? h

theorem lt_size_of_scope? {x : ScopeId} {s : Scope} (h : w.scope? x = some s) :
    x.index < w.scopes.size :=
  lt_size_of_placed? h

theorem node?_of_size_le {x : NodeId} (h : w.nodes.size ≤ x.index) : w.node? x = none :=
  placed?_eq_none_of_le h

theorem scope?_of_size_le {x : ScopeId} (h : w.scopes.size ≤ x.index) : w.scope? x = none :=
  placed?_eq_none_of_le h

variable (w)

theorem node?_next : w.node? ⟨w.nodes.size⟩ = none := node?_of_size_le (Nat.le_refl _)

theorem scope?_next : w.scope? ⟨w.scopes.size⟩ = none := scope?_of_size_le (Nat.le_refl _)

theorem node?_setNode (id : NodeId) (n : Option Node) (x : NodeId) :
    (w.setNode id n).node? x = if x = id ∧ id.index < w.nodes.size then n else w.node? x :=
  (placed?_set w.nodes id.index n x.index).trans
    (if_congr (and_congr_left' NodeId.index_eq_iff) rfl rfl)

theorem node?_setNode_none (id x : NodeId) :
    (w.setNode id none).node? x = if x = id then none else w.node? x := by
  rw [node?_setNode]
  by_cases hx : x = id
  · by_cases hid : id.index < w.nodes.size
    · rw [if_pos ⟨hx, hid⟩, if_pos hx]
    · rw [if_neg fun h => hid h.2, if_pos hx, hx, node?_of_size_le (Nat.le_of_not_lt hid)]
  · rw [if_neg fun h => hx h.1, if_neg hx]

theorem node?_push (n : Option Node) (x : NodeId) :
    World.node? { w with nodes := w.nodes.push n } x =
      if x = ⟨w.nodes.size⟩ then n else w.node? x :=
  (placed?_push w.nodes n x.index).trans
    (if_congr (NodeId.index_eq_iff (b := ⟨w.nodes.size⟩)) rfl rfl)

@[simp] theorem scope?_setNode (id : NodeId) (n : Option Node) (x : ScopeId) :
    (w.setNode id n).scope? x = w.scope? x := rfl

theorem node?_modifyNode (id : NodeId) (f : Node → Node) (x : NodeId) :
    (w.modifyNode id f).node? x = if x = id then (w.node? id).map f else w.node? x := by
  rw [modifyNode]
  cases hn : w.node? id with
  | none =>
    by_cases hx : x = id
    · rw [if_pos hx, hx]
      exact hn
    · rw [if_neg hx]
  | some n =>
    show (w.setNode id _).node? x = _
    rw [node?_setNode]
    simp only [lt_size_of_node? hn, and_true]
    rfl

@[simp] theorem scope?_modifyNode (id : NodeId) (f : Node → Node) (x : ScopeId) :
    (w.modifyNode id f).scope? x = w.scope? x := by
  rw [modifyNode]
  split <;> rfl

/-! ## Scopes -/

@[simp] theorem setScope_nodes (id : ScopeId) (s : Option Scope) :
    (w.setScope id s).nodes = w.nodes := rfl

@[simp] theorem modifyScope_nodes (id : ScopeId) (f : Scope → Scope) :
    (w.modifyScope id f).nodes = w.nodes := by
  rw [modifyScope]
  split <;> rfl

@[simp] theorem setScope_size (id : ScopeId) (s : Option Scope) :
    (w.setScope id s).scopes.size = w.scopes.size :=
  Array.size_setIfInBounds

@[simp] theorem modifyScope_size (id : ScopeId) (f : Scope → Scope) :
    (w.modifyScope id f).scopes.size = w.scopes.size := by
  rw [modifyScope]
  split
  · exact w.setScope_size _ _
  · rfl

theorem scope?_setScope (id : ScopeId) (s : Option Scope) (x : ScopeId) :
    (w.setScope id s).scope? x = if x = id ∧ id.index < w.scopes.size then s else w.scope? x :=
  (placed?_set w.scopes id.index s x.index).trans
    (if_congr (and_congr_left' ScopeId.index_eq_iff) rfl rfl)

theorem scope?_setScope_none (id x : ScopeId) :
    (w.setScope id none).scope? x = if x = id then none else w.scope? x := by
  rw [scope?_setScope]
  by_cases hx : x = id
  · by_cases hid : id.index < w.scopes.size
    · rw [if_pos ⟨hx, hid⟩, if_pos hx]
    · rw [if_neg fun h => hid h.2, if_pos hx, hx, scope?_of_size_le (Nat.le_of_not_lt hid)]
  · rw [if_neg fun h => hx h.1, if_neg hx]

theorem scope?_push (s : Option Scope) (x : ScopeId) :
    World.scope? { w with scopes := w.scopes.push s } x =
      if x = ⟨w.scopes.size⟩ then s else w.scope? x :=
  (placed?_push w.scopes s x.index).trans
    (if_congr (ScopeId.index_eq_iff (b := ⟨w.scopes.size⟩)) rfl rfl)

@[simp] theorem node?_setScope (id : ScopeId) (s : Option Scope) (x : NodeId) :
    (w.setScope id s).node? x = w.node? x := rfl

theorem scope?_modifyScope (id : ScopeId) (f : Scope → Scope) (x : ScopeId) :
    (w.modifyScope id f).scope? x = if x = id then (w.scope? id).map f else w.scope? x := by
  rw [modifyScope]
  cases hs : w.scope? id with
  | none =>
    by_cases hx : x = id
    · rw [if_pos hx, hx]
      exact hs
    · rw [if_neg hx]
  | some s =>
    show (w.setScope id _).scope? x = _
    rw [scope?_setScope]
    simp only [lt_size_of_scope? hs, and_true]
    rfl

@[simp] theorem node?_modifyScope (id : ScopeId) (f : Scope → Scope) (x : NodeId) :
    (w.modifyScope id f).node? x = w.node? x := by
  rw [modifyScope]
  split <;> rfl

end World

end FrameGraph
