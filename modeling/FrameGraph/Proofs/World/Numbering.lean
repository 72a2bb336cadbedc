import FrameGraph.Proofs.Assembly.Connections
import FrameGraph.Proofs.Schedule.Attending
import FrameGraph.Proofs.World.Reached

/-!
# Numbers

Nodes and scopes lie in places that are taken one after the other. Whatever is done, a place is taken
once and it is left for good, so the number of what has gone is not given to anything else.
-/
namespace FrameGraph

/-- What becomes of a place: it is taken by something new, or what was there leaves it. -/
inductive Move where
  | taken (place : Nat)
  | left (place : Nat)

/-- The place, if it is taken. -/
def Move.taken? : Move → Option Nat
  | taken place => some place
  | left _ => none

/-- The places that are taken, in the order in which they are. -/
def takenPlaces (moves : List Move) : List Nat := moves.filterMap Move.taken?

/-- The second places come from the first by the moves: the next place is taken, what is in a place
leaves it, or what is in the places changes while the same places are full. -/
inductive Moves {α : Type} (a : Array (Option α)) : List Move → Array (Option α) → Prop
  | start : Moves a [] a
  | change {moves : List Move} {b c : Array (Option α)} (before : Moves a moves b)
    (size : c.size = b.size) (full : ∀ i, (placed? c i).isSome = (placed? b i).isSome) :
    Moves a moves c
  | take {moves : List Move} {b : Array (Option α)} (before : Moves a moves b) (x : α) :
    Moves a (moves ++ [.taken b.size]) (b.push (some x))
  | leave {moves : List Move} {b : Array (Option α)} {i : Nat} (before : Moves a moves b)
    (full : (placed? b i).isSome = true) :
    Moves a (moves ++ [.left i]) (b.setIfInBounds i none)

theorem eq_none_iff_of_isSome {α : Type} {o o' : Option α} (h : o.isSome = o'.isSome) :
    o = none ↔ o' = none := by
  rw [← Option.not_isSome_iff_eq_none, h, Option.not_isSome_iff_eq_none]

theorem takenPlaces_append (moves more : List Move) :
    takenPlaces (moves ++ more) = takenPlaces moves ++ takenPlaces more :=
  List.filterMap_append

namespace Moves

variable {α : Type} {a b c : Array (Option α)} {moves more : List Move} {i : Nat}

theorem trans (h : Moves a moves b) (h' : Moves b more c) : Moves a (moves ++ more) c := by
  induction h' with
  | start => rwa [List.append_nil]
  | change _ size full ih => exact ih.change size full
  | take _ x ih =>
    rw [← List.append_assoc]
    exact ih.take x
  | leave _ full ih =>
    rw [← List.append_assoc]
    exact ih.leave full

/-- The places that are taken are the next ones, in order. -/
theorem taken_eq (h : Moves a moves b) :
    ∃ k, b.size = a.size + k ∧ takenPlaces moves = List.range' a.size k := by
  induction h with
  | start => exact ⟨0, rfl, rfl⟩
  | change _ size _ ih =>
    obtain ⟨k, hsize, htaken⟩ := ih
    exact ⟨k, size.trans hsize, htaken⟩
  | @take moves b _ x ih =>
    obtain ⟨k, hsize, htaken⟩ := ih
    refine ⟨k + 1, by rw [Array.size_push, hsize, Nat.add_assoc], ?_⟩
    rw [takenPlaces_append, htaken, List.range'_concat, hsize, Nat.one_mul]
    rfl
  | leave _ _ ih =>
    obtain ⟨k, hsize, htaken⟩ := ih
    refine ⟨k, by rw [Array.size_setIfInBounds, hsize], ?_⟩
    rw [takenPlaces_append, htaken]
    exact List.append_nil _

theorem taken_nodup (h : Moves a moves b) : (takenPlaces moves).Nodup := by
  obtain ⟨k, -, htaken⟩ := h.taken_eq
  rw [htaken]
  exact List.nodup_range'

theorem mem_taken_iff (h : Moves a moves b) : i ∈ takenPlaces moves ↔ a.size ≤ i ∧ i < b.size := by
  obtain ⟨k, hsize, htaken⟩ := h.taken_eq
  rw [htaken, List.mem_range'_1, hsize]

theorem size_le (h : Moves a moves b) : a.size ≤ b.size := by
  obtain ⟨k, hsize, -⟩ := h.taken_eq
  omega

/-- A place that is empty stays so. -/
theorem empty (h : Moves a moves b) (hi : i < a.size) (hnone : placed? a i = none) :
    placed? b i = none := by
  induction h with
  | start => exact hnone
  | change _ _ full ih => exact (eq_none_iff_of_isSome (full i)).mpr ih
  | take before x ih =>
    rw [placed?_push, if_neg (Nat.ne_of_lt (Nat.lt_of_lt_of_le hi before.size_le)), ih]
  | leave _ _ ih =>
    rw [placed?_set]
    split
    · rfl
    · exact ih

/-- What has left its place is not there any more, and nothing else is. -/
theorem empty_of_left (h : Moves a moves b) (hi : .left i ∈ moves) :
    i < b.size ∧ placed? b i = none := by
  induction h with
  | start => cases hi
  | change _ size full ih =>
    obtain ⟨hlt, hnone⟩ := ih hi
    exact ⟨size ▸ hlt, (eq_none_iff_of_isSome (full i)).mpr hnone⟩
  | take _ x ih =>
    obtain hold | hnew := List.mem_append.mp hi
    · obtain ⟨hlt, hnone⟩ := ih hold
      refine ⟨by rw [Array.size_push]; exact Nat.lt_succ_of_lt hlt, ?_⟩
      rw [placed?_push, if_neg (Nat.ne_of_lt hlt), hnone]
    · cases List.mem_singleton.mp hnew
  | @leave moves b j _ full ih =>
    rw [Array.size_setIfInBounds, placed?_set]
    obtain hold | hnew := List.mem_append.mp hi
    · obtain ⟨hlt, hnone⟩ := ih hold
      refine ⟨hlt, ?_⟩
      split
      · rfl
      · exact hnone
    · cases List.mem_singleton.mp hnew
      obtain ⟨x, hx⟩ := Option.isSome_iff_exists.mp full
      have hlt := lt_size_of_placed? hx
      exact ⟨hlt, if_pos ⟨rfl, hlt⟩⟩

/-- A place is empty because it has been left, or it has been empty from the start. -/
theorem left_of_empty (h : Moves a moves b) (hi : i < b.size) (hnone : placed? b i = none) :
    .left i ∈ moves ∨ i < a.size ∧ placed? a i = none := by
  induction h with
  | start => exact .inr ⟨hi, hnone⟩
  | change _ size full ih => exact ih (size ▸ hi) ((eq_none_iff_of_isSome (full i)).mp hnone)
  | take _ x ih =>
    rw [placed?_push] at hnone
    rw [Array.size_push] at hi
    split at hnone
    · cases hnone
    · exact (ih (by omega) hnone).imp_left (List.mem_append_left _)
  | @leave moves b j _ _ ih =>
    rw [Array.size_setIfInBounds] at hi
    rw [placed?_set] at hnone
    split at hnone
    · rename_i hj
      exact .inl (List.mem_append_right _ (by rw [hj.1]; exact List.mem_singleton_self _))
    · exact (ih hi hnone).imp_left (List.mem_append_left _)

/-- If all places are full at the start, one is empty because it has been left, or it is not among
them yet. -/
theorem empty_iff (h : Moves a moves b) (hfull : ∀ i < a.size, placed? a i ≠ none) :
    placed? b i = none ↔ .left i ∈ moves ∨ b.size ≤ i := by
  constructor
  · intro hnone
    obtain hlt | hle := Nat.lt_or_ge i b.size
    · exact .inl ((h.left_of_empty hlt hnone).resolve_right fun hold => hfull i hold.1 hold.2)
    · exact .inr hle
  · rintro (hleft | hle)
    · exact (h.empty_of_left hleft).2
    · exact placed?_eq_none_of_le hle

end Moves

namespace World

variable {w w' w'' : World}

/-- Some moves of nodes and of scopes lead from one world to the other. -/
structure Moved (w w' : World) : Prop where
  nodes : ∃ moves, Moves w.nodes moves w'.nodes
  scopes : ∃ moves, Moves w.scopes moves w'.scopes

namespace Moved

theorem trans (h : Moved w w') (h' : Moved w' w'') : Moved w w'' := by
  obtain ⟨⟨nodes, hnodes⟩, ⟨scopes, hscopes⟩⟩ := h
  obtain ⟨⟨nodes', hnodes'⟩, ⟨scopes', hscopes'⟩⟩ := h'
  exact ⟨⟨_, hnodes.trans hnodes'⟩, ⟨_, hscopes.trans hscopes'⟩⟩

theorem of_same (hnodes : w'.nodes = w.nodes) (hscopes : w'.scopes = w.scopes) : Moved w w' := by
  refine ⟨⟨[], ?_⟩, ⟨[], ?_⟩⟩
  · rw [hnodes]
    exact .start
  · rw [hscopes]
    exact .start

theorem refl (w : World) : Moved w w := of_same rfl rfl

theorem record (w : World) (e : Event) : Moved w (w.record e) := of_same rfl rfl

theorem pushNode (w : World) (n : Node) : Moved w { w with nodes := w.nodes.push (some n) } :=
  ⟨⟨_, .take .start n⟩, ⟨_, .start⟩⟩

theorem pushScope (w : World) (s : Scope) : Moved w { w with scopes := w.scopes.push (some s) } :=
  ⟨⟨_, .start⟩, ⟨_, .take .start s⟩⟩

/-- The same nodes and the same scopes are there. -/
theorem of_there (hnodes : w'.nodes.size = w.nodes.size) (hscopes : w'.scopes.size = w.scopes.size)
    (hnode : ∀ x, (w'.node? x).isSome = (w.node? x).isSome)
    (hscope : ∀ x, (w'.scope? x).isSome = (w.scope? x).isSome) : Moved w w' :=
  ⟨⟨_, .change .start hnodes fun i => hnode ⟨i⟩⟩, ⟨_, .change .start hscopes fun i => hscope ⟨i⟩⟩⟩

theorem setScope {id : ScopeId} {s : Scope} (hs : w.scope? id = some s) (t : Scope) :
    Moved w (w.setScope id (some t)) := by
  refine of_there rfl (w.setScope_size _ _) (fun _ => rfl) fun x => ?_
  rw [scope?_setScope]
  split
  · rename_i hx
    rw [hx.1, hs]
    rfl
  · rfl

theorem modifyScope (w : World) (id : ScopeId) (f : Scope → Scope) :
    Moved w (w.modifyScope id f) := by
  rw [World.modifyScope]
  split
  · rename_i s hs
    exact setScope hs _
  · exact refl w

theorem emptyNode {id : NodeId} {n : Node} (hn : w.node? id = some n) :
    Moved w (w.setNode id none) :=
  ⟨⟨_, .leave .start (Option.isSome_iff_exists.mpr ⟨n, hn⟩)⟩, ⟨_, .start⟩⟩

theorem emptyScope {id : ScopeId} {s : Scope} (hs : w.scope? id = some s) :
    Moved w (w.setScope id none) :=
  ⟨⟨_, .start⟩, ⟨_, .leave .start (Option.isSome_iff_exists.mpr ⟨s, hs⟩)⟩⟩

theorem foldl {β γ : Type} (world : β → World) {f : β → γ → β}
    (h : ∀ b c, Moved (world b) (world (f b c))) (cs : List γ) (b : β) :
    Moved (world b) (world (cs.foldl f b)) := by
  induction cs generalizing b with
  | nil => exact .refl _
  | cons c cs ih => exact (h b c).trans (ih _)

end Moved

/-- Where nodes are only attended to, the same ones are there. -/
theorem Attends.moved (h : Attends w w') : Moved w w' := by
  refine .of_there h.nodes (by rw [h.scopes]) (fun x => ?_) fun x => ?_
  · have hkey := h.nodeKey x
    rw [nodeKey?, nodeKey?] at hkey
    simpa only [Option.isSome_map] using congrArg Option.isSome hkey
  · rw [scope?, scope?, h.scopes]

/-! ## Taking down -/

theorem releaseNode_moved (w : World) (id : NodeId) : Moved w (w.releaseNode id) := by
  rw [releaseNode]
  cases hn : w.node? id with
  | none => exact .refl w
  | some n =>
    have hempty := Moved.emptyNode hn
    dsimp only
    split
    · exact hempty.trans (.of_same (recordNotes_nodes _ _) (recordAll_scopes _ _))
    · exact hempty

theorem releaseEntry_moved {release : World → ScopeId → World}
    (hrelease : ∀ w id, Moved w (release w id)) (w : World) (entry : String × Member) :
    Moved w (releaseEntry release w entry) := by
  rw [releaseEntry]
  cases entry.2 with
  | node x => exact releaseNode_moved w x
  | scope x => exact hrelease w x
  | nodeType t => exact .refl w
  | scopeType t => exact .refl w

theorem farewell_moved (w : World) (id : ScopeId) (s : Scope) : Moved w (w.farewell id s) :=
  .of_same (recordAll_nodes _ _) (recordAll_scopes _ _)

theorem releaseWithin_moved (depth : Nat) (w : World) (id : ScopeId) :
    Moved w (releaseWithin depth w id) := by
  induction depth generalizing w id with
  | zero => exact .refl w
  | succ depth ih =>
    cases hs : w.scope? id with
    | none =>
      rw [releaseWithin, hs]
      exact .refl w
    | some s =>
      have hdrained : Moved w (w.drained id s) := .setScope hs _
      have hentries := hdrained.trans
        (Moved.foldl (fun w => w) (releaseEntry_moved ih) s.members.toList (w.drained id s))
      rw [releaseWithin_of_scope depth hs]
      revert hentries
      generalize List.foldl _ (w.drained id s) _ = inner
      intro hentries
      cases hinner : inner.scope? id with
      | none =>
        simp only [hinner]
        exact hentries
      | some t =>
        simp only [hinner]
        have hscopes : (if t.isSetUp then inner.farewell id t else inner).scope? id = some t := by
          split
          · exact (scope?_recordAll _ _ id).trans hinner
          · exact hinner
        have hfarewell : Moved inner (if t.isSetUp then inner.farewell id t else inner) := by
          split
          · exact farewell_moved inner id t
          · exact .refl inner
        exact (hentries.trans hfarewell).trans (.emptyScope hscopes)

theorem release_moved (w : World) (id : ScopeId) : Moved w (w.release id) :=
  releaseWithin_moved _ w id

theorem destroyScope_moved (w : World) (id : ScopeId) : Moved w (w.destroyScope id) := by
  rw [destroyScope]
  split
  · exact release_moved w id
  · exact (release_moved w id).trans (.modifyScope _ _ _)

theorem clear_moved (w : World) : Moved w w.clear := by
  rw [clear]
  cases hs : w.scope? .root with
  | none => exact .refl w
  | some root =>
    have hdrained : Moved w (w.drained .root root) := .setScope hs _
    exact (hdrained.trans (Moved.foldl (fun w => w) (releaseEntry_moved release_moved)
      root.members.toList _)).trans (.modifyScope _ _ _)

/-! ## Making members -/

theorem insertMember_moved {p : ScopeId} {name : String} {m : Member}
    (h : w.insertMember p name m = .ok w') : Moved w w' := by
  rw [insertMember] at h
  split at h
  · cases h
  · rename_i s hs
    split at h
    · cases h
    · cases h
      exact .setScope hs _

theorem makeNode_moved (w : World) (p : ScopeId) (name : String) (type : NodeType)
    (owner : ScopeId) (params : List Value) : Moved w (w.makeNode p name type owner params).1 := by
  rw [makeNode]
  split
  · have hpush := Moved.pushNode w (.new name type owner p params)
    dsimp only
    split
    · exact hpush
    · rename_i hinsert
      exact (hpush.trans (insertMember_moved hinsert)).trans (.record _ _)
  · exact .refl w

theorem define_moved (w : World) (p : ScopeId) (name : String) (m : Member) :
    Moved w (w.define p name m).1 := by
  rw [define]
  split
  · exact .refl w
  · rename_i hinsert
    exact insertMember_moved hinsert

theorem settle_moved (w : World) (id p : ScopeId) (name typeName : String) :
    Moved w (w.settle id p name typeName).1 := by
  rw [settle]
  have hready := Moved.modifyScope w id fun s => { s with isSetUp := true }
  split
  · exact hready
  · rename_i hinsert
    exact (hready.trans (insertMember_moved hinsert)).trans (.record _ _)

mutual

theorem makeScope_moved (w : World) (p : ScopeId) (name : String) (owner : ScopeId)
    (params : List Value) : (type : ScopeType) → Moved w (w.makeScope p name owner params type).1
  | ⟨typeName, specs, setup, destroy⟩ => by
    rw [makeScope]
    split
    · dsimp only
      have hpush := Moved.pushScope w
        (.new name ⟨typeName, specs, setup, destroy⟩ (some owner) (some p) params)
      have hsetup := hpush.trans (runSetup_moved _ ⟨w.scopes.size⟩ setup)
      generalize runSetup _ _ setup = outcome at hsetup ⊢
      obtain ⟨w', answer⟩ := outcome
      cases answer with
      | ok done => exact (hsetup.trans (.record _ _)).trans (settle_moved _ _ _ _ _)
      | error reason => exact (hsetup.trans (.record _ _)).trans (release_moved _ _)
    · exact .refl w

theorem runSetup_moved (w : World) (id : ScopeId) : (setup : Setup) →
    Moved w (w.runSetup id setup).1
  | .done => .refl w
  | .fail reason => .refl w
  | .look next => by
    rw [runSetup]
    split
    · exact runSetup_moved w id _
    · exact .refl w
  | .say remark next => by
    rw [runSetup]
    exact (Moved.record w _).trans (runSetup_moved _ id next)
  | .keep window next => by
    rw [runSetup]
    exact (Moved.modifyScope w id _).trans (runSetup_moved _ id next)
  | .defineNodeType location name type next => by
    rw [runSetup]
    exact (define_moved w _ name _).trans (runSetup_moved _ id _)
  | .defineScopeType location name type next => by
    rw [runSetup]
    exact (define_moved w _ name _).trans (runSetup_moved _ id _)
  | .makeNode location name type params next => by
    rw [runSetup]
    exact (makeNode_moved w _ name type id params).trans (runSetup_moved _ id _)
  | .makeScope location name type params next => by
    rw [runSetup]
    exact (makeScope_moved w _ name id params type).trans (runSetup_moved _ id _)

end

/-- A node that is made has the next place. -/
theorem makeNode_answer {p : ScopeId} {name : String} {type : NodeType} {owner : ScopeId}
    {params : List Value} {x : NodeId} (h : (w.makeNode p name type owner params).2 = .ok x) :
    x = ⟨w.nodes.size⟩ := by
  rw [makeNode] at h
  split at h
  · dsimp only at h
    split at h
    · cases h
    · exact (Except.ok.inj h).symm
  · cases h

end World

/-! ## Whatever is done -/

open World

theorem Catalog.populate_moved (c : Catalog) (w : World) (scope : ScopeId) :
    Moved w (c.populate w scope).1 := by
  refine Moved.foldl Prod.fst (fun p entry => ?_) c.entries (w, [])
  cases entry with
  | nodeType t =>
    rw [installEntry, installType_world]
    exact define_moved _ _ _ _
  | scopeType t =>
    rw [installEntry, installType_world]
    exact define_moved _ _ _ _
  | plugin t =>
    rw [installEntry, installPlugin_world]
    exact makeScope_moved _ _ _ _ _ t

namespace Assembly

open Script

theorem makeStep_moved (scope : ScopeId) (a : Assembly) (s : Statement) :
    Moved a.world (makeStep scope a s).world := by
  have hmade := makeStep_madeFrom scope a s
  generalize (makeStep scope a s).world = w' at hmade ⊢
  cases hmade with
  | same => exact .refl _
  | node p name type owner params => exact makeNode_moved _ p name type owner params
  | scope p name owner params type => exact makeScope_moved _ p name owner params type

theorem Connects.moved {w w' : World} {scope : ScopeId} {s : Statement} {target source : NodeId}
    {index : Nat} (h : Connects w w' scope s target source index) : Moved w w' := by
  refine .of_there h.nodes (by rw [h.scopes]) (fun x => ?_) fun x => by rw [scope?, scope?, h.scopes]
  rw [h.node]
  split
  · rename_i hx
    rw [hx, Option.isSome_map]
  · rfl

theorem apply_moved (w : World) (scope : ScopeId) (p : Program) : Moved w (apply w scope p).world :=
  apply_keeps (fun a s ha => ha.trans (makeStep_moved scope a s))
    (fun hconnects h => h.trans hconnects.moved) (.refl w) p

end Assembly

theorem Change.run_moved (w : World) (c : Change) : Moved w (c.run w) := by
  cases c with
  | populate catalog scope => exact catalog.populate_moved w scope
  | apply scope program => exact Assembly.apply_moved w scope program
  | makeNode parent name type owner params => exact makeNode_moved w parent name type owner params
  | makeScope parent name type owner params => exact makeScope_moved w parent name owner params type
  | destroyScope id => exact destroyScope_moved w id
  | clear => exact clear_moved w

theorem Operation.run_moved (w : World) (op : Operation) : Moved w (op.run w) := by
  cases op with
  | change c => exact c.run_moved w
  | build => exact (Schedule.build_attends w).moved
  | update s => exact (Schedule.update_attends w s).moved
  | tearDown s => exact (Schedule.tearDown_attends w s).moved

end FrameGraph
