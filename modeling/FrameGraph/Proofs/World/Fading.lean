import FrameGraph.Proofs.World.Course
import FrameGraph.Proofs.World.Edits

/-!
# Editing and what is set up

Nothing that is done to a world from outside sets a node up. Nodes may be taken down by it, and each
that was set up is destroyed then; the others stay as they are. This holds of all setups of scopes,
whether they are confined or not.
-/
namespace FrameGraph.World

variable {w w' w'' : World}

/-- Some of the nodes that were set up have been destroyed, and nothing else has changed about what
is set up. -/
structure Fades (w w' : World) : Prop where
  size : w.nodes.size ≤ w'.nodes.size
  /-- A node that was there is gone, or it is set up if it was. -/
  old : ∀ x : NodeId, x.index < w.nodes.size → ∀ n', w'.node? x = some n' →
    ∃ n, w.node? x = some n ∧ n'.isSetUp = n.isSetUp
  new : ∀ x : NodeId, w.nodes.size ≤ x.index → w'.isUp x = false
  steps : ∃ steps, w'.steps = w.steps ++ steps ∧ ∀ up : List NodeId, up.Nodup →
    (∀ x, x ∈ up ↔ w.isUp x = true) → course up steps = some (up.filter w'.isUp)

namespace Fades

theorem isUp_of_isUp (h : Fades w w') {x : NodeId} (hx : w'.isUp x = true) : w.isUp x = true := by
  obtain hlt | hle := Nat.lt_or_ge x.index w.nodes.size
  · obtain ⟨n', hn', hup⟩ := isUp_eq_true_iff.mp hx
    obtain ⟨n, hn, hsame⟩ := h.old x hlt n' hn'
    exact isUp_eq_true_iff.mpr ⟨n, hn, hsame.symm.trans hup⟩
  · rw [h.new x hle] at hx
    cases hx

theorem trans (h : Fades w w') (h' : Fades w' w'') : Fades w w'' := by
  refine ⟨Nat.le_trans h.size h'.size, fun x hx n'' hn'' => ?_, fun x hx => ?_, ?_⟩
  · obtain ⟨n', hn', hsame'⟩ := h'.old x (Nat.lt_of_lt_of_le hx h.size) n'' hn''
    obtain ⟨n, hn, hsame⟩ := h.old x hx n' hn'
    exact ⟨n, hn, hsame'.trans hsame⟩
  · rw [← Bool.not_eq_true]
    intro hup
    have hmid := h'.isUp_of_isUp hup
    rw [h.new x hx] at hmid
    cases hmid
  · obtain ⟨first, hfirst, hcourse⟩ := h.steps
    obtain ⟨second, hsecond, hcourse'⟩ := h'.steps
    refine ⟨first ++ second, by rw [hsecond, hfirst, List.append_assoc], fun up hnodup hup => ?_⟩
    rw [course_append, hcourse up hnodup hup, Option.bind_some,
      hcourse' _ (hnodup.filter _) fun x => ?_, List.filter_filter]
    · refine congrArg some (List.filter_congr fun x _ => ?_)
      cases hx : w''.isUp x with
      | false => rfl
      | true => rw [h'.isUp_of_isUp hx, Bool.and_self]
    · rw [List.mem_filter, hup]
      exact and_iff_right_of_imp h.isUp_of_isUp

/-- The same nodes are set up, and the steps that were taken are not those of nodes. -/
theorem of_isUp (hsize : w.nodes.size ≤ w'.nodes.size)
    (hthere : ∀ x : NodeId, x.index < w.nodes.size → ∀ n', w'.node? x = some n' →
      ∃ n, w.node? x = some n)
    (hup : ∀ x, w'.isUp x = w.isUp x) {steps : List LifeStep}
    (hsteps : w'.steps = w.steps ++ steps) (hother : ∀ step ∈ steps, ∀ id, step.isOf id = false) :
    Fades w w' := by
  refine ⟨hsize, fun x hx n' hn' => ?_, fun x hx => ?_, steps, hsteps, fun up _ hmem => ?_⟩
  · obtain ⟨n, hn⟩ := hthere x hx n' hn'
    have hsame := hup x
    rw [isUp, isUp, hn', hn] at hsame
    exact ⟨n, hn, hsame⟩
  · rw [hup, isUp, node?_of_size_le hx]
    rfl
  · rw [course_of_scopes hother, List.filter_eq_self.mpr fun x hx => ?_]
    rw [hup]
    exact (hmem x).mp hx

/-- Nothing has changed about the nodes. -/
theorem of_nodes (hnodes : w'.nodes = w.nodes) {steps : List LifeStep}
    (hsteps : w'.steps = w.steps ++ steps) (hother : ∀ step ∈ steps, ∀ id, step.isOf id = false) :
    Fades w w' := by
  have hnode : ∀ x, w'.node? x = w.node? x := fun x => by rw [node?, node?, hnodes]
  exact of_isUp (Nat.le_of_eq (by rw [hnodes])) (fun x _ n hn => ⟨n, by rw [← hnode, hn]⟩)
    (fun x => isUp_of_node? (hnode x)) hsteps hother

/-- Nothing has changed about the nodes, and no step was taken. -/
theorem of_same (hnodes : w'.nodes = w.nodes) (hsteps : w'.steps = w.steps) : Fades w w' :=
  of_nodes hnodes (hsteps.trans (List.append_nil _).symm) nofun

theorem refl (w : World) : Fades w w := of_same rfl rfl

theorem record (w : World) {e : Event} (he : e.step? = none) : Fades w (w.record e) :=
  of_same rfl (w.steps_record he)

theorem recordScope (w : World) {step : LifeStep} (h : ∀ id, step.isOf id = false) :
    Fades w (w.record (.life step)) :=
  of_nodes rfl (w.steps_life step) fun _ hmem => List.mem_singleton.mp hmem ▸ h

theorem modifyScope (w : World) (id : ScopeId) (f : Scope → Scope) :
    Fades w (w.modifyScope id f) :=
  of_same (w.modifyScope_nodes id f) (w.steps_modifyScope id f)

theorem connect (w : World) (target : NodeId) (index : Nat) (source : NodeId) :
    Fades w (w.modifyNode target (·.connect index source)) := by
  refine of_isUp (Nat.le_of_eq (w.modifyNode_size _ _).symm) (fun x _ n' hn' => ?_)
    (w.isUp_modifyNode target fun _ => rfl) ((w.steps_modifyNode _ _).trans (List.append_nil _).symm)
    nofun
  rw [node?_modifyNode] at hn'
  split at hn'
  · rename_i hx
    obtain ⟨n, hn, -⟩ := Option.map_eq_some_iff.mp hn'
    exact ⟨n, by rw [hx, hn]⟩
  · exact ⟨n', hn'⟩

/-- A new node is not set up. -/
theorem pushNode (w : World) {n : Node} (hn : n.isSetUp = false) :
    Fades w { w with nodes := w.nodes.push (some n) } := by
  refine of_isUp ?_ (fun x hx n' hn' => ?_) (fun x => ?_) (List.append_nil _).symm nofun
  · rw [Array.size_push]
    exact Nat.le_succ _
  · rw [node?_push, if_neg fun h => ?_] at hn'
    · exact ⟨n', hn'⟩
    · rw [h] at hx
      exact Nat.lt_irrefl _ hx
  · rw [isUp, node?_push]
    split
    · rename_i hx
      rw [hx, isUp, node?_next, Option.any_some, hn]
      rfl
    · rfl

end Fades

/-! ## Taking down -/

theorem isUp_releaseNode (w : World) (id x : NodeId) :
    (w.releaseNode id).isUp x = (x != id && w.isUp x) := by
  rw [isUp, node?_releaseNode, node?_setNode_none]
  by_cases hx : x = id
  · simp [hx]
  · simp [hx, isUp]

/-- Only a node that is set up is destroyed. -/
theorem steps_releaseNode (w : World) (id : NodeId) : (w.releaseNode id).steps =
    w.steps ++ if w.isUp id then [.nodeDestroyed id] else [] := by
  rw [releaseNode, isUp]
  cases w.node? id with
  | none => exact (List.append_nil _).symm
  | some n => cases hup : n.isSetUp <;> simp [hup]

theorem releaseNode_size (w : World) (id : NodeId) :
    (w.releaseNode id).nodes.size = w.nodes.size := by
  rw [releaseNode]
  cases w.node? id with
  | none => rfl
  | some n => cases hup : n.isSetUp <;> simp [hup]

theorem releaseNode_fades (w : World) (id : NodeId) : Fades w (w.releaseNode id) := by
  refine ⟨Nat.le_of_eq (w.releaseNode_size id).symm, fun x _ n' hn' => ?_, fun x hx => ?_,
    _, w.steps_releaseNode id, fun up hnodup hmem => ?_⟩
  · rw [node?_releaseNode, node?_setNode_none] at hn'
    split at hn'
    · cases hn'
    · exact ⟨n', hn', rfl⟩
  · rw [isUp_releaseNode, isUp, node?_of_size_le hx, Option.any_none, Bool.and_false]
  · have hfilter : up.filter (w.releaseNode id).isUp = up.filter (· != id) := by
      refine List.filter_congr fun x hx => ?_
      rw [isUp_releaseNode, (hmem x).mp hx, Bool.and_true]
    rw [hfilter, ← hnodup.erase_eq_filter]
    cases hup : w.isUp id with
    | true =>
      rw [if_pos rfl, course_cons, LifeStep.advance, if_pos ((hmem id).mpr hup)]
      rfl
    | false =>
      have hnot : id ∉ up := fun hid => by
        rw [(hmem id).mp hid] at hup
        cases hup
      rw [List.erase_of_not_mem hnot]
      rfl

theorem releaseEntry_fades {release : World → ScopeId → World}
    (hrelease : ∀ w id, Fades w (release w id)) (w : World) (entry : String × Member) :
    Fades w (releaseEntry release w entry) := by
  rw [releaseEntry]
  cases entry.2 with
  | node x => exact releaseNode_fades w x
  | scope x => exact hrelease w x
  | nodeType t => exact .refl w
  | scopeType t => exact .refl w

theorem releaseEntries_fades {release : World → ScopeId → World}
    (hrelease : ∀ w id, Fades w (release w id)) (w : World) (entries : List (String × Member)) :
    Fades w (entries.foldl (releaseEntry release) w) := by
  induction entries generalizing w with
  | nil => exact .refl w
  | cons entry entries ih => exact (releaseEntry_fades hrelease w entry).trans (ih _)

theorem farewell_fades (w : World) (id : ScopeId) (s : Scope) : Fades w (w.farewell id s) := by
  rw [farewell]
  have hremarks (remarks : List Remark) : Fades w (w.recordAll (remarks.map Event.remark)) := by
    refine .of_same (w.recordAll_nodes _) (w.steps_recordAll fun e he => ?_)
    obtain ⟨remark, -, rfl⟩ := List.mem_map.mp he
    rfl
  exact (hremarks _).trans (.recordScope _ fun _ => rfl)

theorem releaseWithin_fades (depth : Nat) (w : World) (id : ScopeId) :
    Fades w (releaseWithin depth w id) := by
  induction depth generalizing w id with
  | zero => exact .refl w
  | succ depth ih =>
    cases hs : w.scope? id with
    | none =>
      rw [releaseWithin, hs]
      exact .refl w
    | some s =>
      have hdrained : Fades w (w.drained id s) := .of_same rfl rfl
      have hentries := hdrained.trans
        (releaseEntries_fades ih (w.drained id s) s.members.toList)
      rw [releaseWithin_of_scope depth hs]
      revert hentries
      generalize List.foldl _ (w.drained id s) _ = inner
      intro hentries
      cases hinner : inner.scope? id with
      | none =>
        simp only [hinner]
        exact hentries
      | some t =>
        simp only [hinner]
        have hfarewell : Fades inner (if t.isSetUp then inner.farewell id t else inner) := by
          split
          · exact farewell_fades inner id t
          · exact .refl inner
        exact (hentries.trans hfarewell).trans (.of_same rfl rfl)

theorem release_fades (w : World) (id : ScopeId) : Fades w (w.release id) :=
  releaseWithin_fades _ w id

theorem destroyScope_fades (w : World) (id : ScopeId) : Fades w (w.destroyScope id) := by
  rw [destroyScope]
  split
  · exact release_fades w id
  · exact (release_fades w id).trans (.modifyScope _ _ _)

theorem clear_fades (w : World) : Fades w w.clear := by
  rw [clear]
  cases hs : w.scope? .root with
  | none => exact .refl w
  | some root =>
    have hdrained : Fades w (w.drained .root root) := .of_same rfl rfl
    exact (hdrained.trans (releaseEntries_fades release_fades _ root.members.toList)).trans
      (.modifyScope _ _ _)

/-! ## Making members -/

theorem insertMember_same {p : ScopeId} {name : String} {m : Member}
    (h : w.insertMember p name m = .ok w') : w'.nodes = w.nodes ∧ w'.journal = w.journal := by
  rw [insertMember] at h
  split at h
  · cases h
  · split at h
    · cases h
    · cases h
      exact ⟨rfl, rfl⟩

theorem insertMember_fades {p : ScopeId} {name : String} {m : Member}
    (h : w.insertMember p name m = .ok w') : Fades w w' := by
  obtain ⟨hnodes, hjournal⟩ := insertMember_same h
  exact .of_same hnodes (by rw [steps, steps, hjournal])

theorem makeNode_fades (w : World) (p : ScopeId) (name : String) (type : NodeType)
    (owner : ScopeId) (params : List Value) : Fades w (w.makeNode p name type owner params).1 := by
  rw [makeNode]
  split
  · have hpush := Fades.pushNode w (n := .new name type owner p params) rfl
    dsimp only
    split
    · exact hpush
    · rename_i hinsert
      exact (hpush.trans (insertMember_fades hinsert)).trans (.record _ rfl)
  · exact .refl w

theorem define_fades (w : World) (p : ScopeId) (name : String) (m : Member) :
    Fades w (w.define p name m).1 := by
  rw [define]
  split
  · exact .refl w
  · rename_i hinsert
    exact insertMember_fades hinsert

theorem settle_fades (w : World) (id p : ScopeId) (name typeName : String) :
    Fades w (w.settle id p name typeName).1 := by
  rw [settle]
  have hready := Fades.modifyScope w id fun s => { s with isSetUp := true }
  split
  · exact hready
  · rename_i hinsert
    exact (hready.trans (insertMember_fades hinsert)).trans (.record _ rfl)

mutual

theorem makeScope_fades (w : World) (p : ScopeId) (name : String) (owner : ScopeId)
    (params : List Value) : (type : ScopeType) → Fades w (w.makeScope p name owner params type).1
  | ⟨typeName, specs, setup, destroy⟩ => by
    rw [makeScope]
    split
    · dsimp only
      generalize hscope : some (Scope.new name ⟨typeName, specs, setup, destroy⟩ (some owner)
        (some p) params) = scope
      have hpush : Fades w { w with scopes := w.scopes.push scope } := .of_same rfl rfl
      have hsetup := hpush.trans (runSetup_fades _ ⟨w.scopes.size⟩ setup)
      generalize runSetup _ _ setup = outcome at hsetup ⊢
      obtain ⟨w', answer⟩ := outcome
      cases answer with
      | ok done =>
        exact (hsetup.trans (.recordScope _ fun _ => rfl)).trans (settle_fades _ _ _ _ _)
      | error reason =>
        exact (hsetup.trans (.recordScope _ fun _ => rfl)).trans (release_fades _ _)
    · exact .refl w

theorem runSetup_fades (w : World) (id : ScopeId) : (setup : Setup) →
    Fades w (w.runSetup id setup).1
  | .done => .refl w
  | .fail reason => .refl w
  | .look next => by
    rw [runSetup]
    split
    · exact runSetup_fades w id _
    · exact .refl w
  | .say remark next => by
    rw [runSetup]
    exact (Fades.record w rfl).trans (runSetup_fades _ id next)
  | .keep window next => by
    rw [runSetup]
    exact (Fades.modifyScope w id _).trans (runSetup_fades _ id next)
  | .defineNodeType location name type next => by
    rw [runSetup]
    exact (define_fades w _ name _).trans (runSetup_fades _ id _)
  | .defineScopeType location name type next => by
    rw [runSetup]
    exact (define_fades w _ name _).trans (runSetup_fades _ id _)
  | .makeNode location name type params next => by
    rw [runSetup]
    exact (makeNode_fades w _ name type id params).trans (runSetup_fades _ id _)
  | .makeScope location name type params next => by
    rw [runSetup]
    exact (makeScope_fades w _ name id params type).trans (runSetup_fades _ id _)

end

/-! ## Edits -/

theorem Edit.fades (h : Edit w w') : Fades w w' := by
  cases h with
  | record e notLife => exact .record w (Event.step?_eq_none notLife)
  | connect target index source => exact .connect w target index source
  | define scope name type => exact define_fades w scope name type
  | makeNode parent name type owner params => exact makeNode_fades w parent name type owner params
  | makeScope parent name owner params type => exact makeScope_fades w parent name owner params type
  | destroyScope id => exact destroyScope_fades w id
  | clear => exact clear_fades w

theorem Edits.fades (h : Edits w w') : Fades w w' := by
  induction h with
  | refl => exact .refl w
  | tail _ hlast ih => exact ih.trans hlast.fades

end FrameGraph.World
