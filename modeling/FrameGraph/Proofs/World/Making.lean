import FrameGraph.Proofs.World.Growth

/-!
# Making members, as a whole

A member is made or it is not. If it is, there is one more entry, and all that is new lies under what
it holds; if it is not, every place holds what it held. For a node there is nothing more to it.
-/
namespace FrameGraph.World

variable {w w' : World}

/-- Every place holds what it held. -/
structure Unchanged (w w' : World) : Prop where
  node : ∀ x, w'.node? x = w.node? x
  scope : ∀ x, w'.scope? x = w.scope? x

theorem Unchanged.refl (w : World) : Unchanged w w := ⟨fun _ => rfl, fun _ => rfl⟩

theorem Unchanged.lives (h : Unchanged w w') {m : Member} (hm : w'.Lives m) : w.Lives m := by
  cases m with
  | node x => rwa [Lives, ← h.node x]
  | scope x => rwa [Lives, ← h.scope x]
  | nodeType t => exact hm
  | scopeType t => exact hm

/-- If the old scopes are as they were and nothing new is there, every place holds what it held. -/
theorem Unchanged.of_grows (h : Grows w w')
    (hscope : ∀ x : ScopeId, x.index < w.scopes.size → w'.scope? x = w.scope? x)
    (hold : ∀ m, w'.Lives m → ¬w.Beyond m) : Unchanged w w' := by
  refine ⟨fun x => ?_, fun x => ?_⟩
  · obtain hlt | hle := Nat.lt_or_ge x.index w.nodes.size
    · exact h.node x hlt
    · rw [node?_of_size_le hle, Option.eq_none_iff_forall_ne_some]
      exact fun n hn => hold (.node x) ⟨n, hn⟩ hle
  · obtain hlt | hle := Nat.lt_or_ge x.index w.scopes.size
    · exact hscope x hlt
    · rw [scope?_of_size_le hle, Option.eq_none_iff_forall_ne_some]
      exact fun s hs => hold (.scope x) ⟨s, hs⟩ hle

/-- A scope has one more entry, under a name that was free, and everything that is new lies under
what that entry holds. Nothing else has changed. -/
structure Gains (w w' : World) (p : ScopeId) (name : String) (m : Member) : Prop where
  node : ∀ x : NodeId, x.index < w.nodes.size → w'.node? x = w.node? x
  scope : ∀ x : ScopeId, x.index < w.scopes.size → x ≠ p → w'.scope? x = w.scope? x
  holder : ∃ s members, w.scope? p = some s ∧ w'.scope? p = some { s with members }
  free : ∀ k, ¬w.Holds p name k
  holds : ∀ q n k, q.index < w.scopes.size →
    (w'.Holds q n k ↔ w.Holds q n k ∨ q = p ∧ n = name ∧ k = m)
  new : w.Beyond m
  inside : ∀ k, w'.Lives k → w.Lives k ∨ Under w' m k

theorem free_of_isFree (ht : w.Tabled) {p : ScopeId} {name : String}
    (hfree : w.isFree p name = true) (k : Member) : ¬w.Holds p name k := by
  obtain ⟨s, hs, hnone⟩ := (isFree_iff ht p name).mp hfree
  rintro ⟨t, ht, hk⟩
  rw [hs] at ht
  cases ht
  rw [hnone] at hk
  cases hk

/-- A node is made where its name is free. -/
theorem makeNode_outcome (ht : w.Tabled) (p : ScopeId) (name : String) (type : NodeType)
    (owner : ScopeId) (params : List Value) :
    (∃ e, w.makeNode p name type owner params = (w, .error e)) ∨
    ∃ w', w.makeNode p name type owner params = (w', .ok ⟨w.nodes.size⟩) ∧
      Gains w w' p name (.node ⟨w.nodes.size⟩) ∧
      w'.node? ⟨w.nodes.size⟩ = some (.new name type owner p params) := by
  rw [makeNode]
  by_cases hfree : w.isFree p name = true
  · have hgrows := Grows.pushNode w (Node.new_isNew name type owner p params)
    have hmade (x : NodeId) := w.node?_push (some (.new name type owner p params)) x
    rw [if_pos hfree]
    generalize hpush : { w with nodes := w.nodes.push (some (.new name type owner p params)) } =
      pushed at hgrows hmade ⊢
    have hscopes : pushed.scopes = w.scopes := by rw [← hpush]
    have hscope (x : ScopeId) : pushed.scope? x = w.scope? x := by rw [scope?, scope?, hscopes]
    have htabled : pushed.Tabled := fun x s hs => ht x s (by rwa [← hscope])
    have hfree' : pushed.isFree p name = true := by rwa [isFree, hscope, ← isFree]
    obtain ⟨w', hinsert, hadds⟩ := insertMember_adds htabled hfree' (.node ⟨w.nodes.size⟩)
    have hnode (x : NodeId) : w'.node? x =
        if x = ⟨w.nodes.size⟩ then some (.new name type owner p params) else w.node? x := by
      rw [hadds.node, hmade]
    obtain ⟨s, members, hs, hs'⟩ := insertMember_scope hinsert
    simp only [hinsert]
    refine .inr ⟨_, rfl, ?_, by rw [node?_record, hnode, if_pos rfl]⟩
    refine ⟨fun x hx => ?_, fun x _ hx => ?_, ⟨s, members, by rw [← hscope, hs], hs'⟩,
      free_of_isFree ht hfree, fun q n k _ => ?_, Nat.le_refl _, fun k hk => ?_⟩
    · rw [node?_record, hnode, if_neg]
      rintro rfl
      exact Nat.lt_irrefl _ hx
    · rw [scope?_record, hadds.others x hx, hscope]
    · exact (hadds.holds q n k).trans (or_congr_left (holds_of_scope? (hscope q) n k))
    · cases k with
      | node x =>
        obtain ⟨n, hn⟩ := hk
        rw [node?_record, hnode] at hn
        split at hn
        · rename_i hx
          rw [hx]
          exact .inr .top
        · exact .inl ⟨n, hn⟩
      | scope x =>
        obtain ⟨key, hkey⟩ := lives_scope_iff.mp hk
        exact .inl (lives_scope_iff.mpr ⟨key, by
          rw [← hkey, scopeKey?, ← hscope]
          exact (hadds.scopeKey x).symm⟩)
      | nodeType t => exact .inl hk
      | scopeType t => exact .inl hk
  · rw [if_neg hfree]
    exact .inl ⟨_, rfl⟩

end FrameGraph.World
