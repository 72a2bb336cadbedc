import FrameGraph.Proofs.World.Growth

/-!
# Shrinking

Taking members down leaves fewer of them: what is left is as it was, every entry that is left was
there before, and no place is given back. This holds in every orderly world, whatever the setups of
scopes have made where, and also where entries are left that dangle.
-/
namespace FrameGraph.World

variable {w w' w'' : World}

/-- The second world is what is left of the first. -/
structure Shrinks (w w' : World) : Prop where
  tabled : w'.Tabled
  nodes : w.nodes.size ≤ w'.nodes.size
  scopes : w'.scopes.size = w.scopes.size
  node : ∀ x n, w'.node? x = some n → w.node? x = some n
  scope : ∀ x s', w'.scope? x = some s' → ∃ s, w.scope? x = some s ∧ s.bare = s'.bare
  holds : ∀ p name m, w'.Holds p name m → w.Holds p name m

namespace Shrinks

theorem trans (h : Shrinks w w') (h' : Shrinks w' w'') : Shrinks w w'' where
  tabled := h'.tabled
  nodes := Nat.le_trans h.nodes h'.nodes
  scopes := h'.scopes.trans h.scopes
  node x n hn := h.node x n (h'.node x n hn)
  scope x s'' hs'' := by
    obtain ⟨s', hs', hbare'⟩ := h'.scope x s'' hs''
    obtain ⟨s, hs, hbare⟩ := h.scope x s' hs'
    exact ⟨s, hs, hbare.trans hbare'⟩
  holds p name m hm := h.holds p name m (h'.holds p name m hm)

theorem orderly (h : Shrinks w w') (ho : w.Orderly) : w'.Orderly :=
  ho.mono h.tabled h.nodes (Nat.le_of_eq h.scopes.symm) h.holds

/-- A scope keeps some of its members. -/
theorem withMembers (ht : w.Tabled) {p : ScopeId} {f : Table Member → Table Member}
    (hvalid : ∀ s, w.scope? p = some s → (f s.members).Valid)
    (hkept : ∀ s name m, w.scope? p = some s → (f s.members).get? name = some m →
      s.member? name = some m) : Shrinks w (w.withMembers p f) where
  tabled := ht.withMembers hvalid
  nodes := Nat.le_of_eq (by rw [World.withMembers, modifyScope_nodes])
  scopes := w.modifyScope_size p _
  node x n hn := by rwa [World.withMembers, node?_modifyScope] at hn
  scope x s' hs' := by
    rw [scope?_withMembers] at hs'
    split at hs'
    · rename_i hx
      obtain ⟨s, hs, rfl⟩ := Option.map_eq_some_iff.mp hs'
      exact ⟨s, by rw [hx, hs], rfl⟩
    · exact ⟨s', hs', rfl⟩
  holds q name m hm := by
    by_cases hq : q = p
    · subst hq
      obtain ⟨s, hs, hget⟩ := (holds_withMembers_self w q f name m).mp hm
      exact ⟨s, hs, hkept s name m hs hget⟩
    · exact (holds_withMembers_of_ne w p f hq name m).mp hm

theorem cleared {ms : List Member} (h : Cleared w w' ms) (hr : w.Ranked)
    (hnodes : w.nodes.size ≤ w'.nodes.size) : Shrinks w w' where
  tabled := (h.ranked hr).tabled
  nodes := hnodes
  scopes := h.size
  node x n hn := by
    obtain hnone | hsame := h.node x
    · rw [hnone] at hn
      cases hn
    · rwa [← hsame]
  scope x s hs := ⟨s, h.scope_of_scope hs, rfl⟩
  holds p name m hm := ((h.holds p name m).mp hm).1

end Shrinks

theorem release_shrinks (hr : w.Ranked) (id : ScopeId) : Shrinks w (w.release id) :=
  .cleared (cleared_release hr id) hr (release_fades w id).size

theorem destroyScope_shrinks (hr : w.Ranked) (id : ScopeId) : Shrinks w (w.destroyScope id) := by
  have hreleased := release_shrinks hr id
  by_cases hheld : ∃ name p, w.scopeKey? id = some (name, some p)
  · obtain ⟨name, p, hkey⟩ := hheld
    rw [destroyScope_of_held hkey]
    refine hreleased.trans (.withMembers hreleased.tabled (fun s hs => ?_)
      fun s n m hs hget => ?_)
    · exact (hreleased.tabled p s hs).erase name
    · rw [(hreleased.tabled p s hs).get?_erase] at hget
      split at hget
      · cases hget
      · exact hget
  · rw [destroyScope_of_free fun name p hkey => hheld ⟨name, p, hkey⟩]
    exact hreleased

theorem clear_shrinks (hr : w.Ranked) : Shrinks w w.clear := by
  cases hs : w.scope? .root with
  | none =>
    have hsame : w.clear = w := by rw [clear, hs]
    rw [hsame]
    exact .cleared (.refl w) hr (Nat.le_refl _)
  | some root =>
    obtain ⟨w', -, hcleared, hroot, hclear⟩ := clear_of_root hr hs
    obtain ⟨hvalid, hget⟩ := typesOnly_spec (hr.tabled .root root hs)
    have hsize : w.nodes.size ≤ w'.nodes.size := by
      have hfades := (clear_fades w).size
      rwa [hclear, withMembers, modifyScope_nodes] at hfades
    have hbefore {p : ScopeId} {name : String} {m : Member} (hm : w'.Holds p name m) :
        w.Holds p name m := ((holds_drained hs p name m).mp ((hcleared.holds p name m).mp hm).1).2
    have hwithin : w'.Tabled := (hcleared.ranked (hr.drained hs)).tabled
    refine ⟨?_, ?_, ?_, fun x n hn => ?_, fun x s' hs' => ?_, fun p name m hm => ?_⟩
    · rw [hclear]
      exact hwithin.withMembers fun _ _ => hvalid
    · exact (clear_fades w).size
    · rw [hclear]
      exact (modifyScope_size _ _ _).trans (hcleared.size.trans (setScope_size _ _ _))
    · rw [hclear, withMembers, node?_modifyScope] at hn
      exact (Shrinks.cleared hcleared (hr.drained hs) hsize).node x n hn
    · rw [hclear, scope?_withMembers, hroot] at hs'
      split at hs'
      · rename_i hx
        cases hs'
        exact ⟨root, by rw [hx, hs], rfl⟩
      · rename_i hx
        have hdrained := hcleared.scope_of_scope hs'
        rw [scope?_drained hs, if_neg hx] at hdrained
        exact ⟨s', hdrained, rfl⟩
    · by_cases hp : p = .root
      · subst hp
        rw [hclear, holds_withMembers_self] at hm
        obtain ⟨-, -, hm⟩ := hm
        exact ⟨root, hs, ((hget name m).mp hm).1⟩
      · rw [hclear, holds_withMembers_of_ne w' _ _ hp] at hm
        exact hbefore hm

end FrameGraph.World
