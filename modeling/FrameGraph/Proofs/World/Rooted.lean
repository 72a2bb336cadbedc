import FrameGraph.Proofs.World.Gather

/-!
# Ownership trees

A world is an ownership tree if each node and each scope but the root is reached from the root
through exactly one entry. Numbers, names and parents do not matter for this. The way to a scope is
the only one and it meets no scope twice, so scopes lie on levels, and gathering lists all nodes.
-/
namespace FrameGraph.World

variable {w : World}

/-- Everything that is there is reached from the root, and every entry for a node or a scope is the
only one for it; none is for the root. -/
structure OwnershipTree (w : World) : Prop where
  tabled : w.Tabled
  once : w.HeldOnce
  rootless : ∀ p name, ¬w.Holds p name (.scope .root)
  there : ∀ p name m, w.Holds p name m → m.isOwned = true → w.Lives m
  reached : ∀ m, w.Lives m → Under w (.scope .root) m

/-- Where everything is held by its parent under its own name, all is reached through one entry. -/
theorem Tree.ownershipTree (h : w.Tree) : w.OwnershipTree where
  tabled := Forest.tabled h
  once := Forest.heldOnce h
  rootless p name hheld := ((Forest.holds_scope h p name .root).mp hheld).1 rfl
  there _ _ _ hm howned := Forest.lives_of_holds h hm howned
  reached _ hm := h.under_root hm

/-! ## Ways from the root -/

/-- The scopes on a way from the root to a scope, the last first. -/
inductive Way (w : World) : List ScopeId → ScopeId → Prop where
  | root : Way w [] .root
  | entry {above : List ScopeId} {p x : ScopeId} {name : String} (way : Way w above p)
    (holds : w.Holds p name (.scope x)) : Way w (p :: above) x

namespace Way

variable {above above' : List ScopeId} {p x : ScopeId}

theorem exists_of_under (h : Under w (.scope .root) (.scope x)) : ∃ above, Way w above x := by
  generalize hx : Member.scope x = m at h
  induction h generalizing x with
  | top =>
    cases hx
    exact ⟨[], .root⟩
  | @entry p name m _ hheld ih =>
    subst hx
    obtain ⟨above, hway⟩ := ih rfl
    exact ⟨p :: above, .entry hway hheld⟩

theorem unique (ht : w.OwnershipTree) (h : Way w above x) (h' : Way w above' x) :
    above = above' := by
  induction h generalizing above' with
  | root =>
    cases h' with
    | root => rfl
    | entry _ hheld => exact absurd hheld (ht.rootless _ _)
  | entry way hheld ih =>
    cases h' with
    | root => exact absurd hheld (ht.rootless _ _)
    | entry way' hheld' =>
      obtain ⟨rfl, -⟩ := ht.once _ rfl _ _ _ _ hheld hheld'
      rw [ih way']

/-- The way to a scope on a way is the rest of it. -/
theorem rest (h : Way w above x) (hp : p ∈ above) :
    ∃ rest, Way w rest p ∧ rest.length < above.length := by
  induction h with
  | root => cases hp
  | entry way _ ih =>
    rcases List.mem_cons.mp hp with rfl | hp
    · exact ⟨_, way, Nat.lt_succ_self _⟩
    · obtain ⟨rest, hrest, hlt⟩ := ih hp
      exact ⟨rest, hrest, Nat.lt_succ_of_lt hlt⟩

/-- A scope that were met again would have two ways of different lengths. -/
theorem notMem (ht : w.OwnershipTree) (h : Way w above x) : x ∉ above := by
  intro hx
  obtain ⟨rest, hrest, hlt⟩ := h.rest hx
  rw [h.unique ht hrest] at hlt
  exact Nat.lt_irrefl _ hlt

theorem nodup (ht : w.OwnershipTree) (h : Way w above x) : above.Nodup := by
  induction h with
  | root => exact .nil
  | entry way _ ih => exact List.nodup_cons.mpr ⟨way.notMem ht, ih⟩

theorem lt_size (h : Way w above x) (hp : p ∈ above) : p.index < w.scopes.size := by
  induction h with
  | root => cases hp
  | entry _ hheld ih =>
    rcases List.mem_cons.mp hp with rfl | hp
    · exact lt_size_of_scope? hheld.scope_isSome.choose_spec
    · exact ih hp

/-- A way to a scope that is there is shorter than there are places. -/
theorem length_lt (ht : w.OwnershipTree) (h : Way w above x) (hx : x.index < w.scopes.size) :
    above.length < w.scopes.size := by
  have hnodup : ((x :: above).map ScopeId.index).Nodup :=
    (List.nodup_cons.mpr ⟨h.notMem ht, h.nodup ht⟩).map fun a b => ScopeId.index_eq_iff.mp
  have hsubset : (x :: above).map ScopeId.index ⊆ List.range w.scopes.size := by
    intro i hi
    obtain ⟨p, hp, rfl⟩ := List.mem_map.mp hi
    rcases List.mem_cons.mp hp with rfl | hp
    · exact List.mem_range.mpr hx
    · exact List.mem_range.mpr (h.lt_size hp)
  have hle := (List.subperm_of_subset hnodup hsubset).length_le
  rwa [List.length_map, List.length_cons, List.length_range] at hle

end Way

namespace OwnershipTree

/-- A scope lies as deep as its way is long. -/
theorem leveled (h : w.OwnershipTree) : ∃ level, w.Leveled level := by
  classical
  have hway {x : ScopeId} (hx : w.Lives (.scope x)) : ∃ above, Way w above x :=
    Way.exists_of_under (h.reached _ hx)
  let level (x : ScopeId) : Nat := if hx : ∃ above, Way w above x then hx.choose.length else 0
  have hlevel {x : ScopeId} {above : List ScopeId} (hx : Way w above x) :
      level x = above.length := by
    have hexists : ∃ above, Way w above x := ⟨above, hx⟩
    simp only [level, dif_pos hexists]
    rw [hexists.choose_spec.unique h hx]
  refine ⟨level, fun p name x hheld => ?_, fun x s hs => ?_⟩
  · obtain ⟨above, hp⟩ := hway hheld.scope_isSome
    rw [hlevel hp, hlevel (.entry hp hheld)]
    exact Nat.lt_succ_self _
  · obtain ⟨above, hx⟩ := hway ⟨s, hs⟩
    rw [hlevel hx]
    exact hx.length_lt h (lt_size_of_scope? hs)

/-- Gathering lists every node that is there, and it lists it once. -/
theorem gather_spec (h : w.OwnershipTree) :
    w.gather.Nodup ∧ ∀ x, x ∈ w.gather ↔ ∃ n, w.node? x = some n := by
  obtain ⟨level, hleveled⟩ := h.leveled
  refine ⟨hleveled.nodesWithin_nodup h.tabled h.once _ _, fun x => ?_⟩
  rw [hleveled.mem_gather h.tabled]
  constructor
  · intro hx
    cases hx with
    | entry _ hheld => exact h.there _ _ _ hheld rfl
  · exact h.reached (.node x)

end OwnershipTree

end FrameGraph.World
