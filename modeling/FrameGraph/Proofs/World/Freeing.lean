import FrameGraph.Proofs.World.Endings

/-!
# What is freed

Destroying a scope frees the scope and what lies inside it, and removes the entry that held it;
everything else stays as it was. Clearing frees all that lies inside the root, which keeps the types
it knows and goes on to take new members. A root that has been destroyed does not come back.
-/
namespace FrameGraph

namespace World

variable {w w' : World} {ms : List Member}

/-! ## What has been taken down, and nothing else -/

namespace Cleared

/-- Exactly what lies under the members is gone. -/
theorem lives_iff (h : Cleared w w' ms) (m : Member) :
    w'.Lives m ↔ w.Lives m ∧ ∀ top ∈ ms, ¬Under w top m := by
  constructor
  · exact fun hm => ⟨h.lives hm, fun top htop hunder => h.under_gone htop hunder hm⟩
  · rintro ⟨hm, hnot⟩
    obtain hstays | ⟨top, htop, hunder⟩ := h.under m hm
    · exact hstays
    · exact absurd hunder (hnot top htop)

theorem node_of_not_under (h : Cleared w w' ms) {x : NodeId}
    (hx : ∀ top ∈ ms, ¬Under w top (.node x)) : w'.node? x = w.node? x := by
  obtain hnone | hsame := h.node x
  · rw [hnone, eq_comm, Option.eq_none_iff_forall_ne_some]
    intro n hn
    obtain ⟨n', hn'⟩ := (h.lives_iff (.node x)).mpr ⟨⟨n, hn⟩, hx⟩
    rw [hnone] at hn'
    cases hn'
  · exact hsame

theorem scope_of_not_under (h : Cleared w w' ms) {x : ScopeId}
    (hx : ∀ top ∈ ms, ¬Under w top (.scope x)) : w'.scope? x = w.scope? x := by
  obtain hnone | hsame := h.scope x
  · rw [hnone, eq_comm, Option.eq_none_iff_forall_ne_some]
    intro s hs
    obtain ⟨s', hs'⟩ := (h.lives_iff (.scope x)).mpr ⟨⟨s, hs⟩, hx⟩
    rw [hnone] at hs'
    cases hs'
  · exact hsame

end Cleared

/-! ## Destroying a scope -/

/-- A scope that another holds under a name is freed with all that lies inside it. No other node or
scope is changed, but that the holder has lost its one entry for the scope. -/
structure Frees (w w' : World) (id p : ScopeId) (name : String) : Prop where
  lives : ∀ m, w'.Lives m ↔ w.Lives m ∧ ¬Under w (.scope id) m
  node : ∀ x, ¬Under w (.scope id) (.node x) → w'.node? x = w.node? x
  scope : ∀ x, ¬Under w (.scope id) (.scope x) → x ≠ p → w'.scope? x = w.scope? x
  holder : ∃ s, w.scope? p = some s ∧
    w'.scope? p = some { s with members := s.members.erase name }
  entry : w.entries.filter (Entry.isForScope id) = [⟨p, name, .scope id⟩]
  holds : ∀ q n m, w'.Holds q n m ↔
    w.Holds q n m ∧ ¬Under w (.scope id) (.scope q) ∧ ¬(q = p ∧ n = name)

theorem Tree.destroyScope_frees (h : w.Tree) {id : ScopeId} {s : Scope} (hs : w.scope? id = some s)
    (hroot : id ≠ .root) : ∃ p, s.parent = some p ∧ Frees w (w.destroyScope id) id p s.name := by
  have hkey : w.scopeKey? id = some (s.name, s.parent) := by rw [scopeKey?, hs]; rfl
  obtain ⟨p, hparent⟩ : ∃ p, s.parent = some p := by
    cases hparent : s.parent with
    | none =>
      rw [hparent] at hkey
      exact absurd (Forest.rooted h id s.name hkey) hroot
    | some p => exact ⟨p, rfl⟩
  rw [hparent] at hkey
  have hranked := Forest.ranked h
  have hheld : w.Holds p s.name (.scope id) :=
    (Forest.holds_scope h p s.name id).mpr ⟨hroot, hkey⟩
  have hcleared := cleared_release hranked id
  have htabled := (hcleared.ranked hranked).tabled
  have honly {m : Member} : (∀ top ∈ [Member.scope id], ¬Under w top m) ↔
      ¬Under w (.scope id) m := by simp
  -- the holder is older than what it holds, so it is not inside
  have habove : ¬Under w (.scope id) (.scope p) := fun hunder =>
    Nat.not_le_of_lt (hranked.older p s.name id hheld) (hunder.level_le hranked.leveled)
  obtain ⟨sp, hsp⟩ := hheld.scope_isSome
  have hholder : (w.release id).scope? p = some sp := by
    rw [hcleared.scope_of_not_under (honly.mpr habove), hsp]
  refine ⟨p, hparent, ?_⟩
  rw [destroyScope_of_held hkey]
  refine ⟨fun m => ?_, fun x hx => ?_, fun x hx hxp => ?_, ⟨sp, hsp, ?_⟩,
    h.filter_entries rfl hheld fun e => Entry.isForScope_iff, fun q n m => ?_⟩
  · rw [unlinked, lives_withMembers, hcleared.lives_iff, honly]
  · rw [unlinked, withMembers, node?_modifyScope, hcleared.node_of_not_under (honly.mpr hx)]
  · rw [unlinked, scope?_withMembers, if_neg hxp, hcleared.scope_of_not_under (honly.mpr hx)]
  · rw [unlinked, scope?_withMembers, if_pos rfl, hholder, Option.map_some]
  · rw [holds_unlinked htabled, hcleared.holds, hcleared.lives_iff, honly]
    constructor
    · rintro ⟨⟨hm, -, hq⟩, hname⟩
      exact ⟨hm, hq, hname⟩
    · rintro ⟨hm, hq, hname⟩
      exact ⟨⟨hm, hm.scope_isSome, hq⟩, hname⟩

/-! ## Clearing -/

/-- New members are made in the scope under every name that is free there: a node in any case, and a
scope if its setup succeeds. -/
structure Admits (w : World) (p : ScopeId) : Prop where
  node : ∀ name, w.isFree p name = true → ∀ type owner params,
    ∃ w', w.makeNode p name type owner params = (w', .ok ⟨w.nodes.size⟩) ∧
      Gains w w' p name (.node ⟨w.nodes.size⟩)
  scope : ∀ name, w.isFree p name = true → ∀ (type : ScopeType) owner params,
    type.setup.Confined ⟨w.scopes.size⟩ →
    ((w.opened p name owner params type).runSetup ⟨w.scopes.size⟩ type.setup).2 = .ok () →
    ∃ w', w.makeScope p name owner params type = (w', .ok ⟨w.scopes.size⟩) ∧
      Gains w w' p name (.scope ⟨w.scopes.size⟩)

theorem Orderly.admits (h : w.Orderly) (p : ScopeId) : w.Admits p where
  node name hfree type owner params := by
    have hpushed (n : Node) : Tabled { w with nodes := w.nodes.push (some n) } :=
      fun x s hs => h.tabled x s hs
    obtain ⟨w', hinsert, -⟩ := insertMember_adds (hpushed (.new name type owner p params)) hfree
      (.node ⟨w.nodes.size⟩)
    obtain ⟨e, herror⟩ | ⟨w', hmade, hgains, -⟩ := makeNode_outcome h.tabled p name type owner params
    · rw [makeNode, if_pos hfree] at herror
      simp only [hinsert] at herror
      cases (Prod.mk.inj herror).2
    · exact ⟨w', hmade, hgains⟩
  scope name hfree type owner params hconfined hset := by
    obtain ⟨done, hencloses⟩ :=
      setsUpEnclosed hconfined.inward (w.opened p name owner params type) h.opened houses_opened
    rw [makeScope_of_isFree hfree]
    generalize runSetup _ _ type.setup = outcome at hset hencloses ⊢
    obtain ⟨made, answer⟩ := outcome
    subst hset
    obtain ⟨w', hsettle, hgains, -⟩ := hencloses.settled h hfree
      (.life (.scopeSetUp ⟨w.scopes.size⟩ true)) type.name
    exact ⟨w', hsettle, hgains⟩

/-- Only the root is left, with the types it knew and no other members, and it takes new members
under every other name. -/
structure Empties (w' : World) (root : Scope) : Prop where
  lives : ∀ m, w'.Lives m ↔ m = .scope .root
  kept : ∃ members, w'.scope? .root = some { root with members } ∧
    ∀ name m, members.get? name = some m ↔ root.member? name = some m ∧ m.isOwned = false
  free : ∀ name, w'.isFree .root name = true ↔ ∀ m, root.member? name = some m → m.isOwned = true
  admits : w'.Admits .root

theorem Tree.clear_empties (h : w.Tree) {root : Scope} (hs : w.scope? .root = some root) :
    Empties w.clear root := by
  have hranked := Forest.ranked h
  have htree : w.clear.Tree := Forest.pruned h (Forest.clear_pruned h)
  obtain ⟨w', -, -, hroot, hclear⟩ := clear_of_root hranked hs
  obtain ⟨hvalid, hget⟩ := typesOnly_spec (Forest.tabled h .root root hs)
  have hleft : w.clear.scope? .root = some { root with members := typesOnly root.members } := by
    rw [hclear, scope?_withMembers, if_pos rfl, hroot, Option.map_some]
  refine ⟨fun m => ⟨fun hm => ?_, ?_⟩, ⟨_, hleft, hget⟩, fun name => ?_,
    (Forest.orderly htree).admits .root⟩
  · have howned : m.isOwned = true := by cases m <;> first | rfl | exact hm.elim
    have hunder := htree.under_root hm
    clear hm
    induction hunder with
    | top => rfl
    | entry _ hheld ih =>
      cases ih rfl
      have htype := ((Forest.holds_clear_root h _ _).mp hheld).2
      rw [howned] at htype
      cases htype
  · rintro rfl
    exact ⟨_, hleft⟩
  · rw [isFree_iff (Forest.tabled htree), hleft]
    simp only [Option.some.injEq, exists_eq_left', Option.eq_none_iff_forall_ne_some]
    refine forall_congr' fun m => ?_
    rw [Scope.member?, Scope.member?, ne_eq, hget, not_and, Bool.not_eq_false]

/-! ## A root that is gone -/

/-- With the root everything is gone, and there is nothing to clear. -/
theorem Tree.clear_of_no_root (h : w.Tree) (hs : w.scope? .root = none) :
    (∀ m, ¬w.Lives m) ∧ w.clear = w := by
  have hroot : ¬w.Lives (.scope .root) := by rintro ⟨s, hlives⟩; rw [hs] at hlives; cases hlives
  exact ⟨fun m hm => hroot ((h.under_root hm).lives_top hm), by rw [clear, hs]⟩

/-! ## In every world that can be reached -/

/-- In every world that can be reached, destroying a scope other than the root frees what it should
and no more, and so does clearing, unless the root itself has been destroyed; then nothing is there. -/
theorem reached_freeing (journal : Array Event) (ops : List Operation)
    (hops : ∀ op ∈ ops, op.Confined) :
    let w := ops.foldl Operation.run (World.new journal)
    (∀ id s, w.scope? id = some s → id ≠ .root →
      ∃ p, s.parent = some p ∧ Frees w (w.destroyScope id) id p s.name) ∧
    (∀ root, w.scope? .root = some root → Empties w.clear root) ∧
    (w.scope? .root = none → (∀ m, ¬w.Lives m) ∧ w.clear = w) := by
  intro w
  have htree : w.Tree := (new_tree journal).foldl_run ops hops
  exact ⟨fun _ _ => htree.destroyScope_frees, fun _ => htree.clear_empties,
    htree.clear_of_no_root⟩

/-- A scope type in the root, a scope with a node and another scope with a node inside, and a node
beside them. -/
def nested : List Operation :=
  let scope (parent : ScopeId) (name : String) : Operation :=
    .change (.makeScope parent name (.plain "group") .root [])
  let node (parent : ScopeId) (name : String) : Operation :=
    .change (.makeNode parent name { name := "plain" } .root [])
  [.change (.populate Window.catalog .root), scope .root "a", node ⟨1⟩ "n", scope ⟨1⟩ "b",
    node ⟨2⟩ "n", node .root "n"]

/-- The two nodes inside are freed with the scope, and the third one when all is cleared. -/
theorem reached_freeing_nested :
    let w := nested.foldl Operation.run (World.new #[])
    (∀ op ∈ nested ++ [.change (.destroyScope .root)], op.Confined) ∧
    (∃ s p, w.scope? ⟨1⟩ = some s ∧ s.parent = some p ∧
      Frees w (w.destroyScope ⟨1⟩) ⟨1⟩ p s.name) ∧
    (∃ root, w.scope? .root = some root ∧ Empties w.clear root) ∧
    ((w.destroyScope .root).scope? .root = none ∧ ∀ m, ¬(w.destroyScope .root).Lives m) ∧
    w.gather.length = 3 ∧ (w.destroyScope ⟨1⟩).gather = [⟨2⟩] ∧ w.clear.gather = [] ∧
    w.clear.isFree .root "window" = false := by
  intro w
  have hplain (name : String) : ScopeType.Confined (.plain name) := fun _ => .done
  have hnested : ∀ op ∈ nested, op.Confined := by
    simp [nested, Operation.Confined, Change.Confined, Window.catalog_confined, hplain]
  have hall : ∀ op ∈ nested ++ [.change (.destroyScope .root)], op.Confined :=
    List.forall_mem_append.mpr ⟨hnested, List.forall_mem_singleton.mpr trivial⟩
  obtain ⟨hdestroy, hclear, -⟩ := reached_freeing #[] nested hnested
  have hrun (w : World) : [Operation.change (.destroyScope .root)].foldl Operation.run w =
      w.destroyScope .root := rfl
  have hlast := reached_freeing #[] _ hall
  rw [List.foldl_append, hrun] at hlast
  obtain ⟨-, -, hgone⟩ := hlast
  obtain ⟨s, hs⟩ := Option.isSome_iff_exists.mp (show (w.scope? ⟨1⟩).isSome by decide +kernel)
  obtain ⟨root, hroot⟩ := Option.isSome_iff_exists.mp (show (w.scope? .root).isSome by decide +kernel)
  obtain ⟨p, hparent, hfrees⟩ := hdestroy ⟨1⟩ s hs (by decide)
  have hnone : (w.destroyScope .root).scope? .root = none :=
    Option.isNone_iff_eq_none.mp (by decide +kernel)
  have hempty : ∀ m, ¬(w.destroyScope .root).Lives m := (hgone hnone).1
  exact ⟨hall, ⟨s, p, hs, hparent, hfrees⟩, ⟨root, hroot, hclear root hroot⟩, ⟨hnone, hempty⟩,
    by decide +kernel, by decide +kernel, by decide +kernel, by decide +kernel⟩

/-- A root that has been destroyed is not there after clearing either, and takes no members. And
where the setup of a scope has made a member outside, under the name that its scope was to get,
destroying this scope removes the entry of the other member, and clearing leaves the scope. -/
theorem clear_without_root :
    let gone := Operation.run (.new #[]) (.change (.destroyScope .root))
    let left := Operation.run (.new #[]) (.change (.makeScope .root "a" takesItsName .root []))
    (¬gone.clear.Lives (.scope .root) ∧ gone.clear.isFree .root "a" = false) ∧
      left.Lives (.scope ⟨1⟩) ∧ left.entries.countP (Entry.isFor ⟨0⟩) = 1 ∧
      (left.destroyScope ⟨1⟩).Lives (.node ⟨0⟩) ∧
      (left.destroyScope ⟨1⟩).entries.countP (Entry.isFor ⟨0⟩) = 0 ∧
      left.clear.Lives (.scope ⟨1⟩) := by
  intro gone left
  have hnone : gone.clear.scope? .root = none := Option.isNone_iff_eq_none.mp (by decide +kernel)
  have hroot : ¬gone.clear.Lives (.scope .root) := by simp [Lives, hnone]
  exact ⟨⟨hroot, by decide +kernel⟩, Option.isSome_iff_exists.mp (by decide +kernel),
    by decide +kernel, Option.isSome_iff_exists.mp (by decide +kernel), by decide +kernel,
    Option.isSome_iff_exists.mp (by decide +kernel)⟩

end World

end FrameGraph
