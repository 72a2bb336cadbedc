import FrameGraph.Proofs.World.Endings
import FrameGraph.Proofs.World.Inputs

/-!
# Entries of nodes

An entry that is for a node is for one that is there. This holds whatever the setups of scopes make
and wherever they make it: a node is taken down with the scope that holds it, and no second entry is
for it. For scopes it need not hold.
-/
namespace FrameGraph

namespace World

variable {w w' : World}

/-- The nodes that entries are for are there. -/
def Occupied (w : World) : Prop := ∀ p name x, w.Holds p name (.node x) → w.Lives (.node x)

namespace Occupied

theorem sameTree (h : w.Occupied) (hs : SameTree w w') : w'.Occupied := by
  intro p name x hx
  rw [lives_node_iff, hs.nodeKey, ← lives_node_iff]
  exact h p name x ((hs.holds p name _).mp hx)

/-- Some entries are left, and the nodes as they were. -/
theorem mono (h : w.Occupied) (hholds : ∀ p name m, w'.Holds p name m → w.Holds p name m)
    (hnode : ∀ x, w.Lives (.node x) → w'.Lives (.node x)) : w'.Occupied :=
  fun p name x hx => hnode x (h p name x (hholds p name _ hx))

theorem adds {p : ScopeId} {name : String} {m : Member} (h : w.Occupied) (ha : Adds w w' p name m)
    (hm : ∀ x, m = .node x → w.Lives (.node x)) : w'.Occupied := by
  intro q n x hx
  have hlives : w.Lives (.node x) := by
    obtain hold | ⟨-, -, hnew⟩ := (ha.holds q n _).mp hx
    · exact h q n x hold
    · exact hm x hnew.symm
  obtain ⟨node, hnode⟩ := hlives
  exact ⟨node, by rw [ha.node, hnode]⟩

/-- A node stays if it is held by a scope that stays. -/
theorem cleared {ms : List Member} (h : w.Occupied) (hc : Cleared w w' ms) (honce : w.HeldOnce)
    (hms : ∀ p name x, w.Holds p name (.node x) → .node x ∉ ms) : w'.Occupied := by
  intro p name x hx
  have hbefore := ((hc.holds p name _).mp hx).1
  exact hc.lives_of_holds honce rfl (h p name x hbefore) hx (hms p name x hbefore)

theorem release (h : w.Occupied) (ho : w.Orderly) (id : ScopeId) : (w.release id).Occupied :=
  h.cleared (cleared_release ho.ranked id) ho.once fun p name x _ hmem => by
    cases List.mem_singleton.mp hmem

theorem destroyScope (h : w.Occupied) (ho : w.Orderly) (id : ScopeId) :
    (w.destroyScope id).Occupied := by
  have hreleased := h.release ho id
  by_cases hheld : ∃ name p, w.scopeKey? id = some (name, some p)
  · obtain ⟨name, p, hkey⟩ := hheld
    rw [destroyScope_of_held hkey]
    refine hreleased.mono (fun q n m hm => ?_) fun x hx => (lives_withMembers _ _ _ _).mpr hx
    exact ((holds_unlinked (ho.release id).tabled p name q n m).mp hm).1
  · rwa [destroyScope_of_free fun name p hkey => hheld ⟨name, p, hkey⟩]

theorem clear (h : w.Occupied) (ho : w.Orderly) : w.clear.Occupied := by
  cases hs : w.scope? .root with
  | none =>
    have hsame : w.clear = w := by rw [World.clear, hs]
    rwa [hsame]
  | some root =>
    obtain ⟨w', -, hcleared, hroot, hclear⟩ := clear_of_root ho.ranked hs
    have hdrained : (w.drained .root root).Occupied :=
      h.mono (fun p name m hm => ((holds_drained hs p name m).mp hm).2) fun x => lives_drained hs
    -- What another scope holds, the root does not hold.
    have hwithin : w'.Occupied := by
      refine hdrained.cleared hcleared (ho.once.drained hs) fun p name x hx hmem => ?_
      obtain ⟨hp, hheld⟩ := (holds_drained hs p name _).mp hx
      obtain ⟨⟨n, m⟩, hentry, rfl⟩ := List.mem_map.mp hmem
      have hroots := (Holds.mem_toList ho.tabled hs).mpr hentry
      exact hp (ho.once _ rfl _ _ _ _ hheld hroots).1
    rw [hclear]
    refine fun p name x hx => (lives_withMembers _ _ _ _).mpr ?_
    by_cases hp : p = .root
    · subst hp
      obtain ⟨-, -, hget⟩ := (holds_withMembers_self w' _ _ name _).mp hx
      have howned := (((typesOnly_spec (ho.tabled .root root hs)).2 name _).mp hget).2
      cases howned
    · exact hwithin p name x ((holds_withMembers_of_ne w' _ _ hp name _).mp hx)

end Occupied

/-- What is known of a world that has been reached whatever the setups of scopes have done. -/
structure Equipped (w : World) : Prop where
  orderly : w.Orderly
  slotted : w.Slotted
  occupied : w.Occupied

namespace Equipped

theorem grows (h : w.Equipped) (hg : GrowsOrderly w w') (ho : w'.Occupied) : w'.Equipped :=
  ⟨(hg h.orderly).1, h.slotted.grows (hg h.orderly).2, ho⟩

theorem record (h : w.Equipped) (e : Event) : (w.record e).Equipped :=
  h.grows (.record w e) (h.occupied.sameTree (.record w e))

theorem modifyScope (h : w.Equipped) (id : ScopeId) {f : Scope → Scope}
    (hf : ∀ s, (f s).bare = s.bare ∧ (f s).members = s.members) :
    (w.modifyScope id f).Equipped :=
  h.grows (.modifyScope w id hf) (h.occupied.sameTree (.modifyBare w id hf))

theorem opened (h : w.Equipped) (p : ScopeId) (name : String) (owner : ScopeId)
    (params : List Value) (type : ScopeType) : (w.opened p name owner params type).Equipped :=
  h.grows (fun ho => ⟨ho.opened, .pushScope w rfl⟩)
    (h.occupied.mono (fun q n m => (holds_push rfl q n m).mp) fun _ => id)

theorem release (h : w.Equipped) (id : ScopeId) : (w.release id).Equipped :=
  ⟨h.orderly.release id, h.slotted.of_nodes fun x n hn =>
    ⟨n, (release_shrinks h.orderly.ranked id).node x n hn, rfl, rfl⟩,
    h.occupied.release h.orderly id⟩

theorem shrinks (h : w.Equipped) (hs : Shrinks w w') (ho : w'.Occupied) : w'.Equipped :=
  ⟨hs.orderly h.orderly, h.slotted.of_nodes fun x n hn => ⟨n, hs.node x n hn, rfl, rfl⟩, ho⟩

theorem define (h : w.Equipped) (p : ScopeId) (name : String) {m : Member}
    (hm : m.isOwned = false) : (w.define p name m).1.Equipped := by
  refine h.grows (define_grows w p name hm) ?_
  rw [World.define]
  obtain ⟨e, hinsert⟩ | ⟨w', hinsert, hadds⟩ := insertMember_cases h.orderly.tabled p name m
  · rw [hinsert]
    exact h.occupied
  · simp only [hinsert]
    refine h.occupied.adds hadds fun x hx => ?_
    rw [hx] at hm
    cases hm

theorem makeNode (h : w.Equipped) (p : ScopeId) (name : String) (type : NodeType)
    (owner : ScopeId) (params : List Value) :
    (w.makeNode p name type owner params).1.Equipped := by
  refine h.grows (makeNode_grows w p name type owner params) ?_
  rw [World.makeNode]
  split
  · generalize hpush : { w with nodes := w.nodes.push (some (.new name type owner p params)) } =
      pushed
    have hnode (x : NodeId) : pushed.node? x =
        if x = ⟨w.nodes.size⟩ then some (.new name type owner p params) else w.node? x := by
      rw [← hpush, node?_push]
    have hoccupied : pushed.Occupied := by
      refine h.occupied.mono (fun q n m hm => by rwa [← hpush] at hm) fun x hx => ?_
      obtain ⟨n, hn⟩ := hx
      rw [Lives, hnode]
      split
      · exact ⟨_, rfl⟩
      · exact ⟨n, hn⟩
    have htabled : pushed.Tabled := by
      rw [← hpush]
      exact h.orderly.tabled
    dsimp only
    obtain ⟨e, hinsert⟩ | ⟨w', hinsert, hadds⟩ :=
      insertMember_cases htabled p name (.node ⟨w.nodes.size⟩)
    · simp only [hinsert]
      exact hoccupied
    · simp only [hinsert]
      refine (hoccupied.adds hadds fun x hx => ?_).sameTree (.record w' _)
      cases hx
      exact ⟨_, by rw [hnode, if_pos rfl]⟩
  · exact h.occupied

theorem settle_occupied (h : w.Equipped) (id p : ScopeId) (name typeName : String) :
    (w.settle id p name typeName).1.Occupied := by
  have hready := h.modifyScope id (f := fun s => { s with isSetUp := true }) fun s => ⟨rfl, rfl⟩
  rw [settle]
  generalize w.modifyScope id (fun s => { s with isSetUp := true }) = ready at hready ⊢
  obtain ⟨e, hinsert⟩ | ⟨w', hinsert, hadds⟩ :=
    insertMember_cases hready.orderly.tabled p name (.scope id)
  · simp only [hinsert]
    exact hready.occupied
  · simp only [hinsert]
    refine (hready.occupied.adds hadds fun x hx => ?_).sameTree (.record w' _)
    cases hx

end Equipped

mutual

theorem makeScope_equipped {w : World} (h : w.Equipped) (p : ScopeId) (name : String)
    (owner : ScopeId) (params : List Value) : (type : ScopeType) →
    (w.makeScope p name owner params type).1.Equipped
  | ⟨typeName, specs, setup, destroy⟩ => by
    refine h.grows (makeScope_grows w p name owner params _) ?_
    rw [makeScope]
    split
    · have hset := runSetup_equipped
        (h.opened p name owner params ⟨typeName, specs, setup, destroy⟩) ⟨w.scopes.size⟩ setup
      rw [opened] at hset
      dsimp only
      generalize runSetup _ _ setup = outcome at hset ⊢
      obtain ⟨w', answer⟩ := outcome
      cases answer with
      | ok done => exact (hset.record _).settle_occupied _ p name typeName
      | error reason => exact ((hset.record _).release _).occupied
    · exact h.occupied

theorem runSetup_equipped {w : World} (h : w.Equipped) (id : ScopeId) : (setup : Setup) →
    (w.runSetup id setup).1.Equipped
  | .done => by rwa [runSetup]
  | .fail reason => by rwa [runSetup]
  | .look next => by
    rw [runSetup]
    split
    · exact runSetup_equipped h id _
    · exact h
  | .say remark next => by
    rw [runSetup]
    exact runSetup_equipped (h.record _) id next
  | .keep window next => by
    rw [runSetup]
    have hkept := h.modifyScope id (f := fun s => { s with window := some window })
      fun s => ⟨rfl, rfl⟩
    exact runSetup_equipped hkept id next
  | .defineNodeType location name type next => by
    rw [runSetup]
    exact runSetup_equipped (h.define _ name rfl) id _
  | .defineScopeType location name type next => by
    rw [runSetup]
    exact runSetup_equipped (h.define _ name rfl) id _
  | .makeNode location name type params next => by
    rw [runSetup]
    exact runSetup_equipped (h.makeNode _ name type id params) id _
  | .makeScope location name type params next => by
    rw [runSetup]
    exact runSetup_equipped (makeScope_equipped h _ name id params type) id _

end

end World

/-! ## Whatever is done -/

namespace Catalog

open World

theorem populate_equipped {w : World} (h : w.Equipped) (c : Catalog) (scope : ScopeId) :
    (c.populate w scope).1.Equipped := by
  refine List.foldlRecOn (motive := fun p : Populating => p.1.Equipped) c.entries _ h
    fun p hp entry _ => ?_
  cases entry with
  | nodeType t =>
    rw [installEntry, installType_world]
    exact hp.define scope t.name rfl
  | scopeType t =>
    rw [installEntry, installType_world]
    exact hp.define scope t.name rfl
  | plugin t =>
    rw [installEntry, installPlugin_world]
    exact makeScope_equipped hp _ _ _ _ t

end Catalog

namespace Assembly

open Script World

variable {w w' : World} {scope : ScopeId} {s : Statement}

theorem makeStep_equipped {a : Assembly} (h : a.world.Equipped) (scope : ScopeId) (s : Statement) :
    (makeStep scope a s).world.Equipped := by
  have hmade := makeStep_madeFrom scope a s
  generalize (makeStep scope a s).world = w' at hmade ⊢
  cases hmade with
  | same => exact h
  | node p name type owner params => exact h.makeNode p name type owner params
  | scope p name owner params type => exact makeScope_equipped h p name owner params type

theorem Connects.equipped {target source : NodeId} {index : Nat}
    (h : Connects w w' scope s target source index) (hw : w.Equipped) : w'.Equipped := by
  refine ⟨h.orderly hw.orderly, hw.slotted.of_nodes fun x n' hn' => ?_,
    hw.occupied.sameTree h.sameTree⟩
  rw [h.node] at hn'
  split at hn'
  · rename_i hx
    obtain ⟨n, hn, rfl⟩ := Option.map_eq_some_iff.mp hn'
    exact ⟨n, by rw [hx, hn], rfl, List.length_set⟩
  · exact ⟨n', hn', rfl, rfl⟩

theorem connectStep_equipped {a : Assembly} (h : a.world.Equipped) (scope : ScopeId)
    (s : Statement) : (connectStep scope a s).world.Equipped := by
  obtain hsame | ⟨target, source, index, hconnects⟩ := connectStep_cases scope a s
  · rwa [hsame]
  · exact hconnects.equipped h

theorem apply_equipped (h : w.Equipped) (scope : ScopeId) (p : Program) :
    (apply w scope p).world.Equipped :=
  apply_keeps (fun _ s ha => makeStep_equipped ha scope s) (fun hconnects => hconnects.equipped) h p

end Assembly

open World

theorem Change.run_equipped {w : World} (h : w.Equipped) (c : Change) : (c.run w).Equipped := by
  cases c with
  | populate catalog scope => exact catalog.populate_equipped h scope
  | apply scope program => exact Assembly.apply_equipped h scope program
  | makeNode parent name type owner params => exact h.makeNode parent name type owner params
  | makeScope parent name type owner params =>
    exact makeScope_equipped h parent name owner params type
  | destroyScope id =>
    exact h.shrinks (destroyScope_shrinks h.orderly.ranked id)
      (h.occupied.destroyScope h.orderly id)
  | clear => exact h.shrinks (clear_shrinks h.orderly.ranked) (h.occupied.clear h.orderly)

theorem World.Attends.equipped {w w' : World} (h : Attends w w') (hw : w.Equipped)
    (hslots : w'.Slotted) : w'.Equipped :=
  ⟨h.orderly hw.orderly, hslots, hw.occupied.sameTree (.of_scopes h.scopes h.nodeKey)⟩

theorem Operation.run_equipped {w : World} (h : w.Equipped) (op : Operation) :
    (op.run w).Equipped := by
  cases op with
  | change c => exact c.run_equipped h
  | build =>
    exact (Schedule.build_attends w).equipped h (h.slotted.sameWiring (Schedule.build_wiring w))
  | update s =>
    exact (Schedule.update_attends w s).equipped h (h.slotted.sameWiring (Schedule.update_wiring w s))
  | tearDown s => exact (Schedule.tearDown_attends w s).equipped h (h.slotted.tearDown s)

theorem World.Reachable.foldl_run {w : World} (h : w.Reachable) (ops : List Operation) :
    (ops.foldl Operation.run w).Reachable :=
  List.foldlRecOn ops _ h fun _ hw op _ => .run hw op

/-- In every world that there can be, whatever the setups of scopes do, the entries are orderly,
every node has its inputs, and an entry that is for a node is for one that is there. -/
theorem World.Reachable.equipped {w : World} (h : w.Reachable) : w.Equipped := by
  induction h with
  | new journal =>
    have ht := new_tree journal
    exact ⟨Forest.orderly ht, new_slotted journal, fun p name x hx => Forest.lives_of_holds ht hx rfl⟩
  | run _ op ih => exact op.run_equipped ih
  | opened _ p name owner params type ih => exact ih.opened p name owner params type
  | step _ hstep ih =>
    obtain ⟨only, rfl⟩ := runSetup_of_step hstep
    exact runSetup_equipped ih _ only

end FrameGraph
