import FrameGraph.Proofs.Schedule.Wiring
import FrameGraph.Proofs.World.Gather

/-!
# Worlds that can be reached

Whatever is done to a new world, as long as the setups of its scope types are confined, its entries
form a tree: each node and each scope but the root is held once, by the live scope it has as its
parent and under its own name, and everything there can be reached from the root.
-/
namespace FrameGraph

/-- An entry with the scope that has it. -/
structure Entry where
  holder : ScopeId
  name : String
  member : Member

/-- The entry is for a node. -/
def Entry.isFor (x : NodeId) (e : Entry) : Bool :=
  match e.member with
  | .node y => y = x
  | _ => false

/-- The entry is for a scope. -/
def Entry.isForScope (x : ScopeId) (e : Entry) : Bool :=
  match e.member with
  | .scope y => y = x
  | _ => false

theorem Entry.isFor_iff {x : NodeId} {e : Entry} : e.isFor x = true ↔ e.member = .node x := by
  rw [isFor]
  cases e.member <;> simp

theorem Entry.isForScope_iff {x : ScopeId} {e : Entry} :
    e.isForScope x = true ↔ e.member = .scope x := by
  rw [isForScope]
  cases e.member <;> simp

/-- A list without repetitions in which one element alone passes a test. -/
theorem filter_eq_singleton {α : Type} {l : List α} (hl : l.Nodup) {q : α → Bool} {a : α}
    (h : ∀ b ∈ l, q b = true ↔ b = a) (ha : a ∈ l) : l.filter q = [a] := by
  refine List.perm_singleton.mp ?_
  rw [List.perm_ext_iff_of_nodup (hl.filter q) (List.nodup_singleton a)]
  intro b
  rw [List.mem_filter, List.mem_singleton]
  constructor
  · exact fun hb => (h b hb.1).mp hb.2
  · rintro rfl
    exact ⟨ha, (h b ha).mpr rfl⟩

namespace World

variable {w : World}

/-- The entries of a scope. -/
def entriesOf (w : World) (p : ScopeId) : List Entry :=
  match w.scope? p with
  | none => []
  | some s => s.members.toList.map fun entry => ⟨p, entry.1, entry.2⟩

/-- The entries of all scopes that are there. -/
def entries (w : World) : List Entry :=
  (List.range w.scopes.size).flatMap fun i => w.entriesOf ⟨i⟩

theorem mem_entriesOf (ht : w.Tabled) {p : ScopeId} {e : Entry} :
    e ∈ w.entriesOf p ↔ e.holder = p ∧ w.Holds p e.name e.member := by
  obtain ⟨q, name, m⟩ := e
  rw [entriesOf]
  cases hs : w.scope? p with
  | none => simp [Holds, hs]
  | some s =>
    rw [Holds.mem_toList ht hs]
    simp only [List.mem_map, Entry.mk.injEq]
    constructor
    · rintro ⟨⟨name, m⟩, hentry, rfl, rfl, rfl⟩
      exact ⟨rfl, hentry⟩
    · rintro ⟨rfl, hentry⟩
      exact ⟨_, hentry, rfl, rfl, rfl⟩

theorem mem_entries (ht : w.Tabled) {e : Entry} :
    e ∈ w.entries ↔ w.Holds e.holder e.name e.member := by
  rw [entries, List.mem_flatMap]
  constructor
  · rintro ⟨i, -, he⟩
    obtain ⟨hholder, hheld⟩ := (mem_entriesOf ht).mp he
    rwa [hholder]
  · intro hheld
    obtain ⟨s, hs⟩ := hheld.scope_isSome
    exact ⟨e.holder.index, List.mem_range.mpr (lt_size_of_scope? hs),
      (mem_entriesOf ht).mpr ⟨rfl, hheld⟩⟩

theorem entries_nodup (ht : w.Tabled) : w.entries.Nodup := by
  rw [entries, List.nodup_flatMap]
  refine ⟨fun i _ => ?_, List.nodup_range.imp fun {i j} hij e he he' => ?_⟩
  · rw [entriesOf]
    cases hs : w.scope? ⟨i⟩ with
    | none => exact List.nodup_nil
    | some s =>
      exact List.Nodup.map
        (fun a b hab => Prod.ext (congrArg Entry.name hab) (congrArg Entry.member hab))
        (ht _ s hs).sound.keys_nodup.of_map
  · have hi := ((mem_entriesOf ht).mp he).1
    rw [((mem_entriesOf ht).mp he').1] at hi
    cases hi
    exact hij rfl

/-- What is held is held by one entry. -/
theorem Tree.filter_entries (h : w.Tree) {p : ScopeId} {name : String} {m : Member}
    (howned : m.isOwned = true) (hm : w.Holds p name m) {q : Entry → Bool}
    (hq : ∀ e, q e = true ↔ e.member = m) : w.entries.filter q = [⟨p, name, m⟩] := by
  have ht := Forest.tabled h
  refine filter_eq_singleton (entries_nodup ht) (fun e he => ?_) ((mem_entries ht).mpr hm)
  rw [hq]
  constructor
  · rintro rfl
    obtain ⟨rfl, rfl⟩ := Forest.heldOnce h _ howned _ _ _ _ hm ((mem_entries ht).mp he)
    rfl
  · rintro rfl
    rfl

/-- Every node and every scope but the root is owned, and nothing is lost. -/
structure Owned (w : World) : Prop where
  node : ∀ x n, w.node? x = some n → w.entries.filter (Entry.isFor x) = [⟨n.parent, n.name, .node x⟩]
  scope : ∀ x s, w.scope? x = some s → x ≠ .root →
    ∃ p, s.parent = some p ∧ w.entries.filter (Entry.isForScope x) = [⟨p, s.name, .scope x⟩]
  holder : ∀ e ∈ w.entries, ∃ s, w.scope? e.holder = some s ∧ s.member? e.name = some e.member
  node_there : ∀ e ∈ w.entries, ∀ x, e.member = .node x → ∃ n, w.node? x = some n
  scope_there : ∀ e ∈ w.entries, ∀ x, e.member = .scope x → x ≠ .root ∧ ∃ s, w.scope? x = some s
  reached : ∀ m, w.Lives m → Under w (.scope .root) m
  /-- The limit on the depth of the walk is never met. -/
  gather_depth : ∀ depth, w.scopes.size ≤ depth → w.nodesWithin depth .root = w.gather
  gather_nodup : w.gather.Nodup
  mem_gather : ∀ x, x ∈ w.gather ↔ ∃ n, w.node? x = some n

theorem Tree.owned (h : w.Tree) : w.Owned := by
  have ht := Forest.tabled h
  obtain ⟨hnodup, hmem⟩ := h.gather_spec
  refine ⟨fun x n hn => ?_, fun x s hs hroot => ?_, fun e he => (mem_entries ht).mp he,
    fun e he x hx => ?_, fun e he x hx => ?_, fun m => h.under_root, fun depth hdepth => ?_,
    hnodup, hmem⟩
  · exact h.filter_entries rfl ((Forest.holds_node h n.parent n.name x).mpr (by rw [nodeKey?, hn]; rfl))
      fun e => Entry.isFor_iff
  · have hkey : w.scopeKey? x = some (s.name, s.parent) := by rw [scopeKey?, hs]; rfl
    cases hparent : s.parent with
    | none =>
      rw [hparent] at hkey
      exact absurd (Forest.rooted h x s.name hkey) hroot
    | some p =>
      rw [hparent] at hkey
      exact ⟨p, rfl, h.filter_entries rfl ((Forest.holds_scope h p s.name x).mpr ⟨hroot, hkey⟩)
        fun e => Entry.isForScope_iff⟩
  · have hheld := (mem_entries ht).mp he
    rw [hx] at hheld
    exact Forest.lives_of_holds h hheld rfl
  · have hheld := (mem_entries ht).mp he
    rw [hx] at hheld
    exact ⟨((Forest.holds_scope h _ _ x).mp hheld).1, Forest.lives_of_holds h hheld rfl⟩
  · exact nodesWithin_eq ht (Forest.ranked h).leveled _ _ _ (by omega) (by omega)

end World

/-- What can be done with a world. -/
inductive Operation where
  | change (c : Change)
  | build
  | update (s : Schedule)
  | tearDown (s : Schedule)

namespace Operation

/-- The world after an operation. -/
def run (w : World) : Operation → World
  | change c => c.run w
  | build => (Schedule.build w).1
  | update s => s.update w
  | tearDown s => s.tearDown w

/-- The setups that the operation brings into the world are confined. -/
def Confined : Operation → Prop
  | change c => c.Confined
  | build | update _ | tearDown _ => True

theorem run_tree {w : World} (h : w.Tree) (op : Operation) (hop : op.Confined) :
    (op.run w).Tree := by
  cases op with
  | change c => exact (c.edits h hop).tree h
  | build => exact h.sameTree (Schedule.build_wiring w).sameTree
  | update s => exact h.sameTree (Schedule.update_wiring w s).sameTree
  | tearDown s => exact h.sameTree (Schedule.tearDown_tree w s)

end Operation

namespace World

theorem Tree.foldl_run {w : World} (h : w.Tree) (ops : List Operation)
    (hops : ∀ op ∈ ops, op.Confined) : (ops.foldl Operation.run w).Tree := by
  induction ops generalizing w with
  | nil => exact h
  | cons op ops ih =>
    exact ih (Operation.run_tree h op (hops op List.mem_cons_self))
      fun op hop => hops op (List.mem_cons_of_mem _ hop)

/-- Ownership in every world that can be reached from a new one. -/
theorem reached_owned (journal : Array Event) (ops : List Operation)
    (hops : ∀ op ∈ ops, op.Confined) : (ops.foldl Operation.run (World.new journal)).Owned :=
  ((new_tree journal).foldl_run ops hops).owned

/-- A window is opened, another is refused, and the first is taken down beside a node. -/
def windowAndNode : List Operation :=
  let window (name : String) (width : Int64) : Operation :=
    .change (.makeScope .root name Window.scopeType .root [.integer width, .integer 2])
  [.change (.populate Window.catalog .root), window "first" 2, window "second" 0,
    .change (.makeNode .root "node" { name := "plain" } .root []), .build,
    .change (.destroyScope ⟨1⟩)]

theorem reached_owned_windowAndNode :
    (∀ op ∈ windowAndNode, op.Confined) ∧
      (windowAndNode.foldl Operation.run (World.new #[])).Owned ∧
      (windowAndNode.foldl Operation.run (World.new #[])).gather = [⟨1⟩] := by
  have hconfined : ∀ op ∈ windowAndNode, op.Confined := by
    simp [windowAndNode, Operation.Confined, Change.Confined, Window.catalog_confined,
      Window.scopeType_confined]
  exact ⟨hconfined, reached_owned #[] windowAndNode hconfined, by decide +kernel⟩

end World

end FrameGraph
