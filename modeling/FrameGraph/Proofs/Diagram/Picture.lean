import FrameGraph.Proofs.Diagram.Lines
import FrameGraph.Proofs.Schedule.Dataflow
import FrameGraph.Proofs.World.Inputs
import FrameGraph.Proofs.World.Naming

/-!
# Pictures

What is read from the diagram of a world is the world: a box for every node, among the clusters of
the scopes that hold it, a cluster for every scope but the root, nested as the scopes are, and an
arrow for every connected slot. Each is there once, and there is nothing else.
-/
namespace FrameGraph

/-- The slots that are connected, in order: what each reads from, and its name. -/
def Node.connections (n : Node) : List (NodeId × String) :=
  n.type.inputs.zipIdx.filterMap fun (spec, i) => (n.input? i).map fun source => (source, spec.name)

namespace World

open Diagram Relation

variable {w : World}

/-- The scopes below the root that are met on the way up from a scope, itself first. -/
def scopesUp (w : World) (x : ScopeId) : List ScopeId :=
  match w.parent? x with
  | some p => if p.index < x.index then x :: w.scopesUp p else [x]
  | none => []
termination_by x.index

/-- The graphs that a member of a scope stands in: one for all, and the clusters of the scopes below
the root that hold it. -/
def nest (w : World) (x : ScopeId) : List String :=
  "lumen" :: (w.scopesUp x).reverse.map clusterName

/-- The nodes that are there. -/
def nodesThere (w : World) : List (NodeId × Node) :=
  (List.range w.nodes.size).filterMap fun i => (w.node? ⟨i⟩).map fun n => (⟨i⟩, n)

/-- The scopes that are there, without the root. -/
def scopesThere (w : World) : List (ScopeId × Scope) :=
  (List.range w.scopes.size).filterMap fun i =>
    if i = ScopeId.root.index then none else (w.scope? ⟨i⟩).map fun s => (⟨i⟩, s)

/-- What the inputs read from is there. -/
def Sourced (w : World) : Prop :=
  ∀ x n i source, w.node? x = some n → n.input? i = some source → ∃ m, w.node? source = some m

theorem sourced_of_all (h : (w.nodes.all fun place => (place.map Node.inputs).all fun inputs =>
    inputs.all fun input => input.all fun source => (w.node? source).isSome) = true) :
    w.Sourced := by
  intro x n i source hn hsource
  have hplace : some n ∈ w.nodes := Array.mem_of_getElem? (Option.join_eq_some_iff.mp hn)
  have hinput : some source ∈ n.inputs := List.mem_of_getElem? (Option.join_eq_some_iff.mp hsource)
  have hall := Array.all_eq_true'.mp h _ hplace
  rw [Option.map_some, Option.all_some, List.all_eq_true] at hall
  exact Option.isSome_iff_exists.mp (hall _ hinput)

/-- An edit, or an operation whose setups are confined. -/
inductive Kept : World → World → Prop
  | edit {w w' : World} (edit : Edit w w') : Kept w w'
  | run (w : World) (op : Operation) (confined : op.Confined) : Kept w (op.run w)

theorem Kept.tree_slotted {w' : World} (h : ReflTransGen Kept w w') (ht : w.Tree)
    (hs : w.Slotted) : w'.Tree ∧ w'.Slotted := by
  induction h with
  | refl => exact ⟨ht, hs⟩
  | tail _ hlast ih =>
    cases hlast with
    | edit hedit => exact ⟨hedit.tree ih.1, hedit.slotted ih.1 ih.2⟩
    | run op hop => exact ⟨op.run_tree ih.1 hop, op.run_slotted ih.1 ih.2 hop⟩

theorem Kept.foldl_run (w : World) (ops : List Operation) (hops : ∀ op ∈ ops, op.Confined) :
    ReflTransGen Kept w (ops.foldl Operation.run w) := by
  induction ops generalizing w with
  | nil => exact .refl
  | cons op ops ih =>
    obtain ⟨hop, hops⟩ := List.forall_mem_cons.mp hops
    exact .head (.run w op hop) (ih _ hops)

end World

namespace Diagram

open World Relation

variable {w : World}

/-- The box for a node. -/
def boxFor (w : World) (x : NodeId × Node) : Placed :=
  ⟨w.nest x.2.parent, .box x.1.text
    (boxSettings x.2.type.produces.isSome x.2.name x.2.type.name)⟩

/-- The cluster for a scope. -/
def clusterFor (w : World) (x : ScopeId × Scope) : List Placed :=
  clusterItems (w.nest x.1).dropLast x.1 x.2.type.name x.2.name

/-- The arrow for a connection. -/
def arrowFor (reader : NodeId) (c : NodeId × String) : Placed :=
  ⟨["lumen"], .arrow c.1.text reader.text [("label", glyphs c.2)]⟩

/-- All that is to be seen of a world. -/
def picture (w : World) : List Placed :=
  heading ++ w.nodesThere.map (boxFor w) ++ w.scopesThere.flatMap (clusterFor w) ++
    w.nodesThere.flatMap fun x => x.2.connections.map (arrowFor x.1)

/-! ## Lines and what they say -/

theorem Says.flatMap {α : Type} {nest : List String} {l : List α} {lines : α → List Line}
    {items : α → List Placed}
    (h : ∀ a ∈ l, Says (String.join ((lines a).map Line.render)) nest nest (items a)) :
    Says (String.join ((l.flatMap lines).map Line.render)) nest nest (l.flatMap items) := by
  induction l with
  | nil => exact .empty nest
  | cons a l ih =>
    obtain ⟨hfirst, hrest⟩ := List.forall_mem_cons.mp h
    rw [List.flatMap_cons, List.flatMap_cons, List.map_append, String.join_append]
    exact hfirst.append (ih hrest)

theorem Says.line {nest nest' : List String} {line : Line} {items : List Placed}
    (h : Says line.render nest nest' items) :
    Says (String.join ([line].map Line.render)) nest nest' items := by
  rwa [List.map_singleton, String.join_cons, String.join_nil, String.append_empty]

/-! ## What a scope holds -/

/-- What is to be seen of a member in its place. -/
def itemsOf (w : World) : Member → List Placed
  | .node x => ((w.node? x).map fun n => boxFor w (x, n)).toList
  | .scope x => ((w.scope? x).map fun s => clusterFor w (x, s)).getD []
  | .nodeType _ | .scopeType _ => []

theorem scopesUp_of_parent (h : w.Aged) {x p : ScopeId} (hp : w.parent? x = some p) :
    w.scopesUp x = x :: w.scopesUp p := by
  rw [scopesUp, hp]
  exact if_pos (h.parent?_lt hp)

theorem nest_root (h : w.Aged) : w.nest .root = ["lumen"] := by
  rw [nest, scopesUp, h.parent?_root]
  rfl

theorem nest_of_parent (h : w.Aged) {x p : ScopeId} (hp : w.parent? x = some p) :
    w.nest x = w.nest p ++ [clusterName x] := by
  rw [nest, scopesUp_of_parent h hp, List.reverse_cons, List.map_append]
  rfl

theorem nest_ne_nil (w : World) (x : ScopeId) : w.nest x ≠ [] := List.cons_ne_nil _ _

theorem says_contents (h : w.Tree) (levels depth : Nat) (p : ScopeId) :
    Says (String.join ((contents w levels depth p).map Line.render)) (w.nest p) (w.nest p)
      ((w.membersWithin levels p).flatMap (itemsOf w)) := by
  induction levels generalizing depth p with
  | zero => exact .empty _
  | succ levels ih =>
    rw [contents]
    cases hs : w.scope? p with
    | none =>
      rw [membersWithin_of_none _ hs]
      exact .empty _
    | some s =>
      rw [membersWithin_of_scope _ hs, List.flatMap_assoc]
      refine .flatMap fun entry hentry => ?_
      have hheld := (Holds.mem_toList (Forest.tabled h) hs).mpr hentry
      obtain ⟨name, m⟩ := entry
      cases m with
      | node x =>
        obtain ⟨n, hn, rfl, -⟩ := h.holds_node_iff.mp hheld
        have hitems : (membersOf (w.membersWithin levels) (name, .node x)).flatMap (itemsOf w) =
            [boxFor w (x, n)] := by simp [membersOf, itemsOf, hn]
        rw [hitems]
        simp only [hn]
        exact (says_node (nest_ne_nil w n.parent) depth x _ _ _).line
      | scope x =>
        obtain ⟨c, hc, hp, rfl⟩ := h.holds_scope_iff.mp hheld
        have hnest := nest_of_parent h.aged (parent?_eq_some.mpr ⟨c, hc, hp⟩)
        have hcluster : clusterFor w (x, c) = clusterItems (w.nest p) x c.type.name c.name := by
          rw [clusterFor, hnest, List.dropLast_concat]
        have hitems : (membersOf (w.membersWithin levels) (c.name, .scope x)).flatMap (itemsOf w) =
            clusterFor w (x, c) ++ ((w.membersWithin levels x).flatMap (itemsOf w) ++ []) := by
          simp [membersOf, itemsOf, hc]
        have hopen := says_openCluster (nest_ne_nil w p) depth x c.type.name c.name
        have hclose := says_closeCluster (w.nest p) (clusterName x) depth
        rw [← hnest] at hopen hclose
        rw [hitems, hcluster]
        simp only [hc]
        rw [List.cons_append, List.map_cons, String.join_cons, List.map_append, String.join_append]
        exact hopen.append ((ih (depth + 1) x).append hclose.line)
      | nodeType t => exact .empty _
      | scopeType t => exact .empty _

/-! ## Arrows -/

theorem connections_eq (n : Node) : n.connections =
    n.wiring.filterMap fun (spec, source) => source.map fun source => (source, spec.name) := by
  have hzip (specs : List InputSpec) (inputs : List (Option NodeId)) :
      (specs.zipIdx.filterMap fun (spec, i) =>
        (inputs[i]?).join.map fun source => (source, spec.name)) =
      (specs.zip inputs).filterMap fun (spec, source) =>
        source.map fun source => (source, spec.name) := by
    induction specs generalizing inputs with
    | nil => rfl
    | cons spec specs ih =>
      rw [List.zipIdx_cons, List.zipIdx_succ, List.filterMap_cons, List.filterMap_map]
      cases inputs with
      | nil => simp
      | cons input inputs =>
        rw [List.zip_cons_cons, List.filterMap_cons, ← ih inputs]
        cases input <;> simp
  exact hzip n.type.inputs n.inputs

theorem edgesTo_eq {x : NodeId} {n : Node} (hn : w.node? x = some n) :
    edgesTo w x = n.connections.flatMap fun c => [.edge c.1 x c.2] := by
  rw [edgesTo, hn, connections_eq, ← List.map_eq_flatMap, List.map_filterMap]
  refine List.filterMap_congr fun slot _ => ?_
  rw [Option.map_map]
  rfl

/-- The arrows to the slots of a node. -/
def arrowsTo (w : World) (x : NodeId) : List Placed :=
  ((w.node? x).map fun n => n.connections.map (arrowFor x)).getD []

theorem says_edgesTo (w : World) (x : NodeId) :
    Says (String.join ((edgesTo w x).map Line.render)) ["lumen"] ["lumen"] (arrowsTo w x) := by
  rw [arrowsTo]
  cases hn : w.node? x with
  | none =>
    rw [edgesTo, hn]
    exact .empty _
  | some n =>
    have harrow (c : NodeId × String) : Says (Line.edge c.1 x c.2).render ["lumen"] ["lumen"]
        [arrowFor x c] := says_edge (List.cons_ne_nil _ _) c.1 x c.2
    rw [edgesTo_eq hn, Option.map_some, Option.getD_some, List.map_eq_flatMap (f := arrowFor x)]
    exact .flatMap fun c _ => (harrow c).line

/-- The statements in the diagram of a world, in order. -/
def statements (w : World) : List Placed :=
  heading ++ ((w.membersWithin w.scopes.size .root).flatMap (itemsOf w) ++
    w.gather.flatMap (arrowsTo w))

theorem exists_tokens_text (h : w.Tree) :
    ∃ ts, tokens? (text w) = some ts ∧ placed? ts = some (statements w) := by
  have hmembers := says_contents h w.scopes.size 0 .root
  rw [nest_root h.aged] at hmembers
  have harrows : Says (String.join ((w.gather.flatMap (edgesTo w)).map Line.render)) ["lumen"]
      ["lumen"] (w.gather.flatMap (arrowsTo w)) := .flatMap fun x _ => says_edgesTo w x
  have hedges : Says (String.join ((if (w.gather.flatMap (edgesTo w)).isEmpty then []
      else .blank :: w.gather.flatMap (edgesTo w)).map Line.render)) ["lumen"] ["lumen"]
      (w.gather.flatMap (arrowsTo w)) := by
    split
    · rename_i hnone
      rwa [List.isEmpty_iff.mp hnone] at harrows
    · rw [List.map_cons, String.join_cons]
      exact (says_blank _).append harrows
  have hall := exists_tokens_of_says ((hmembers.append hedges).append (says_closing "lumen").line)
  rw [List.append_nil, ← String.join_append, ← String.join_append, ← List.map_append,
    ← List.map_append] at hall
  rw [text, lines, List.cons_append, List.cons_append, List.map_cons, String.join_cons]
  exact hall

/-! ## Everything once -/

theorem mem_nodesThere {x : NodeId} {n : Node} : (x, n) ∈ w.nodesThere ↔ w.node? x = some n := by
  rw [nodesThere, List.mem_filterMap]
  constructor
  · rintro ⟨i, -, hi⟩
    obtain ⟨n', hn', hpair⟩ := Option.map_eq_some_iff.mp hi
    cases hpair
    exact hn'
  · exact fun hn => ⟨x.index, List.mem_range.mpr (lt_size_of_node? hn), by rw [hn]; rfl⟩

theorem mem_scopesThere {x : ScopeId} {s : Scope} :
    (x, s) ∈ w.scopesThere ↔ x ≠ .root ∧ w.scope? x = some s := by
  rw [scopesThere, List.mem_filterMap]
  constructor
  · rintro ⟨i, -, hi⟩
    split at hi
    · cases hi
    · rename_i hroot
      obtain ⟨s', hs', hpair⟩ := Option.map_eq_some_iff.mp hi
      cases hpair
      exact ⟨fun heq => hroot (congrArg ScopeId.index heq), hs'⟩
  · rintro ⟨hroot, hs⟩
    refine ⟨x.index, List.mem_range.mpr (lt_size_of_scope? hs), ?_⟩
    rw [if_neg (mt ScopeId.index_eq_iff.mp hroot), hs]
    rfl

/-- What is found by its number is found once. -/
theorem nodup_map_range {α : Type} {f : Nat → Option α} {index : α → Nat}
    (h : ∀ i a, f i = some a → index a = i) (n : Nat) :
    (((List.range n).filterMap f).map index).Nodup := by
  rw [List.map_filterMap]
  refine List.nodup_range.filterMap fun i j k hi hj => ?_
  obtain ⟨a, ha, rfl⟩ := Option.map_eq_some_iff.mp hi
  obtain ⟨b, hb, hab⟩ := Option.map_eq_some_iff.mp hj
  rw [← h i a ha, ← hab, h j b hb]

theorem nodesThere_nodup (w : World) : (w.nodesThere.map Prod.fst).Nodup := by
  have hindex : ((w.nodesThere.map Prod.fst).map NodeId.index).Nodup := by
    rw [List.map_map]
    refine nodup_map_range (fun i x hx => ?_) w.nodes.size
    obtain ⟨n, -, rfl⟩ := Option.map_eq_some_iff.mp hx
    rfl
  exact hindex.of_map

theorem scopesThere_nodup (w : World) : (w.scopesThere.map Prod.fst).Nodup := by
  have hindex : ((w.scopesThere.map Prod.fst).map ScopeId.index).Nodup := by
    rw [List.map_map]
    refine nodup_map_range (fun i x hx => ?_) w.scopes.size
    split at hx
    · cases hx
    · obtain ⟨s, -, rfl⟩ := Option.map_eq_some_iff.mp hx
      rfl
  exact hindex.of_map

/-- The nodes and the scopes that are there, but for the root, as members. -/
def membersThere (w : World) : List Member :=
  w.nodesThere.map (Member.node ·.1) ++ w.scopesThere.map (Member.scope ·.1)

theorem membersThere_nodup (w : World) : (membersThere w).Nodup := by
  have hnodes := (nodesThere_nodup w).map fun a b hab => Member.node.inj hab
  have hscopes := (scopesThere_nodup w).map fun a b hab => Member.scope.inj hab
  rw [List.map_map] at hnodes hscopes
  refine hnodes.append hscopes fun m hm hm' => ?_
  obtain ⟨x, -, rfl⟩ := List.mem_map.mp hm
  obtain ⟨y, -, hy⟩ := List.mem_map.mp hm'
  cases hy

theorem mem_membersThere {m : Member} : m ∈ membersThere w ↔ w.Lives m ∧ m ≠ .scope .root := by
  rw [membersThere, List.mem_append, List.mem_map, List.mem_map]
  constructor
  · rintro (⟨⟨x, n⟩, hn, rfl⟩ | ⟨⟨x, s⟩, hs, rfl⟩)
    · exact ⟨⟨n, mem_nodesThere.mp hn⟩, nofun⟩
    · obtain ⟨hroot, hs⟩ := mem_scopesThere.mp hs
      exact ⟨⟨s, hs⟩, fun heq => hroot (Member.scope.inj heq)⟩
  · rintro ⟨hlives, hroot⟩
    cases m with
    | node x =>
      obtain ⟨n, hn⟩ := hlives
      exact .inl ⟨(x, n), mem_nodesThere.mpr hn, rfl⟩
    | scope x =>
      obtain ⟨s, hs⟩ := hlives
      exact .inr ⟨(x, s), mem_scopesThere.mpr ⟨fun heq => hroot (congrArg _ heq), hs⟩, rfl⟩
    | nodeType | scopeType => exact hlives.elim

/-- What is held somewhere below the root is there, and so is nothing else but the root. -/
theorem below_root_iff (h : w.Tree) {m : Member} :
    Below w .root m ↔ w.Lives m ∧ m ≠ .scope .root := by
  constructor
  · rintro ⟨howned, q, name, -, hheld⟩
    refine ⟨Forest.lives_of_holds h hheld howned, ?_⟩
    rintro rfl
    exact ((Forest.holds_scope h q name .root).mp hheld).1 rfl
  · rintro ⟨hlives, hroot⟩
    cases h.under_root hlives with
    | top => exact absurd rfl hroot
    | entry above hheld =>
      refine ⟨?_, _, _, above, hheld⟩
      cases m with
      | node | scope => rfl
      | nodeType | scopeType => exact hlives.elim

theorem mem_members_iff (h : w.Tree) {m : Member} :
    m ∈ w.membersWithin w.scopes.size .root ↔ w.Lives m ∧ m ≠ .scope .root := by
  have ht := Forest.tabled h
  rw [← below_root_iff h]
  exact ⟨below_of_mem_membersWithin ht _ _,
    mem_membersWithin_of_below ht (Forest.ranked h).leveled _ _ (by omega)⟩

/-- The walk meets each node and each scope but the root once. -/
theorem members_perm (h : w.Tree) :
    (w.membersWithin w.scopes.size .root).Perm (membersThere w) := by
  have hnodup := (Forest.ranked h).leveled.membersWithin_nodup (Forest.tabled h)
    (Forest.heldOnce h) w.scopes.size .root
  refine (List.perm_ext_iff_of_nodup hnodup (membersThere_nodup w)).mpr fun m => ?_
  rw [mem_members_iff h, mem_membersThere]

theorem gather_perm (h : w.Tree) : w.gather.Perm (w.nodesThere.map Prod.fst) := by
  obtain ⟨hnodup, hmem⟩ := h.gather_spec
  refine (List.perm_ext_iff_of_nodup hnodup (nodesThere_nodup w)).mpr fun x => ?_
  rw [hmem, List.mem_map]
  exact ⟨fun ⟨n, hn⟩ => ⟨(x, n), mem_nodesThere.mpr hn, rfl⟩,
    fun ⟨⟨y, n⟩, hn, hy⟩ => ⟨n, by rw [← hy]; exact mem_nodesThere.mp hn⟩⟩

theorem items_perm (h : w.Tree) :
    ((w.membersWithin w.scopes.size .root).flatMap (itemsOf w)).Perm
      (w.nodesThere.map (boxFor w) ++ w.scopesThere.flatMap (clusterFor w)) := by
  refine ((members_perm h).flatMap_right _).trans ?_
  rw [membersThere, List.flatMap_append, List.flatMap_map, List.flatMap_map, List.map_eq_flatMap]
  have hboxes : (w.nodesThere.flatMap fun x => itemsOf w (.node x.1)) =
      w.nodesThere.flatMap fun x => [boxFor w x] := by
    refine List.flatMap_congr fun x hx => ?_
    rw [itemsOf, mem_nodesThere.mp hx]
    rfl
  have hclusters : (w.scopesThere.flatMap fun x => itemsOf w (.scope x.1)) =
      w.scopesThere.flatMap (clusterFor w) := by
    refine List.flatMap_congr fun x hx => ?_
    rw [itemsOf, (mem_scopesThere.mp hx).2]
    rfl
  rw [hboxes, hclusters]

theorem arrows_perm (h : w.Tree) : (w.gather.flatMap (arrowsTo w)).Perm
    (w.nodesThere.flatMap fun x => x.2.connections.map (arrowFor x.1)) := by
  refine ((gather_perm h).flatMap_right _).trans ?_
  rw [List.flatMap_map]
  refine .of_eq (List.flatMap_congr fun x hx => ?_)
  rw [arrowsTo, mem_nodesThere.mp hx]
  rfl

/-- Whatever is read from a diagram is in the picture, and is there as often. -/
theorem statements_perm (h : w.Tree) : (statements w).Perm (picture w) := by
  rw [picture, List.append_assoc, List.append_assoc, ← List.append_assoc (w.nodesThere.map _)]
  exact ((items_perm h).append (arrows_perm h)).append_left _

/-! ## Worlds that can be reached -/

/-- The id is that of a box. -/
def IsBox (w : World) (id : String) : Prop := ∃ x n, w.node? x = some n ∧ x.text = id

theorem isBox_of_arrow (hs : w.Sourced) {nest : List String} {source target : String}
    {settings : Settings} (h : ⟨nest, .arrow source target settings⟩ ∈ picture w) :
    IsBox w source ∧ IsBox w target := by
  rw [picture, List.mem_append, List.mem_append, List.mem_append] at h
  obtain ((h | h) | h) | h := h
  · simp [heading] at h
  · obtain ⟨x, -, hx⟩ := List.mem_map.mp h
    cases hx
  · obtain ⟨x, -, hx⟩ := List.mem_flatMap.mp h
    simp [clusterFor, clusterItems] at hx
  · obtain ⟨⟨x, n⟩, hn, hx⟩ := List.mem_flatMap.mp h
    obtain ⟨⟨y, slot⟩, hy, harrow⟩ := List.mem_map.mp hx
    cases harrow
    have hthere := mem_nodesThere.mp hn
    obtain ⟨⟨spec, i⟩, -, hinput⟩ := List.mem_filterMap.mp hy
    obtain ⟨source, hsource, hpair⟩ := Option.map_eq_some_iff.mp hinput
    cases hpair
    obtain ⟨m, hm⟩ := hs x n i y hthere hsource
    exact ⟨⟨y, m, hm, rfl⟩, x, n, hthere, rfl⟩

/-- The text is a picture of the world. -/
structure Shows (text : String) (w : World) : Prop where
  /-- It can be read, and what it says is what is to be seen. -/
  reading : ∃ ts placed, tokens? text = some ts ∧ Balanced ts ∧ placed? ts = some placed ∧
    placed.Perm (picture w) ∧ ∀ nest source target settings,
      ⟨nest, .arrow source target settings⟩ ∈ placed → IsBox w source ∧ IsBox w target
  /-- Each node has a box of its own, and each scope a cluster. -/
  boxes : (w.nodesThere.map (·.1.text)).Nodup
  clusters : (w.scopesThere.map fun x => clusterName x.1).Nodup
  nodes_there : ∀ x n, (x, n) ∈ w.nodesThere ↔ w.node? x = some n
  scopes_there : ∀ x s, (x, s) ∈ w.scopesThere ↔ x ≠ .root ∧ w.scope? x = some s
  /-- The clusters are in each other as the scopes are. -/
  nest_root : w.nest .root = ["lumen"]
  nest_inner : ∀ x s, w.scope? x = some s → x ≠ .root →
    ∃ p, s.parent = some p ∧ w.Holds p s.name (.scope x) ∧ w.nest x = w.nest p ++ [clusterName x]
  /-- A slot that can be connected has a name. -/
  slots : ∀ x n, w.node? x = some n → n.inputs.length = n.type.inputs.length

theorem Tree.shows (h : w.Tree) (hslots : w.Slotted) (hs : w.Sourced) : Shows (text w) w where
  reading := by
    obtain ⟨ts, htokens, hplaced⟩ := exists_tokens_text h
    have hperm := statements_perm h
    exact ⟨ts, _, htokens, balanced_of_placed? hplaced, hplaced, hperm,
      fun nest source target settings harrow => isBox_of_arrow hs (hperm.mem_iff.mp harrow)⟩
  boxes := by
    have hmap := (nodesThere_nodup w).map nodeText_injective
    rwa [List.map_map] at hmap
  clusters := by
    have hmap := (scopesThere_nodup w).map clusterName_injective
    rwa [List.map_map] at hmap
  nodes_there _ _ := mem_nodesThere
  scopes_there _ _ := mem_scopesThere
  nest_root := nest_root h.aged
  nest_inner x s hx hroot := by
    cases hp : s.parent with
    | none =>
      have hkey : w.scopeKey? x = some (s.name, none) := by rw [scopeKey?, hx, Option.map_some, hp]
      exact absurd (Forest.rooted h x s.name hkey) hroot
    | some p =>
      exact ⟨p, rfl, h.holds_scope_iff.mpr ⟨s, hx, hp, rfl⟩,
        nest_of_parent h.aged (parent?_eq_some.mpr ⟨s, hx, hp⟩)⟩
  slots := hslots

/-- The diagram of every world that is reached without giving anything a second entry. -/
theorem reached_shown {journal : Array Event} {w : World} (h : ReflTransGen Kept (.new journal) w)
    (hs : w.Sourced) : Shows (text w) w := by
  have hkept := Kept.tree_slotted h (new_tree journal) (new_slotted journal)
  exact Tree.shows hkept.1 hkept.2 hs

/-- Makes nodes and scopes whose names have quotes and backslashes. -/
def quotedSteps : List Operation :=
  let group : ScopeType := .plain "t\\"
  let source : NodeType := { name := "so\"urce\\n", produces := some .surface }
  let sink : NodeType := { name := "sink", inputs := [⟨"from \\", true, some .surface⟩] }
  [.change (.makeScope .root "say \"hi\"" group .root []),
    .change (.makeScope ⟨1⟩ "\\" group .root []),
    .change (.makeNode ⟨2⟩ "end\\" source .root []), .change (.makeNode .root "\"" sink .root [])]

/-- The two nodes, connected. -/
def quoted : World :=
  (quotedSteps.foldl Operation.run (.new #[])).modifyNode ⟨1⟩ (·.connect 0 ⟨0⟩)

theorem reached_shown_quoted : ReflTransGen Kept (.new #[]) quoted ∧ quoted.Sourced ∧
    Shows (text quoted) quoted ∧ read? (text quoted) = some (statements quoted) ∧
    ⟨["lumen", "cluster_s1", "cluster_s2"],
      .box "n0" (boxSettings true "end\\" "so\"urce\\n")⟩ ∈ statements quoted := by
  have hplain : ScopeType.Confined (.plain "t\\") := fun _ => .done
  have hmade : ReflTransGen Kept (.new #[]) (quotedSteps.foldl Operation.run (.new #[])) :=
    Kept.foldl_run _ _ (by simp [quotedSteps, Operation.Confined, Change.Confined, hplain])
  have hreached : ReflTransGen Kept (.new #[]) quoted := hmade.tail (.edit (.connect _ ⟨1⟩ 0 ⟨0⟩))
  have hsourced : quoted.Sourced := sourced_of_all (by decide +kernel)
  have htree := (Kept.tree_slotted hreached (new_tree _) (new_slotted _)).1
  obtain ⟨ts, htokens, hplaced⟩ := exists_tokens_text htree
  have hread : read? (text quoted) = some (statements quoted) := by
    rw [read?, htokens, Option.bind_some, hplaced]
  exact ⟨hreached, hsourced, reached_shown hreached hsourced, hread, by decide +kernel⟩

/-- A node that has been given a second entry has two boxes. -/
theorem not_shown_twice :
    ((World.new #[]).makeNode .root "counter" Schedule.counter .root []).1.insertMember .root "again"
      (.node ⟨0⟩) = .ok Schedule.twice ∧
    Schedule.twice.Sourced ∧ Schedule.twice.nodesThere.map Prod.fst = [⟨0⟩] ∧
    (∃ box : Placed, box = ⟨["lumen"], .box "n0" (boxSettings true "counter" "counter")⟩ ∧
      read? (text Schedule.twice) = some (heading ++ [box, box])) ∧
    ¬Shows (text Schedule.twice) Schedule.twice := by
  have hlines : lines Schedule.twice = [.opening, .node 0 ⟨0⟩ true "counter" "counter",
      .node 0 ⟨0⟩ true "counter" "counter", .closing] := by decide +kernel
  have hbox : Says (Line.node 0 ⟨0⟩ true "counter" "counter").render ["lumen"] ["lumen"] _ :=
    says_node (List.cons_ne_nil _ _) 0 ⟨0⟩ true "counter" "counter"
  obtain ⟨ts, htokens, hplaced⟩ :=
    exists_tokens_of_says (hbox.append (hbox.append (says_closing "lumen").line))
  rw [← String.join_cons, ← List.map_cons, ← String.join_cons, ← List.map_cons,
    ← String.join_cons, ← List.map_cons, ← hlines, ← text] at htokens
  refine ⟨rfl, sourced_of_all (by decide +kernel), by decide +kernel, ⟨_, rfl, ?_⟩, fun h => ?_⟩
  · rw [read?, htokens, Option.bind_some, hplaced]
    rfl
  · obtain ⟨ts', placed, htokens', -, hplaced', hperm, -⟩ := h.reading
    cases htokens.symm.trans htokens'
    cases hplaced.symm.trans hplaced'
    have hpicture : (picture Schedule.twice).length = 5 := by decide +kernel
    have hlength := hperm.length_eq
    rw [hpicture] at hlength
    cases hlength

end Diagram

end FrameGraph
