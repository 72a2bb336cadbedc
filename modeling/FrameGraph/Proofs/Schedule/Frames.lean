import FrameGraph.Proofs.Schedule.Cycles
import FrameGraph.Proofs.Schedule.Wiring
import Mathlib.Logic.Function.Iterate

/-!
# What a frame computes

A frame updates the nodes in place, one after the other. In an order in which sources come before
their readers the outcome is the one solution of a system of equations, one for each node, and the
equations do not mention the order. So another such order gives the same, and what a node computes
depends only on what it reads from, directly or through others.
-/
namespace FrameGraph.Schedule

open World
open Relation (ReflTransGen)

variable {w w' : World} {id : NodeId} {n : Node} {order order' rest : List NodeId}
  {states states' : NodeId → Option NodeState}

/-- The state of a node. -/
def stateOf (w : World) (id : NodeId) : Option NodeState := (w.node? id).bind Node.state

/-- What a node shows when the nodes have these states. -/
def shown (w : World) (states : NodeId → Option NodeState) (id : NodeId) : Option Output :=
  (w.node? id).bind fun n => (states id).bind n.type.output

/-- What a node sees in a frame: itself as it was, and its sources in the states of the frame. -/
def frameView (w : World) (states : NodeId → Option NodeState) (n : Node) : NodeView :=
  { n.self with
    inputs := n.wiring.map fun (spec, source) => (spec.name, source.bind (shown w states))
    window? := w.window? }

/-- The equations of a frame: the nodes in the order have the states that their updates compute,
and the others have their old ones. -/
def SolvesFrame (w : World) (order : List NodeId) (states : NodeId → Option NodeState) : Prop :=
  ∀ id, states id = (w.node? id).bind fun n =>
    if id ∈ order then (n.type.update (frameView w states n)).state else n.state

/-- The nodes are distinct, and what a node reads from comes before it if it comes at all. -/
structure SourcesFirst (w : World) (order : List NodeId) : Prop where
  nodup : order.Nodup
  first : ∀ earlier id later, order = earlier ++ id :: later → ∀ n source, w.node? id = some n →
    some source ∈ n.inputs → source ∈ order → source ∈ earlier

/-! ## One node -/

theorem node?_updateNode (w : World) (id x : NodeId) : (updateNode w id).node? x =
    if x = id then (w.node? id).map fun n => { n with state := (n.type.update (view w id n)).state }
    else w.node? x := by
  rw [updateNode]
  cases hn : w.node? id with
  | none =>
    by_cases hx : x = id
    · rw [if_pos hx, hx]
      exact hn
    · rw [if_neg hx]
  | some n =>
    have hn' := (w.node?_recordNotes (n.type.update (view w id n)).notes id).trans hn
    dsimp only
    rw [node?_record, node?_setNode, node?_recordNotes]
    simp only [lt_size_of_node? hn', and_true]
    rfl

theorem updateNode_scopes (w : World) (id : NodeId) : (updateNode w id).scopes = w.scopes :=
  (updateNode_wiring w id).scopes

theorem window?_of_scopes (h : w'.scopes = w.scopes) : w'.window? = w.window? := by
  funext x
  rw [window?, window?, scope?, scope?, h]

/-- Updating changes nothing of a node but its state. -/
theorem node?_foldl_updateNode (w : World) (order : List NodeId) (x : NodeId) :
    (order.foldl updateNode w).node? x =
      (w.node? x).map fun n => { n with state := stateOf (order.foldl updateNode w) x } := by
  have hfields : ((order.foldl updateNode w).node? x).map ({ · with state := none }) =
      (w.node? x).map ({ · with state := none }) := by
    induction order generalizing w with
    | nil => rfl
    | cons id order ih =>
      rw [List.foldl_cons, ih, node?_updateNode]
      split
      · rename_i hx
        rw [hx, Option.map_map]
        rfl
      · rfl
  rw [stateOf]
  cases hafter : (order.foldl updateNode w).node? x with
  | none =>
    rw [hafter, Option.map_none, eq_comm, Option.map_eq_none_iff] at hfields
    rw [hfields]
    rfl
  | some n =>
    rw [hafter, Option.map_some, eq_comm, Option.map_eq_some_iff] at hfields
    obtain ⟨⟨⟩, hm, hfields⟩ := hfields
    obtain ⟨⟩ := n
    rw [hm]
    simp only [Node.mk.injEq] at hfields
    simp [hfields]

/-! ## The equations -/

theorem stateOf_updateNode_self (hn : w.node? id = some n) :
    stateOf (updateNode w id) id = (n.type.update (view w id n)).state := by
  rw [stateOf, node?_updateNode, if_pos rfl, hn]
  rfl

theorem node?_updateNode_of_ne {x : NodeId} (hx : x ≠ id) :
    (updateNode w id).node? x = w.node? x := by
  rw [node?_updateNode, if_neg hx]

/-- With the sources in their old states the equations give what the node sees in the world. -/
theorem frameView_eq_view (id : NodeId)
    (h : ∀ source, some source ∈ n.inputs → source ≠ id ∧ states source = stateOf w source) :
    frameView w states n = view w id n := by
  have hslots : n.wiring.map (fun (spec, source) => (spec.name, source.bind (shown w states))) =
      n.wiring.map fun (spec, source) =>
        (spec.name, source.bind fun s => if s = id then none else (w.node? s).bind Node.output?) := by
    refine List.map_congr_left fun ⟨spec, source⟩ hslot => ?_
    cases source with
    | none => rfl
    | some source =>
      obtain ⟨hne, hstate⟩ := h source (List.of_mem_zip hslot).2
      simp only [Option.bind_some, if_neg hne, shown, hstate, stateOf]
      cases w.node? source <;> rfl
  rw [frameView, view, hslots]

theorem frameView_congr (hwindow : w'.window? = w.window?)
    (h : ∀ source, some source ∈ n.inputs →
      (w'.node? source).map Node.type = (w.node? source).map Node.type ∧
        states' source = states source) : frameView w' states' n = frameView w states n := by
  have hslots : n.wiring.map (fun (spec, source) => (spec.name, source.bind (shown w' states'))) =
      n.wiring.map fun (spec, source) => (spec.name, source.bind (shown w states)) := by
    refine List.map_congr_left fun ⟨spec, source⟩ hslot => ?_
    cases source with
    | none => rfl
    | some source =>
      have hshown (v : World) (states : NodeId → Option NodeState) : shown v states source =
          ((v.node? source).map Node.type).bind fun type => (states source).bind type.output := by
        rw [shown]
        cases v.node? source <;> rfl
      obtain ⟨htype, hstate⟩ := h source (List.of_mem_zip hslot).2
      simp only [Option.bind_some, hshown, htype, hstate]
  rw [frameView, frameView, hslots, hwindow]

theorem SourcesFirst.cons (h : SourcesFirst w (id :: rest)) :
    (∀ n source, w.node? id = some n → some source ∈ n.inputs → source ∉ id :: rest) ∧
      id ∉ rest ∧ SourcesFirst w rest := by
  obtain ⟨hnot, hnodup⟩ := List.nodup_cons.mp h.nodup
  refine ⟨fun n source hn hsource hmem => ?_, hnot, hnodup, ?_⟩
  · exact List.not_mem_nil (h.first [] id rest rfl n source hn hsource hmem)
  · rintro earlier x later rfl n source hn hsource hmem
    obtain rfl | hearlier := List.mem_cons.mp (h.first (id :: earlier) x later rfl n source hn
      hsource (List.mem_cons_of_mem _ hmem))
    · exact absurd hmem hnot
    · exact hearlier

theorem SourcesFirst.rewire (h : SourcesFirst w order)
    (hinputs : ∀ id ∈ order, ∀ n, w'.node? id = some n →
      ∃ m, w.node? id = some m ∧ m.inputs = n.inputs) : SourcesFirst w' order := by
  refine ⟨h.nodup, ?_⟩
  rintro earlier id later rfl n source hn hsource hmem
  obtain ⟨m, hm, hsame⟩ := hinputs id (by simp) n hn
  exact h.first earlier id later rfl m source hm (by rwa [hsame]) hmem

theorem SourcesFirst.sameWiring (h : SourcesFirst w order) (hw : SameWiring w w') :
    SourcesFirst w' order := by
  refine h.rewire fun id _ n hn => ?_
  obtain ⟨m, hm, hbare⟩ := hw.node_of_node hn
  have hinputs : m.bare.inputs = n.bare.inputs := by rw [hbare]
  exact ⟨m, hm, hinputs⟩

theorem SolvesFrame.of_not_mem (h : SolvesFrame w order states) {x : NodeId} (hx : x ∉ order) :
    states x = stateOf w x := by
  rw [h x, stateOf]
  simp only [if_neg hx]

theorem SolvesFrame.of_mem (h : SolvesFrame w order states) {x : NodeId} (hx : x ∈ order)
    (hn : w.node? x = some n) : states x = (n.type.update (frameView w states n)).state := by
  rw [h x, hn]
  exact if_pos hx

/-- Once a node has been updated, it is left to the others to solve their equations. -/
theorem solvesFrame_cons (h : SourcesFirst w (id :: rest)) :
    SolvesFrame w (id :: rest) states ↔ SolvesFrame (updateNode w id) rest states := by
  obtain ⟨hsources, hnot, -⟩ := h.cons
  have hwindow := window?_of_scopes (updateNode_scopes w id)
  have htypes (x : NodeId) : ((updateNode w id).node? x).map Node.type = (w.node? x).map Node.type := by
    have hbare := congrArg (Option.map Node.type) ((updateNode_wiring w id).node x)
    rwa [Option.map_map, Option.map_map] at hbare
  have hself {n : Node} (hn : w.node? id = some n)
      (hstates : ∀ source, source ∉ id :: rest → states source = stateOf w source) :
      (n.type.update (frameView w states n)).state = stateOf (updateNode w id) id := by
    rw [stateOf_updateNode_self hn, frameView_eq_view id]
    intro source hsource
    have hlate := hsources n source hn hsource
    exact ⟨fun heq => hlate (heq ▸ List.mem_cons_self), hstates source hlate⟩
  have hothers {x : NodeId} (hx : x ≠ id) : ((updateNode w id).node? x).bind (fun n =>
      if x ∈ rest then (n.type.update (frameView (updateNode w id) states n)).state else n.state) =
      (w.node? x).bind fun n =>
        if x ∈ id :: rest then (n.type.update (frameView w states n)).state else n.state := by
    have hmem : x ∈ id :: rest ↔ x ∈ rest := by simp [hx]
    have hview (n : Node) : frameView (updateNode w id) states n = frameView w states n :=
      frameView_congr hwindow fun source _ => ⟨htypes source, rfl⟩
    simp only [node?_updateNode_of_ne hx, hmem, hview]
  constructor
  · intro hs x
    by_cases hx : x = id
    · subst hx
      simp only [if_neg hnot]
      cases hn : w.node? x with
      | none =>
        rw [hs x, hn, node?_updateNode, if_pos rfl, hn]
        rfl
      | some n =>
        rw [hs.of_mem List.mem_cons_self hn, hself hn fun source hlate => hs.of_not_mem hlate, stateOf]
    · rw [hothers hx]
      exact hs x
  · intro hs x
    by_cases hx : x = id
    · subst hx
      have hstate := hs.of_not_mem hnot
      cases hn : w.node? x with
      | none =>
        rw [hstate, stateOf, node?_updateNode, if_pos rfl, hn]
        rfl
      | some n =>
        rw [hstate, Option.bind_some, if_pos List.mem_cons_self]
        refine (hself hn fun source hlate => ?_).symm
        have hne : source ≠ x := by
          rintro rfl
          exact hlate List.mem_cons_self
        rw [hs.of_not_mem fun hmem => hlate (List.mem_cons_of_mem _ hmem), stateOf, stateOf,
          node?_updateNode_of_ne hne]
    · rw [← hothers hx]
      exact hs x

/-- The states after a frame are the one solution of its equations. -/
theorem solvesFrame_iff (h : SourcesFirst w order) : SolvesFrame w order states ↔
    ∀ id, states id = stateOf (order.foldl updateNode w) id := by
  induction order generalizing w with
  | nil =>
    simp only [SolvesFrame, List.not_mem_nil, if_false, List.foldl_nil, stateOf]
  | cons id rest ih =>
    rw [solvesFrame_cons h]
    exact ih (h.cons.2.2.sameWiring (updateNode_wiring w id))

/-! ## What a node depends on -/

/-- The second node is the first or is read by it, directly or through others. -/
def Upstream (w : World) : NodeId → NodeId → Prop :=
  ReflTransGen fun reader source => ∃ n, w.node? reader = some n ∧ some source ∈ n.inputs

/-- Two orders in two worlds that agree on some nodes and all that these read from. -/
structure AgreeOn (among : NodeId → Prop) (w w' : World) (order order' : List NodeId) : Prop where
  closed : ∀ id n source, among id → w.node? id = some n → some source ∈ n.inputs → among source
  node : ∀ id, among id → w'.node? id = w.node? id
  mem : ∀ id, among id → (id ∈ order' ↔ id ∈ order)
  window : w'.window? = w.window?
  sourcesFirst : SourcesFirst w order
  sourcesFirst' : SourcesFirst w' order'

variable {among : NodeId → Prop}

/-- The equations of the nodes that two worlds agree on have the same solution in both. -/
theorem AgreeOn.states_eq (h : AgreeOn among w w' order order') (hs : SolvesFrame w order states)
    (hs' : SolvesFrame w' order' states') {id : NodeId} (hid : among id) : states' id = states id := by
  have hout {x : NodeId} (hx : among x) (hnot : x ∉ order) : states' x = states x := by
    rw [hs.of_not_mem hnot, hs'.of_not_mem (fun hmem => hnot ((h.mem x hx).mp hmem)), stateOf,
      stateOf, h.node x hx]
  -- Along the order, each node reads from earlier ones and from some that have no equation.
  have hin (earlier : List NodeId) : ∀ later, order = earlier ++ later →
      ∀ x ∈ earlier, among x → states' x = states x := by
    induction earlier using List.reverseRecOn with
    | nil => exact fun _ _ x hx => nomatch hx
    | append_singleton earlier y ih =>
      intro later hsplit x hx hamong
      rw [List.append_assoc, List.singleton_append] at hsplit
      obtain hx | hx := List.mem_append.mp hx
      · exact ih (y :: later) hsplit x hx hamong
      · rw [List.mem_singleton.mp hx] at hamong ⊢
        have hy : y ∈ order := by simp [hsplit]
        cases hn : w.node? y with
        | none => rw [hs y, hs' y, h.node y hamong, hn]; rfl
        | some n =>
          have hn' : w'.node? y = some n := by rw [h.node y hamong, hn]
          rw [hs.of_mem hy hn, hs'.of_mem ((h.mem y hamong).mpr hy) hn']
          congr 2
          refine frameView_congr h.window fun source hsource => ?_
          have hamong' := h.closed y n source hamong hn hsource
          refine ⟨by rw [h.node source hamong'], ?_⟩
          by_cases hmem : source ∈ order
          · have hearlier := h.sourcesFirst.first earlier y later hsplit n source hn hsource hmem
            exact ih (y :: later) hsplit source hearlier hamong'
          · exact hout hamong' hmem
  by_cases hmem : id ∈ order
  · exact hin order [] (List.append_nil order).symm id hmem hid
  · exact hout hid hmem

/-- What two worlds agree on, they still agree on after a frame. -/
theorem AgreeOn.update (h : AgreeOn among w w' order order') :
    AgreeOn among (order.foldl updateNode w) (order'.foldl updateNode w') order order' := by
  have hwiring (w : World) (order : List NodeId) : SameWiring w (order.foldl updateNode w) :=
    update_wiring w ⟨order⟩
  refine ⟨fun id n source hid hn hsource => ?_, fun id hid => ?_, h.mem, ?_,
    h.sourcesFirst.sameWiring (hwiring w order), h.sourcesFirst'.sameWiring (hwiring w' order')⟩
  · obtain ⟨m, hm, hbare⟩ := (hwiring w order).node_of_node hn
    have hinputs : m.bare.inputs = n.bare.inputs := by rw [hbare]
    refine h.closed id m source hid hm ?_
    show some source ∈ m.bare.inputs
    rwa [hinputs]
  · have hstates := h.states_eq ((solvesFrame_iff h.sourcesFirst).mpr fun _ => rfl)
      ((solvesFrame_iff h.sourcesFirst').mpr fun _ => rfl) hid
    rw [node?_foldl_updateNode w', node?_foldl_updateNode w, hstates, h.node id hid]
  · rw [window?_of_scopes (hwiring w' order').scopes, window?_of_scopes (hwiring w order).scopes,
      h.window]

theorem AgreeOn.frames {g g' : Schedule} (h : AgreeOn among w w' g.order g'.order) (k : Nat) :
    AgreeOn among (g.update^[k] w) (g'.update^[k] w') g.order g'.order := by
  induction k generalizing w w' with
  | zero => exact h
  | succ k ih => exact ih h.update

/-! ## Schedules that were built -/

theorem sort_of_build {g : Schedule} (h : (build w).2 = .ok g) : sort w w.gather = .ok g.order := by
  rw [build] at h
  cases hsort : sort w w.gather with
  | error e =>
    rw [hsort] at h
    cases e <;> cases h
  | ok order =>
    rw [hsort] at h
    dsimp only at h
    split at h
    · cases h
    · revert h
      generalize setUpAll _ _ order = result
      obtain ⟨w', failure⟩ := result
      intro h
      cases failure with
      | some e => cases h
      | none =>
        cases h
        rfl

theorem sourcesFirst_of_build {g : Schedule} (hgather : w.gather.Nodup)
    (h : (build w).2 = .ok g) : g.order.Perm w.gather ∧ SourcesFirst w g.order := by
  have hsort := sort_of_build h
  have hperm : g.order.Perm w.gather := perm_of_sort hgather hsort
  refine ⟨hperm, hperm.nodup_iff.mpr hgather, ?_⟩
  intro earlier id later hsplit n source hn hsource hmem
  rw [hsplit] at hsort
  have hid : id ∈ w.gather := hperm.mem_iff.mp (by simp [hsplit])
  exact ordered_of_sort hgather hsort ⟨hid, hperm.mem_iff.mp hmem, n, hn, hsource⟩

end FrameGraph.Schedule
