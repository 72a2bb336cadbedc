import FrameGraph.Proofs.Schedule.Frames

/-!
# The meaning of a frame

A built schedule computes the solution of its equations as long as its order puts sources before
readers. Building sees to that, and it stays so as long as the nodes keep the connections they were
built with. A node that was gathered twice is updated twice in a frame, and a node that is connected
after the build may be updated before its new source.
-/
namespace FrameGraph.Schedule

open World

/-- The dataflow of a schedule that was built from distinct nodes. While its nodes read from what
they were built with, its order puts sources before readers. In every world where the order does
so, a frame gives the solution of the equations; any number of frames give the same in every other
such order of the same nodes; and what becomes of a node is the same in every other world and
schedule that agree on the node and on all that is upstream of it. -/
theorem frame_solution {w₀ w₁ : World} {g : Schedule} (hbuild : build w₀ = (w₁, .ok g))
    (hgather : w₀.gather.Nodup) :
    (∀ w, (∀ id ∈ g.order, ∀ n, w.node? id = some n →
        ∃ m, w₁.node? id = some m ∧ m.inputs = n.inputs) → SourcesFirst w g.order) ∧
    ∀ w, SourcesFirst w g.order →
      (∀ states, SolvesFrame w g.order states ↔ ∀ id, states id = stateOf (g.update w) id) ∧
      (∀ g' : Schedule, g'.order.Perm g.order → SourcesFirst w g'.order → ∀ k id,
        (g'.update^[k] w).node? id = (g.update^[k] w).node? id) ∧
      ∀ (w' : World) (g' : Schedule) (id : NodeId), SourcesFirst w' g'.order →
        w'.window? = w.window? →
        (∀ a, Upstream w id a → w'.node? a = w.node? a ∧ (a ∈ g'.order ↔ a ∈ g.order)) → ∀ k,
        (g'.update^[k] w').node? id = (g.update^[k] w).node? id := by
  have hsame {w w' : World} {g g' : Schedule} (among : NodeId → Prop)
      (h : AgreeOn among w w' g.order g'.order) (k : Nat) {id : NodeId} (hid : among id) :
      (g'.update^[k] w').node? id = (g.update^[k] w).node? id := (h.frames k).node id hid
  have hok : (build w₀).2 = .ok g := by rw [hbuild]
  have hworld : (build w₀).1 = w₁ := by rw [hbuild]
  refine ⟨fun w hwired => ?_, fun w hfirst => ⟨fun states => solvesFrame_iff hfirst, ?_, ?_⟩⟩
  · have hbuilt := (sourcesFirst_of_build hgather hok).2.sameWiring (build_wiring w₀)
    rw [hworld] at hbuilt
    exact hbuilt.rewire hwired
  · intro g' hperm hfirst' k id
    exact hsame (fun _ => True)
      ⟨fun _ _ _ _ _ _ => trivial, fun _ _ => rfl, fun _ _ => hperm.mem_iff, rfl, hfirst, hfirst'⟩
      k trivial
  · intro w' g' id hfirst' hwindow hagree k
    exact hsame (Upstream w id)
      ⟨fun a n source ha hn hsource => ha.tail ⟨n, hn, hsource⟩, fun a ha => (hagree a ha).1,
        fun a ha => (hagree a ha).2, hwindow, hfirst, hfirst'⟩ k .refl

/-! ## Two nodes -/

/-- Counts frames in its only pixel. -/
def counter : NodeType where
  name := "counter"
  produces := some .surface
  output := fun state => state.surface?.map .surface
  setup := fun v =>
    { v.ready with state := some (.surface (.blank 1 1)), shape := some ⟨.surface, 1, 1⟩ }
  update := fun v =>
    ⟨(v.state.bind NodeState.surface?).map fun s => .surface (s.map (· + 1)), []⟩

/-- Shows what it reads. -/
def copier : NodeType where
  name := "copier"
  inputs := [⟨"from", false, some .surface⟩]
  update := fun v =>
    match v.output? 0 with
    | some (.surface s) => ⟨some (.surface s), []⟩
    | _ => v.unchanged

/-- A copier and a counter that are not connected. The copier is gathered first. -/
def apart : World :=
  let (w, _) := (World.new #[]).makeNode .root "copier" copier .root []
  (w.makeNode .root "counter" counter .root []).1

/-- The same two nodes, where the copier reads from the counter. -/
def joined : World := apart.modifyNode ⟨0⟩ (·.connect 0 ⟨1⟩)

theorem frame_solution_joined :
    (build joined).2 = .ok ⟨[⟨1⟩, ⟨0⟩]⟩ ∧ joined.gather.Nodup ∧
      ∀ states, SolvesFrame (build joined).1 [⟨1⟩, ⟨0⟩] states ↔
        ∀ id, states id = stateOf (Schedule.update ⟨[⟨1⟩, ⟨0⟩]⟩ (build joined).1) id := by
  have hok : (build joined).2 = .ok ⟨[⟨1⟩, ⟨0⟩]⟩ := by decide +kernel
  have hgather : joined.gather.Nodup := by decide +kernel
  have hbuild : build joined = ((build joined).1, .ok ⟨[⟨1⟩, ⟨0⟩]⟩) := Prod.ext rfl hok
  obtain ⟨hfirst, hframe⟩ := frame_solution hbuild hgather
  exact ⟨hok, hgather, (hframe _ (hfirst _ fun id _ n hn => ⟨n, hn, rfl⟩)).1⟩

/-- The pixel of a node that shows one. -/
def pixel (state : Option NodeState) : Option UInt32 :=
  (state.bind NodeState.surface?).bind fun s => s.get? 0 0

/-- The counter under two names. -/
def twice : World :=
  let (w, _) := (World.new #[]).makeNode .root "counter" counter .root []
  (w.insertMember .root "again" (.node ⟨0⟩)).toOption.getD w

/-- A frame solves the equations neither for nodes that have been connected since the build nor for
a node that was gathered twice. -/
theorem frame_not_solution :
    ((build apart).2 = .ok ⟨[⟨0⟩, ⟨1⟩]⟩ ∧
      let w := (build apart).1.modifyNode ⟨0⟩ (·.connect 0 ⟨1⟩)
      (∀ id ∈ [⟨0⟩, ⟨1⟩], (w.node? id).isSome) ∧
        ¬SolvesFrame w [⟨0⟩, ⟨1⟩] (stateOf (Schedule.update ⟨[⟨0⟩, ⟨1⟩]⟩ w))) ∧
    (build twice).2 = .ok ⟨[⟨0⟩, ⟨0⟩]⟩ ∧
      let w := (build twice).1
      (∀ id ∈ [⟨0⟩, ⟨0⟩], (w.node? id).isSome) ∧
        ¬SolvesFrame w [⟨0⟩, ⟨0⟩] (stateOf (Schedule.update ⟨[⟨0⟩, ⟨0⟩]⟩ w)) := by
  refine ⟨⟨by decide +kernel, by decide +kernel, fun h => ?_⟩, by decide +kernel,
    by decide +kernel, fun h => ?_⟩
  · have hpixel := congrArg pixel (h ⟨0⟩)
    revert hpixel
    decide +kernel
  · have hpixel := congrArg pixel (h ⟨0⟩)
    revert hpixel
    decide +kernel

end FrameGraph.Schedule
