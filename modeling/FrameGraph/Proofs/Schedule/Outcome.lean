import FrameGraph.Proofs.Schedule.Building

/-!
# The outcome of building

Building either gives a schedule of nodes that are all set up, or it gives an error and leaves no
node set up. Which of the two, and which error, depends on the wiring, then on the open inputs, then
on the first fault in update order.
-/
namespace FrameGraph.Schedule

open World

variable {w w' : World} {before after order : List NodeId} {id : NodeId} {e : BuildError}
  {ran : Option Bool}

/-- Nothing was run, and nothing has changed but the log. -/
structure Untouched (w w' : World) : Prop where
  nodes : w'.nodes = w.nodes
  scopes : w'.scopes = w.scopes
  steps : w'.steps = w.steps

theorem Untouched.isUp (h : Untouched w w') (x : NodeId) : w'.isUp x = w.isUp x := by
  rw [World.isUp, World.isUp, node?, node?, h.nodes]

/-- The nodes whose setups were completed in a build that failed at a node. -/
def completed (w : World) (before : List NodeId) (id : NodeId) (ran : Option Bool) : List NodeId :=
  before.filter (isThere w) ++ if ran = some true then [id] else []

theorem completed_sublist (w : World) (before : List NodeId) (id : NodeId) (ran : Option Bool) :
    (completed w before id ran).Sublist (before ++ [id]) := by
  refine List.filter_sublist.append ?_
  split
  · exact .refl _
  · exact List.nil_sublist _

/-- What a build has done that failed at a node: those before it were set up, its own setup came to
what it came to, and what was completed was destroyed again, once and backwards. -/
structure RolledBack (w w' : World) (before : List NodeId) (id : NodeId) (ran : Option Bool)
    (destroyed : List NodeId) : Prop where
  steps : w'.steps = w.steps ++ (before.filter (isThere w)).map (.nodeSetUp · true) ++
    ran.toList.map (.nodeSetUp id) ++ destroyed.map .nodeDestroyed
  once : destroyed.Nodup
  backwards : destroyed.Sublist (before ++ [id]).reverse
  mem : ∀ x, x ∈ destroyed ↔ x ∈ completed w before id ran
  /-- No node is set up twice unless it was gathered twice. -/
  distinct : (before ++ [id]).Nodup → destroyed = (completed w before id ran).reverse

/-- Every node that is there was set up in order. -/
structure SetUp (w w' : World) (order : List NodeId) : Prop where
  steps : w'.steps = w.steps ++ (order.filter (isThere w)).map (.nodeSetUp · true)
  isUp : ∀ x, w'.isUp x = true ↔ x ∈ order ∧ isThere w x = true

theorem build_of_cyclic (h : ∃ a, OnCycle w w.gather a) :
    (∃ paths, (build w).2 = .error (.cycle paths)) ∧ Untouched w (build w).1 := by
  cases hsort : sort w w.gather with
  | ok order =>
    obtain ⟨a, ha⟩ := h
    exact absurd ha (exists_sort_iff.mp ⟨order, hsort⟩ a)
  | error e =>
    have hcycle : ∃ paths, e = .cycle paths := by
      rw [sort] at hsort
      cases hd : Dependency.sort (readsAmong w w.gather) with
      | complete numbers => simp [hd] at hsort
      | cyclic numbers =>
        simp only [hd, Except.error.injEq] at hsort
        exact ⟨_, hsort.symm⟩
    obtain ⟨paths, rfl⟩ := hcycle
    rw [build, hsort]
    exact ⟨⟨paths, rfl⟩, rfl, rfl, steps_record w rfl⟩

theorem build_of_open (hsort : sort w w.gather = .ok order) (h : ∃ id ∈ order, ∃ i, IsOpen w id i) :
    (∃ path slot, NamesFirstOpen w order path slot ∧
      (build w).2 = .error (.incomplete path slot (order.map (openCount w)).sum)) ∧
      Untouched w (build w).1 := by
  cases hmissing : unconnected w order with
  | nil =>
    obtain ⟨id, hid, i, hopen⟩ := h
    exact absurd hopen ((unconnected_eq_nil_iff order).mp hmissing id hid i)
  | cons first rest =>
    obtain ⟨path, slot⟩ := first
    have htotal := length_unconnected (w := w) order
    rw [hmissing] at htotal
    rw [build, hsort]
    simp only [hmissing, htotal]
    refine ⟨⟨path, slot, unconnected_eq_cons hmissing, rfl⟩, recordAll_nodes _ _,
      recordAll_scopes _ _, steps_recordAll w fun e he => ?_⟩
    obtain ⟨⟨node, slot⟩, -, rfl⟩ := List.mem_map.mp he
    rfl

/-- If nothing is open, it depends on the setups. -/
theorem build_of_complete (hsort : sort w w.gather = .ok order)
    (h : ∀ id ∈ order, ∀ i, ¬IsOpen w id i) : build w =
      match setUpAll w [] order with
      | (w', some e) => (w', .error e)
      | (w', none) => (w'.record (.scheduleBuilt order.length), .ok ⟨order⟩) := by
  rw [build, hsort]
  simp only [(unconnected_eq_nil_iff order).mpr h]
  rfl

theorem build_of_faultless (hdown : ∀ x, w.isUp x = false) (hsort : sort w w.gather = .ok order)
    (hopen : ∀ id ∈ order, ∀ i, ¬IsOpen w id i) (h : Faultless w order) :
    (build w).2 = .ok ⟨order⟩ ∧ SetUp w (build w).1 order := by
  rw [build_of_complete hsort hopen, setUpAll_of_faultless h]
  obtain ⟨hsteps, hisUp⟩ := setUpEach_spec h
  refine ⟨rfl, (steps_record _ rfl).trans hsteps, fun x => ?_⟩
  simp only [isUp_record, hisUp, hdown, Bool.false_eq_true, false_or]

theorem build_of_fault (hdown : ∀ x, w.isUp x = false)
    (hsort : sort w w.gather = .ok (before ++ id :: after))
    (hopen : ∀ a ∈ before ++ id :: after, ∀ i, ¬IsOpen w a i) (h : Faultless w before)
    (hfault : Fault (setUpEach w before) id e ran) :
    (build w).2 = .error e ∧ (∃ destroyed, RolledBack w (build w).1 before id ran destroyed) ∧
      ∀ x, (build w).1.isUp x = false := by
  obtain ⟨path, hall⟩ := setUpAll_of_fault h hfault [] after
  rw [build_of_complete hsort hopen, hall]
  simp only [List.reverse_nil, List.nil_append]
  obtain ⟨hsteps, hisUp⟩ := setUpEach_spec h
  obtain ⟨-, hran⟩ := hfault.setUpNode
  obtain ⟨destroyed, hdestroyed⟩ := takeDown_takesDown
    ((setUpNode (setUpEach w before) id).1.record (.buildFailed path e.message)) (before ++ [id])
  have hup (x : NodeId) : ((setUpNode (setUpEach w before) id).1.record
      (.buildFailed path e.message)).isUp x = true ↔ x ∈ completed w before id ran := by
    rw [isUp_record, hran.isUp, hisUp, hdown, completed, List.mem_append, List.mem_filter]
    split
    · rename_i hran
      simp [hran]
    · rename_i hran
      simp [hran]
  have hmem (x : NodeId) : x ∈ destroyed ↔ x ∈ completed w before id ran := by
    rw [hdestroyed.mem, hup, List.mem_reverse]
    exact and_iff_right_of_imp fun hx => (completed_sublist w before id ran).subset hx
  refine ⟨trivial, ⟨destroyed, ?_, hdestroyed.nodup, hdestroyed.sublist, hmem, fun hnodup => ?_⟩,
    fun x => ?_⟩
  · rw [hdestroyed.steps, steps_record _ rfl, hran.steps, hsteps]
  · have hbackwards := (completed_sublist w before id ran).reverse
    have hwhole : (before ++ [id]).reverse.Nodup := List.nodup_reverse.mpr hnodup
    refine eq_of_sublist hwhole hdestroyed.sublist hbackwards fun x => ?_
    rw [hmem, List.mem_reverse]
  · rw [← Bool.not_eq_true, hdestroyed.isUp, hup, List.mem_reverse]
    exact fun ⟨hx, hnot⟩ => hnot ((completed_sublist w before id ran).subset hx)

/-- The outcome of building a world in which no node is set up. A cycle comes first, and then an open
input; neither runs anything. Otherwise the setups run in update order up to the first fault, and
what they completed is destroyed again. An error leaves no node set up, and no outcome touches the
tree or the wiring. -/
theorem build_outcome (w : World) (hdown : ∀ x n, w.node? x = some n → n.isSetUp = false) :
    ((∃ a, OnCycle w w.gather a) →
      (∃ paths, (build w).2 = .error (.cycle paths)) ∧ Untouched w (build w).1) ∧
    ((∀ a, ¬OnCycle w w.gather a) → ∃ order, sort w w.gather = .ok order ∧
      ((∃ id ∈ order, ∃ i, IsOpen w id i) →
        (∃ path slot, NamesFirstOpen w order path slot ∧
          (build w).2 = .error (.incomplete path slot (order.map (openCount w)).sum)) ∧
        Untouched w (build w).1) ∧
      ((∀ id ∈ order, ∀ i, ¬IsOpen w id i) →
        (Faultless w order → (build w).2 = .ok ⟨order⟩ ∧ SetUp w (build w).1 order) ∧
        ∀ before id after e ran, order = before ++ id :: after → Faultless w before →
          Fault (setUpEach w before) id e ran →
          (build w).2 = .error e ∧ ∃ destroyed, RolledBack w (build w).1 before id ran destroyed) ∧
      ((∃ s, (build w).2 = .ok s) ↔
        (∀ id ∈ order, ∀ i, ¬IsOpen w id i) ∧ Faultless w order)) ∧
    ((∃ e, (build w).2 = .error e) → ∀ x, (build w).1.isUp x = false) ∧
    SameWiring w (build w).1 := by
  have hdown : ∀ x, w.isUp x = false := by
    intro x
    rw [← Bool.not_eq_true, isUp_eq_true_iff]
    rintro ⟨n, hn, hup⟩
    rw [hdown x n hn] at hup
    cases hup
  refine ⟨build_of_cyclic, fun hacyclic => ?_, ?_, build_wiring w⟩
  · obtain ⟨order, hsort⟩ := exists_sort_iff.mpr hacyclic
    refine ⟨order, hsort, build_of_open hsort, fun hopen => ⟨build_of_faultless hdown hsort hopen, ?_⟩,
      ?_⟩
    · rintro before id after e ran rfl hbefore hfault
      obtain ⟨herror, hback, -⟩ := build_of_fault hdown hsort hopen hbefore hfault
      exact ⟨herror, hback⟩
    · constructor
      · rintro ⟨s, hs⟩
        have hopen : ∀ id ∈ order, ∀ i, ¬IsOpen w id i := by
          rintro id hid i hopen
          obtain ⟨⟨path, slot, -, herror⟩, -⟩ := build_of_open hsort ⟨id, hid, i, hopen⟩
          rw [herror] at hs
          cases hs
        refine ⟨hopen, ?_⟩
        obtain hfaultless | ⟨before, id, after, e, ran, rfl, hbefore, hfault⟩ :=
          faultless_or_first w order
        · exact hfaultless
        · rw [(build_of_fault hdown hsort hopen hbefore hfault).1] at hs
          cases hs
      · exact fun ⟨hopen, hfaultless⟩ => ⟨_, (build_of_faultless hdown hsort hopen hfaultless).1⟩
  · rintro ⟨e, he⟩ x
    by_cases hcyclic : ∃ a, OnCycle w w.gather a
    · rw [(build_of_cyclic hcyclic).2.isUp, hdown]
    · obtain ⟨order, hsort⟩ := exists_sort_iff.mpr (not_exists.mp hcyclic)
      by_cases hopen : ∃ id ∈ order, ∃ i, IsOpen w id i
      · rw [(build_of_open hsort hopen).2.isUp, hdown]
      · have hopen : ∀ id ∈ order, ∀ i, ¬IsOpen w id i :=
          fun id hid i h => hopen ⟨id, hid, i, h⟩
        obtain hfaultless | ⟨before, id, after, e', ran, rfl, hbefore, hfault⟩ :=
          faultless_or_first w order
        · rw [(build_of_faultless hdown hsort hopen hfaultless).1] at he
          cases he
        · exact (build_of_fault hdown hsort hopen hbefore hfault).2.2 x

/-- Two nodes, of which one says that it has output and declares none. -/
def undeclaring : World :=
  let quiet : NodeType := { name := "quiet" }
  let silent : NodeType := { name := "silent", produces := some .matrix }
  let (w, _) := (World.new #[]).makeNode .root "first" quiet .root []
  (w.makeNode .root "second" silent .root []).1

theorem build_outcome_undeclaring :
    (∀ x n, undeclaring.node? x = some n → n.isSetUp = false) ∧
      (∀ x, (build undeclaring).1.isUp x = false) ∧
      SameWiring undeclaring (build undeclaring).1 ∧
      (build undeclaring).1.steps =
        [.nodeSetUp ⟨0⟩ true, .nodeSetUp ⟨1⟩ true, .nodeDestroyed ⟨1⟩, .nodeDestroyed ⟨0⟩] := by
  have hdown : ∀ x n, undeclaring.node? x = some n → n.isSetUp = false := by
    have hall : undeclaring.nodes.toList.all (fun o => o.all fun n => !n.isSetUp) = true := by
      decide +kernel
    intro x n hn
    have hplace : undeclaring.nodes[x.index]? = some (some n) := Option.join_eq_some_iff.mp hn
    have hmem := List.mem_of_getElem? (Array.getElem?_toList.symm ▸ hplace)
    simpa using List.all_eq_true.mp hall _ hmem
  have hfails : (build undeclaring).2.isOk = false := by decide +kernel
  obtain ⟨-, -, herror, hwiring⟩ := build_outcome undeclaring hdown
  refine ⟨hdown, herror ?_, hwiring, by decide +kernel⟩
  cases hresult : (build undeclaring).2 with
  | ok s =>
    rw [hresult] at hfails
    cases hfails
  | error e => exact ⟨e, rfl⟩

end FrameGraph.Schedule
