import FrameGraph.Proofs.Assembly.Connections
import FrameGraph.Proofs.Schedule.Outcome
import FrameGraph.Proofs.World.Gather

/-!
# Compatibility

Connecting compares an input with the kind that the type of its source produces; building compares
it with the shape that the source has declared. As long as nothing has been taken down the first
check makes the second one superfluous: sources are set up before their readers, a node that is set
up without a fault has declared what its type produces, and a source is gathered if its reader is.
-/
namespace FrameGraph

namespace World

variable {w : World}

/-- What lies under the root and under another scope lies under the root through that scope. -/
theorem Orderly.under_root (h : w.Orderly) {scope : ScopeId} {m : Member} (hm : m.isOwned = true)
    (hroot : Under w (.scope .root) m) (hscope : Under w (.scope scope) m) :
    Under w (.scope .root) (.scope scope) := by
  obtain hbelow | habove := hroot.linear h.once hm hscope
  · exact hbelow
  · cases habove with
    | top => exact .top
    | entry _ hheld => exact absurd (h.older _ _ _ hheld) (Nat.not_lt_zero _)

/-- What a gathered node reads from is gathered too. -/
theorem Joins.mem_gather {reader source : NodeId} {type : NodeType} {i : Nat} (h : w.Orderly)
    (hj : w.Joins reader type i source) (hr : reader ∈ w.gather) : source ∈ w.gather := by
  obtain ⟨scope, name, hunder, hheld⟩ := hj.beside
  exact h.ranked.mem_gather.mpr
    (.entry (h.under_root rfl (h.ranked.mem_gather.mp hr) hunder) hheld)

end World

namespace Schedule

open World

variable {w w' : World} {id x : NodeId} {n : Node} {ids : List NodeId} {e : BuildError}

/-! ## What is declared -/

/-- A node that produces something has declared the shape of it. -/
def KeepsWord (w : World) (x : NodeId) : Prop :=
  ∀ n kind, w.node? x = some n → n.type.produces = some kind →
    ∃ shape, declared? w x = some shape ∧ shape.kind = kind

theorem declarationFault?_eq_none {type : NodeType} {shape : Option OutputShape} {kind : OutputKind}
    (hkind : type.produces = some kind) (h : declarationFault? type shape = none) :
    ∃ s, shape = some s ∧ s.kind = kind := by
  cases shape with
  | none => simp [declarationFault?, hkind] at h
  | some s =>
    refine ⟨s, rfl, ?_⟩
    by_contra hne
    simp [declarationFault?, hkind, hne] at h

/-- The setup of a node changes that node alone, and it leaves the shape there that it declares. -/
theorem node?_startNode (hn : w.node? id = some n) :
    ∃ n', n'.type = n.type ∧ n'.shape = (n.type.setup (view w id n)).shape ∧
      ∀ y, (startNode w id n).1.node? y = if y = id then some n' else w.node? y := by
  have hset (n' : Node) (e : Event) (y : NodeId) :
      (((w.recordNotes (n.type.setup (view w id n)).notes).setNode id (some n')).record e).node? y =
        if y = id then some n' else w.node? y := by
    have hlt := lt_size_of_node? hn
    simp only [node?_record, node?_setNode, recordNotes_nodes, hlt, and_true, node?_recordNotes]
  rw [startNode]
  dsimp only
  split
  · refine ⟨_, ?_, ?_, hset _ _⟩
    · rfl
    · rfl
  · refine ⟨_, ?_, ?_, hset _ _⟩
    · rfl
    · rfl

/-- A node that has been set up without a fault keeps its word, and the others go on keeping it. -/
theorem KeepsWord.setUpNode (hfine : (setUpNode w id).2 = none) (h : x = id ∨ KeepsWord w x) :
    KeepsWord (setUpNode w id).1 x := by
  rw [Schedule.setUpNode] at hfine ⊢
  cases hn : w.node? id with
  | none =>
    simp only [hn] at hfine ⊢
    obtain rfl | hx := h
    · intro n kind hnode
      rw [hn] at hnode
      cases hnode
    · exact hx
  | some n =>
    simp only [hn] at hfine ⊢
    cases hbad : badInput? w (w.nodePath id) n with
    | some e =>
      simp only [hbad] at hfine
      cases hfine
    | none =>
      obtain ⟨n', htype, hshape, hnode⟩ := node?_startNode hn
      have hstart : (startNode w id n).2 = none → declarationFault? n.type n'.shape = none := by
        intro hnone
        cases hrefusal : (n.type.setup (view w id n)).refusal with
        | some reason =>
          rw [(startNode_refused hn hrefusal).1] at hnone
          cases hnone
        | none => rwa [hshape, ← (startNode_completed hn hrefusal).1]
      simp only [hbad] at hfine ⊢
      generalize startNode w id n = started at hfine hnode hstart ⊢
      obtain ⟨w', failure⟩ := started
      cases failure with
      | some reason => cases hfine
      | none =>
        intro m kind hm hkind
        change w'.node? x = some m at hm
        change ∃ shape, declared? w' x = some shape ∧ _
        rw [declared?, hnode]
        rw [hnode] at hm
        by_cases hx : x = id
        · rw [if_pos hx] at hm ⊢
          cases hm
          rw [htype] at hkind
          exact declarationFault?_eq_none hkind (hstart rfl)
        · rw [if_neg hx] at hm ⊢
          exact h.resolve_left hx m kind hm hkind

theorem keepsWord_setUpEach (h : Faultless w ids) (hx : x ∈ ids ∨ KeepsWord w x) :
    KeepsWord (setUpEach w ids) x := by
  induction ids generalizing w with
  | nil => exact hx.resolve_left List.not_mem_nil
  | cons id ids ih =>
    obtain ⟨hfine, hrest⟩ := faultless_cons.mp h
    refine ih hrest ?_
    obtain hmem | hkept := hx
    · obtain rfl | hmem := List.mem_cons.mp hmem
      · exact .inr (.setUpNode hfine (.inl rfl))
      · exact .inl hmem
    · exact .inr (.setUpNode hfine (.inr hkept))

theorem setUpEach_wiring (w : World) (ids : List NodeId) : SameWiring w (setUpEach w ids) := by
  induction ids generalizing w with
  | nil => exact .refl w
  | cons id ids ih => exact (setUpNode_wiring w id).trans (ih _)

/-! ## What fits -/

theorem input?_of_wiring {i : Nat} {spec : InputSpec} {source : NodeId}
    (h : n.wiring[i]? = some (spec, some source)) :
    n.type.inputs[i]? = some spec ∧ n.input? i = some source := by
  rw [Node.wiring, List.getElem?_zip_eq_some] at h
  exact ⟨h.1, by rw [Node.input?, h.2]; rfl⟩

/-- What a node reads from comes before it if it is gathered. -/
theorem mem_before_of_slot (hnodup : w.gather.Nodup) {before after : List NodeId}
    (hsort : sort w w.gather = .ok (before ++ id :: after)) (hn : (setUpEach w before).node? id = some n)
    {i : Nat} {source : NodeId} (hinput : n.input? i = some source) (hsource : source ∈ w.gather) :
    source ∈ before := by
  obtain ⟨m, hm, hbare⟩ := (setUpEach_wiring w before).node_of_node hn
  have hinputs : m.inputs = n.inputs := congrArg (·.inputs) hbare
  have hid : id ∈ w.gather := (perm_of_sort hnodup hsort).mem_iff.mp (by simp)
  have hmem : some source ∈ m.inputs := by
    rw [hinputs]
    exact List.mem_of_getElem? (Option.join_eq_some_iff.mp hinput)
  exact ordered_of_sort hnodup hsort ⟨hid, hsource, m, hm, hmem⟩

/-- If the nodes before it in update order have been set up without a fault, a node's inputs fit. -/
theorem fits_of_sound (hw : w.Sound) {before after : List NodeId}
    (hsort : sort w w.gather = .ok (before ++ id :: after)) (hbefore : Faultless w before)
    (hn : (setUpEach w before).node? id = some n) (i : Nat) : Fits (setUpEach w before) n i := by
  intro spec source hslot
  have hwiring := setUpEach_wiring w before
  have hnodup := hw.orderly.ranked.nodesWithin_nodup hw.orderly.once w.scopes.size .root
  obtain ⟨hspec, hinput⟩ := input?_of_wiring hslot
  obtain ⟨m, hm, hbare⟩ := hwiring.node_of_node hn
  have htype : m.type = n.type := congrArg (·.type) hbare
  have hinputs : m.inputs = n.inputs := congrArg (·.inputs) hbare
  have hinput' : m.input? i = some source := by rw [Node.input?, hinputs]; exact hinput
  have hjoins := hw.wired id m i source hm hinput'
  have hid : id ∈ w.gather := (perm_of_sort hnodup hsort).mem_iff.mp (by simp)
  have hearlier := mem_before_of_slot hnodup hsort hn hinput (hjoins.mem_gather hw.orderly hid)
  -- So it has declared the kind that its type produces.
  obtain ⟨k, spec', kind, hk, hspec', hkind, haccepts⟩ := hjoins.accepted
  rw [htype, hspec] at hspec'
  cases hspec'
  have hthere := hwiring.node source
  rw [hk, Option.map_some, Option.map_eq_some_iff] at hthere
  obtain ⟨k', hk', hbare'⟩ := hthere
  have htype' : k'.type = k.type := congrArg (·.type) hbare'
  obtain ⟨shape, hshape, rfl⟩ :=
    keepsWord_setUpEach hbefore (.inl hearlier) k' kind hk' (by rw [htype', hkind])
  exact ⟨shape, hshape, haccepts⟩

/-! ## What is left that can fail -/

/-- A build fails for a cycle, for an open input, or for the first fault in update order. -/
theorem build_error_cases (h : (build w).2 = .error e) :
    ((∃ paths, e = .cycle paths) ∧ ∃ a, OnCycle w w.gather a) ∨
    ∃ order, sort w w.gather = .ok order ∧
      ((∃ path slot missing, e = .incomplete path slot missing ∧ NamesFirstOpen w order path slot) ∨
      ∃ before id after ran, order = before ++ id :: after ∧ Faultless w before ∧
        Fault (setUpEach w before) id e ran) := by
  by_cases hcyclic : ∃ a, OnCycle w w.gather a
  · obtain ⟨⟨paths, herror⟩, -⟩ := build_of_cyclic hcyclic
    rw [herror] at h
    cases h
    exact .inl ⟨⟨paths, rfl⟩, hcyclic⟩
  · obtain ⟨order, hsort⟩ := exists_sort_iff.mpr (not_exists.mp hcyclic)
    refine .inr ⟨order, hsort, ?_⟩
    by_cases hopen : ∃ id ∈ order, ∃ i, IsOpen w id i
    · obtain ⟨⟨path, slot, hfirst, herror⟩, -⟩ := build_of_open hsort hopen
      rw [herror] at h
      cases h
      exact .inl ⟨path, slot, _, rfl, hfirst⟩
    · have hcomplete : ∀ id ∈ order, ∀ i, ¬IsOpen w id i :=
        fun id hid i hi => hopen ⟨id, hid, i, hi⟩
      rw [build_of_complete hsort hcomplete] at h
      obtain hfaultless | ⟨before, id, after, e', ran, rfl, hbefore, hfault⟩ :=
        faultless_or_first w order
      · rw [setUpAll_of_faultless hfaultless] at h
        cases h
      · obtain ⟨path, hall⟩ := setUpAll_of_fault hbefore hfault [] after
        rw [hall] at h
        cases h
        exact .inr ⟨before, id, after, ran, rfl, hbefore, hfault⟩

/-- A fault of a node whose inputs fit is that of its own setup or of what it declares. -/
theorem Fault.ran {ran : Option Bool} (h : Fault w id e ran)
    (hfits : ∀ n, w.node? id = some n → ∀ i, Fits w n i) : ∃ completed, ran = some completed := by
  cases h with
  | silent node first slot nothing =>
    obtain ⟨shape, hshape, -⟩ := hfits _ node _ _ _ slot
    rw [nothing] at hshape
    cases hshape
  | unaccepted node first slot something kind =>
    obtain ⟨shape, hshape, haccepts⟩ := hfits _ node _ _ _ slot
    rw [something] at hshape
    cases hshape
    rw [kind] at haccepts
    cases haccepts
  | refused => exact ⟨_, rfl⟩
  | undeclared => exact ⟨_, rfl⟩
  | misdeclared => exact ⟨_, rfl⟩

/-- Where all connections are right, no build fails for an input and its source. -/
theorem build_error_of_sound (hw : w.Sound) (h : (build w).2 = .error e) :
    ((∃ paths, e = .cycle paths) ∧ ∃ a, OnCycle w w.gather a) ∨
    ∃ order, sort w w.gather = .ok order ∧
      ((∃ path slot missing, e = .incomplete path slot missing ∧ NamesFirstOpen w order path slot) ∨
      ∃ before id after completed, order = before ++ id :: after ∧ Faultless w before ∧
        Fault (setUpEach w before) id e (some completed)) := by
  obtain hcyclic | ⟨order, hsort, hopen | ⟨before, id, after, ran, rfl, hbefore, hfault⟩⟩ :=
    build_error_cases h
  · exact .inl hcyclic
  · exact .inr ⟨order, hsort, .inl hopen⟩
  · obtain ⟨completed, rfl⟩ := hfault.ran fun n hn => fits_of_sound hw hsort hbefore hn
    exact .inr ⟨_, hsort, .inr ⟨before, id, after, completed, rfl, hbefore, hfault⟩⟩

/-- Where nothing has been taken down and only statements have connected nodes, whatever the setups
of scopes and nodes do, every input fits when the turn of its node comes. So no build fails for an
input that does not accept what its source has declared, or for a source that has declared nothing.
If it fails, it is for a cycle, for an open input, or for a node whose own setup has run: it was
refused, or it has declared something else than its type says. -/
theorem build_compatible (journal : Array Event) (changes : List Change)
    (hchanges : ∀ c ∈ changes, c.TakesNothingDown) :
    let w := changes.foldl Change.run (World.new journal)
    (∀ before id after, sort w w.gather = .ok (before ++ id :: after) → Faultless w before →
      ∀ n, (setUpEach w before).node? id = some n → ∀ i, Fits (setUpEach w before) n i) ∧
    (∀ path slot found, (build w).2 ≠ .error (.incompatible path slot found)) ∧
    ∀ e, (build w).2 = .error e →
      ((∃ paths, e = .cycle paths) ∧ ∃ a, OnCycle w w.gather a) ∨
      ∃ order, sort w w.gather = .ok order ∧
        ((∃ path slot missing, e = .incomplete path slot missing ∧
          NamesFirstOpen w order path slot) ∨
        ∃ before id after completed, order = before ++ id :: after ∧ Faultless w before ∧
          Fault (setUpEach w before) id e (some completed)) := by
  intro w
  have hsound : w.Sound := Change.foldl_run_sound (new_sound journal) changes hchanges
  refine ⟨fun before id after hsort hbefore n hn => fits_of_sound hsound hsort hbefore hn,
    fun path slot found herror => ?_, fun e he => build_error_of_sound hsound he⟩
  obtain ⟨⟨paths, hcycle⟩, -⟩ | ⟨order, -, ⟨_, _, _, hopen, -⟩ | ⟨_, _, _, _, -, -, hfault⟩⟩ :=
    build_error_of_sound hsound herror
  · cases hcycle
  · cases hopen
  · cases hfault

/-- A source is connected to a sink whose setup is refused. The sink is made first. -/
def refusing : List Change :=
  let source : NodeType :=
    { name := "source", produces := some .surface,
      setup := fun v => { v.ready with shape := some ⟨.surface, 1, 1⟩ } }
  let sink : NodeType :=
    { name := "sink", inputs := [⟨"from", true, some .surface⟩],
      setup := fun v => { v.ready with refusal := some "no display" } }
  let name (text : String) : Script.Identifier := ⟨text, ⟨0, 0⟩⟩
  let statement (target source : Script.Path) : Script.Statement := ⟨target, source, none, 0, 1⟩
  [.populate ⟨[source, sink], [], []⟩ .root,
    .apply .root ⟨[statement ⟨name "b", [name "from"]⟩ ⟨name "a", []⟩,
      statement ⟨name "b", []⟩ ⟨name "sink", []⟩, statement ⟨name "a", []⟩ ⟨name "source", []⟩],
      ⟨0, 0⟩⟩]

theorem build_compatible_refusing :
    (∀ c ∈ refusing, c.TakesNothingDown) ∧
      let w := refusing.foldl Change.run (World.new #[])
      sort w w.gather = .ok [⟨1⟩, ⟨0⟩] ∧
      (∃ n, (setUpEach w [⟨1⟩]).node? ⟨0⟩ = some n ∧ n.input? 0 = some ⟨1⟩ ∧
        Fits (setUpEach w [⟨1⟩]) n 0) ∧
      (build w).2 = .error (.setup "b" "no display") := by
  have hchanges : ∀ c ∈ refusing, c.TakesNothingDown := by
    simp [refusing, Change.TakesNothingDown]
  obtain ⟨hfits, -, -⟩ := build_compatible #[] refusing hchanges
  have hsort : sort (refusing.foldl Change.run (World.new #[]))
      (refusing.foldl Change.run (World.new #[])).gather = .ok [⟨1⟩, ⟨0⟩] := by decide +kernel
  have hfine : (setUpNode (refusing.foldl Change.run (World.new #[])) ⟨1⟩).2 = none := by
    decide +kernel
  have hinput : ((setUpEach (refusing.foldl Change.run (World.new #[])) [⟨1⟩]).node? ⟨0⟩).bind
      (·.input? 0) = some ⟨1⟩ := by decide +kernel
  obtain ⟨n, hn, hreads⟩ := Option.bind_eq_some_iff.mp hinput
  have hfirst := faultless_cons.mpr ⟨hfine, faultless_nil _⟩
  exact ⟨hchanges, hsort, ⟨n, hn, hreads, hfits [⟨1⟩] ⟨0⟩ [] hsort hfirst n hn 0⟩,
    by decide +kernel⟩

end Schedule

end FrameGraph
