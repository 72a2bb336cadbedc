import FrameGraph.Proofs.Schedule.Compatibility
import FrameGraph.Proofs.Schedule.Dataflow
import FrameGraph.Proofs.World.Rooted

/-!
# Validation

Whenever building runs the setup of a node, what the node reads from has been set up before it and
has declared what the node accepts. A node is changed by its own setup only, and it is set up once,
so what was found right when its turn came is still right when all turns are over.
-/
namespace FrameGraph.Schedule

open World

variable {w w' : World} {id x : NodeId} {n : Node} {before after order : List NodeId} {ok : Bool}

/-! ## Turns -/

/-- The turn of a node has come and its setup is run, which is completed or not: the nodes before it
have been set up, and all its inputs fit. -/
structure Turn (w : World) (before : List NodeId) (id : NodeId) (n : Node) (ok : Bool) : Prop where
  earlier : Faultless w before
  node : (setUpEach w before).node? id = some n
  fits : ∀ i, Fits (setUpEach w before) n i
  answer : ok = (n.type.setup (view (setUpEach w before) id n)).refusal.isNone

theorem wiring_of_bare {m : Node} (h : m.bare = n.bare) : m.wiring = n.wiring := by
  have hwiring : m.bare.wiring = n.bare.wiring := by rw [h]
  exact hwiring

theorem setUpEach_append (w : World) (ids rest : List NodeId) :
    setUpEach w (ids ++ rest) = setUpEach (setUpEach w ids) rest :=
  List.foldl_append

theorem Faultless.front {rest : List NodeId} (h : Faultless w (before ++ rest)) :
    Faultless w before := by
  rintro front a behind rfl
  exact h front a (behind ++ rest) (by simp)

/-- Where no node has a fault, the setup of each that is there is completed in its turn. -/
theorem Turn.of_faultless (h : Faultless w (before ++ id :: after)) (hthere : isThere w id = true) :
    ∃ n, Turn w before id n true := by
  rw [← isThere_wiring (setUpEach_wiring w before)] at hthere
  obtain ⟨n, hn⟩ := Option.isSome_iff_exists.mp hthere
  have hnone := h before id after rfl
  have hfits : ∀ i, Fits (setUpEach w before) n i := by
    rw [← badInput?_eq_none_iff ((setUpEach w before).nodePath id)]
    cases hbad : badInput? (setUpEach w before) ((setUpEach w before).nodePath id) n with
    | none => rfl
    | some e => exact absurd (fault_of_badInput hn hbad) (hnone e none)
  refine ⟨n, h.front, hn, hfits, ?_⟩
  cases hrefusal : (n.type.setup (view (setUpEach w before) id n)).refusal with
  | none => rfl
  | some reason => exact absurd (.refused hn hfits hrefusal) (hnone _ _)

/-- The setup of a node has been run if its fault is not that of an input. -/
theorem Turn.of_fault {e : BuildError} (h : Faultless w before)
    (hfault : Fault (setUpEach w before) id e (some ok)) : ∃ n, Turn w before id n ok := by
  cases hfault with
  | refused node fits refusal => exact ⟨_, h, node, fits, by rw [refusal]; rfl⟩
  | undeclared node fits completed => exact ⟨_, h, node, fits, by rw [completed]; rfl⟩
  | misdeclared node fits completed => exact ⟨_, h, node, fits, by rw [completed]; rfl⟩

/-! ## The steps of a build -/

/-- Where the steps of completed setups are cut, the nodes are. -/
theorem cut_setUps {ids : List NodeId} {pre post : List LifeStep}
    (h : (ids.filter (isThere w)).map (LifeStep.nodeSetUp · true) = pre ++ .nodeSetUp id ok :: post) :
    ok = true ∧ isThere w id = true ∧ ∃ before after, ids = before ++ id :: after ∧
      pre = (before.filter (isThere w)).map (.nodeSetUp · true) := by
  obtain ⟨front, back, hsplit, rfl, hback⟩ := List.map_eq_append_iff.mp h
  obtain ⟨a, back, rfl, hstep, -⟩ := List.map_eq_cons_iff.mp hback
  obtain ⟨rfl, rfl⟩ := LifeStep.nodeSetUp.inj hstep
  obtain ⟨front', rest, rfl, rfl, hrest⟩ := List.filter_eq_append_iff.mp hsplit
  obtain ⟨gone, behind, rfl, hgone, hthere, -⟩ := List.filter_eq_cons_iff.mp hrest
  refine ⟨rfl, hthere, front' ++ gone, behind, by simp, ?_⟩
  rw [List.filter_append, List.filter_eq_nil_iff.mpr hgone, List.append_nil]

/-- Behind the completed setups there is at most one more, and then there are only farewells. -/
theorem cut_last {a : NodeId} {ran : Option Bool} {destroyed : List NodeId} {pre post : List LifeStep}
    (h : ran.toList.map (LifeStep.nodeSetUp a) ++ destroyed.map .nodeDestroyed =
      pre ++ .nodeSetUp id ok :: post) : pre = [] ∧ a = id ∧ ran = some ok := by
  obtain ⟨post', hfront, -⟩ | ⟨pre', -, hback⟩ := append_eq_append_cons h
  · cases ran with
    | none => simp at hfront
    | some completed =>
      obtain ⟨rfl, hcons⟩ := List.append_eq_singleton_iff.mp hfront.symm |>.resolve_right (by simp)
      cases hcons
      exact ⟨rfl, rfl, rfl⟩
  · have hmem : LifeStep.nodeSetUp id ok ∈ destroyed.map LifeStep.nodeDestroyed := by
      rw [hback]
      simp
    simp at hmem

/-- What a build has done, by how far it came: nothing, all setups, or those up to a fault. -/
theorem build_steps (w : World) : (build w).1.steps = w.steps ∨
    ∃ order, sort w w.gather = .ok order ∧
      ((Faultless w order ∧ (build w).1.steps =
        w.steps ++ (order.filter (isThere w)).map (.nodeSetUp · true)) ∨
      ∃ before id after e, ∃ ran : Option Bool, ∃ destroyed : List NodeId,
        order = before ++ id :: after ∧ Faultless w before ∧
        Fault (setUpEach w before) id e ran ∧ (build w).1.steps =
          w.steps ++ ((before.filter (isThere w)).map (.nodeSetUp · true) ++
            (ran.toList.map (.nodeSetUp id) ++ destroyed.map .nodeDestroyed))) := by
  by_cases hcyclic : ∃ a, OnCycle w w.gather a
  · exact .inl (build_of_cyclic hcyclic).2.steps
  · obtain ⟨order, hsort⟩ := exists_sort_iff.mpr (not_exists.mp hcyclic)
    by_cases hopen : ∃ id ∈ order, ∃ i, IsOpen w id i
    · exact .inl (build_of_open hsort hopen).2.steps
    · have hcomplete : ∀ id ∈ order, ∀ i, ¬IsOpen w id i :=
        fun id hid i hi => hopen ⟨id, hid, i, hi⟩
      refine .inr ⟨order, hsort, ?_⟩
      rw [build_of_complete hsort hcomplete]
      obtain hfaultless | ⟨before, id, after, e, ran, rfl, hbefore, hfault⟩ :=
        faultless_or_first w order
      · rw [setUpAll_of_faultless hfaultless]
        exact .inl ⟨hfaultless, (steps_record _ rfl).trans (setUpEach_spec hfaultless).1⟩
      · obtain ⟨path, hall⟩ := setUpAll_of_fault hbefore hfault [] after
        obtain ⟨destroyed, hdestroyed⟩ := takeDown_takesDown
          ((setUpNode (setUpEach w before) id).1.record (.buildFailed path e.message))
          ([].reverse ++ before ++ [id])
        refine .inr ⟨before, id, after, e, ran, destroyed, rfl, hbefore, hfault, ?_⟩
        rw [hall]
        refine hdestroyed.steps.trans ?_
        rw [steps_record _ rfl, hfault.setUpNode.2.steps, (setUpEach_spec hbefore).1]
        simp

/-- Every setup that a build has run was run in the turn of its node. -/
theorem exists_turn {pre post : List LifeStep}
    (h : (build w).1.steps = w.steps ++ (pre ++ .nodeSetUp id ok :: post)) :
    ∃ before after n, sort w w.gather = .ok (before ++ id :: after) ∧
      (setUpEach w before).steps = w.steps ++ pre ∧ Turn w before id n ok := by
  have hcut {ids : List NodeId} {post : List LifeStep} (hids : Faultless w ids)
      (hsteps : (ids.filter (isThere w)).map (LifeStep.nodeSetUp · true) =
        pre ++ .nodeSetUp id ok :: post) :
      ∃ before after n, ids = before ++ id :: after ∧
        (setUpEach w before).steps = w.steps ++ pre ∧ Turn w before id n ok := by
    obtain ⟨rfl, hthere, before, after, rfl, rfl⟩ := cut_setUps hsteps
    obtain ⟨n, hturn⟩ := Turn.of_faultless hids hthere
    exact ⟨before, after, n, rfl, (setUpEach_spec hturn.earlier).1, hturn⟩
  obtain hnothing | ⟨order, hsort, ⟨hfaultless, hsteps⟩ |
    ⟨done, a, rest, e, ran, destroyed, rfl, hdone, hfault, hsteps⟩⟩ := build_steps w
  · rw [hnothing] at h
    simpa using congrArg List.length h
  · rw [hsteps, List.append_cancel_left_eq] at h
    obtain ⟨before, after, n, rfl, hturn⟩ := hcut hfaultless h
    exact ⟨before, after, n, hsort, hturn⟩
  · rw [hsteps, List.append_cancel_left_eq] at h
    obtain ⟨post', hfront, -⟩ | ⟨pre', rfl, hback⟩ := append_eq_append_cons h
    · obtain ⟨before, after, n, rfl, hturn⟩ := hcut hdone hfront
      exact ⟨before, after ++ a :: rest, n, by rw [hsort]; simp, hturn⟩
    · obtain ⟨rfl, rfl, rfl⟩ := cut_last hback
      obtain ⟨n, hturn⟩ := Turn.of_fault hdone hfault
      refine ⟨done, rest, n, hsort, ?_, hturn⟩
      rw [(setUpEach_spec hdone).1, List.append_nil]

/-! ## Nodes that are done -/

theorem node?_setUpNode_of_ne (hx : x ≠ id) : (setUpNode w id).1.node? x = w.node? x := by
  rw [setUpNode]
  cases hn : w.node? id with
  | none => rfl
  | some n =>
    dsimp only
    split
    · rfl
    · obtain ⟨n', -, -, hnode⟩ := node?_startNode hn
      generalize startNode w id n = started at hnode ⊢
      obtain ⟨w', reason⟩ := started
      have hsame := (hnode x).trans (if_neg hx)
      cases reason with
      | some reason => exact hsame
      | none => exact hsame

theorem node?_setUpEach_of_notMem {ids : List NodeId} (hx : x ∉ ids) :
    (setUpEach w ids).node? x = w.node? x := by
  induction ids generalizing w with
  | nil => rfl
  | cons id ids ih =>
    obtain ⟨hne, hrest⟩ := List.ne_and_not_mem_of_not_mem_cons hx
    exact (ih hrest).trans (node?_setUpNode_of_ne hne)

/-- What has been declared when the turn of a node comes is not taken back. -/
theorem declared?_setUpEach (h : (before ++ id :: after).Nodup) (hx : x ∈ before) :
    declared? (setUpEach w (before ++ id :: after)) x = declared? (setUpEach w before) x := by
  have hnot : x ∉ id :: after := fun hmem => (List.nodup_append.mp h).2.2 x hx x hmem rfl
  rw [declared?, declared?, setUpEach_append, node?_setUpEach_of_notMem hnot]

/-- The input slots of the node that are connected read from nodes that are set up, are among the
given ones, and have declared output of a kind that the slot accepts. -/
def Served (w : World) (n : Node) (sources : List NodeId) : Prop :=
  ∀ (i : Nat) (spec : InputSpec) (source : NodeId), n.wiring[i]? = some (spec, some source) →
    source ∈ sources ∧ w.isUp source = true ∧
      ∃ shape, declared? w source = some shape ∧ spec.accepts shape.kind = true

/-- Nothing is left to check for a node: it is set up, no mandatory input is open, what it produces
it has declared, and what it reads it accepts. -/
structure Validated (w : World) (n : Node) (sources : List NodeId) : Prop where
  isUp : n.isSetUp = true
  complete : ∀ (i : Nat) (spec : InputSpec), n.wiring[i]? = some (spec, none) → spec.mandatory = false
  declares : ∀ kind, n.type.produces = some kind → ∃ shape, n.shape = some shape ∧ shape.kind = kind
  served : Served w n sources

/-- In an ownership tree what a node reads from has had its turn, or it is not there and the node has
no turn. -/
theorem Turn.served (hw : w.OwnershipTree) (hsort : sort w w.gather = .ok (before ++ id :: after))
    (h : Turn w before id n ok) : Served (setUpEach w before) n before := by
  intro i spec source hslot
  obtain ⟨hnodup, hmem⟩ := hw.gather_spec
  obtain ⟨shape, hshape, haccepts⟩ := h.fits i spec source hslot
  obtain ⟨k, hk, -⟩ := Option.bind_eq_some_iff.mp hshape
  obtain ⟨m, hm, -⟩ := (setUpEach_wiring w before).node_of_node hk
  have hearlier := mem_before_of_slot hnodup hsort h.node (input?_of_wiring hslot).2
    ((hmem source).mpr ⟨m, hm⟩)
  refine ⟨hearlier, ?_, shape, hshape, haccepts⟩
  exact ((setUpEach_spec h.earlier).2 source).mpr (.inr ⟨hearlier, by rw [isThere, hm]; rfl⟩)

/-- What a build that gives a schedule has done. -/
theorem build_ok {g : Schedule} (h : (build w).2 = .ok g) :
    sort w w.gather = .ok g.order ∧ (∀ a ∈ g.order, ∀ i, ¬IsOpen w a i) ∧
      Faultless w g.order ∧
      (build w).1 = (setUpEach w g.order).record (.scheduleBuilt g.order.length) := by
  by_cases hcyclic : ∃ a, OnCycle w w.gather a
  · obtain ⟨⟨paths, herror⟩, -⟩ := build_of_cyclic hcyclic
    rw [herror] at h
    cases h
  · obtain ⟨order, hsort⟩ := exists_sort_iff.mpr (not_exists.mp hcyclic)
    by_cases hopen : ∃ id ∈ order, ∃ i, IsOpen w id i
    · obtain ⟨⟨path, slot, -, herror⟩, -⟩ := build_of_open hsort hopen
      rw [herror] at h
      cases h
    · have hcomplete : ∀ id ∈ order, ∀ i, ¬IsOpen w id i :=
        fun id hid i hi => hopen ⟨id, hid, i, hi⟩
      rw [build_of_complete hsort hcomplete] at h ⊢
      obtain hfaultless | ⟨before, id, after, e, ran, rfl, hbefore, hfault⟩ :=
        faultless_or_first w order
      · rw [setUpAll_of_faultless hfaultless] at h ⊢
        cases h
        exact ⟨hsort, hcomplete, hfaultless, rfl⟩
      · obtain ⟨path, hall⟩ := setUpAll_of_fault hbefore hfault [] after
        rw [hall] at h
        cases h

/-- Where every node is set up without a fault and no input is open, nothing is left to check. -/
theorem validated_of_faultless (hw : w.OwnershipTree) (hsort : sort w w.gather = .ok order)
    (hopen : ∀ a ∈ order, ∀ i, ¬IsOpen w a i) (h : Faultless w order) (hx : x ∈ order) :
    ∃ n, (setUpEach w order).node? x = some n ∧
      Validated (setUpEach w order) n w.gather := by
  obtain ⟨hnodup, hmem⟩ := hw.gather_spec
  have hperm := perm_of_sort hnodup hsort
  obtain ⟨m, hm⟩ := (hmem x).mp (hperm.mem_iff.mp hx)
  have hthere : isThere w x = true := by rw [isThere, hm]; rfl
  have hup := (setUpEach_spec h).2
  obtain ⟨n, hn, hset⟩ := isUp_eq_true_iff.mp ((hup x).mpr (.inr ⟨hx, hthere⟩))
  obtain ⟨m', hm', hbare⟩ := (setUpEach_wiring w order).node_of_node hn
  refine ⟨n, hn, hset, fun i spec hslot => ?_, fun kind hkind => ?_, fun i spec source hslot => ?_⟩
  · by_contra hmandatory
    refine hopen x hx i ⟨m', spec, hm', ?_, by simpa using hmandatory⟩
    rwa [← wiring_of_bare hbare] at hslot
  · obtain ⟨shape, hshape, hkind⟩ := keepsWord_setUpEach h (.inl hx) n kind hn hkind
    rw [declared?, hn] at hshape
    exact ⟨shape, hshape, hkind⟩
  · obtain ⟨before, after, rfl⟩ := List.append_of_mem hx
    obtain ⟨k, hturn⟩ := Turn.of_faultless h hthere
    obtain ⟨m'', hm'', hbare'⟩ := (setUpEach_wiring w before).node_of_node hturn.node
    rw [hm'] at hm''
    cases hm''
    rw [← wiring_of_bare hbare, wiring_of_bare hbare'] at hslot
    obtain ⟨hearlier, -, shape, hshape, haccepts⟩ := hturn.served hw hsort i spec source hslot
    have hgathered : source ∈ w.gather := hperm.mem_iff.mp (by simp [hearlier])
    obtain ⟨k', hk'⟩ := (hmem source).mp hgathered
    refine ⟨hgathered, (hup source).mpr (.inr ⟨by simp [hearlier], by rw [isThere, hk']; rfl⟩),
      shape, ?_, haccepts⟩
    rwa [declared?_setUpEach (hperm.nodup_iff.mpr hnodup) hearlier]

/-- In every ownership tree, however its nodes are connected and whatever their setups do: whenever a
build runs the setup of a node, all that the node reads from has been set up before it and has
declared output of a kind that the slot accepts. When the build gives a schedule, this still holds of
all gathered nodes; each is set up and has declared what its type produces, and no mandatory input is
open. -/
theorem build_validates (w : World) (h : w.OwnershipTree) :
    (∃ done, (build w).1.steps = w.steps ++ done ∧
      ∀ pre id ok post, done = pre ++ .nodeSetUp id ok :: post →
        ∃ before after n, sort w w.gather = .ok (before ++ id :: after) ∧
          (setUpEach w before).steps = w.steps ++ pre ∧ Turn w before id n ok ∧
          Served (setUpEach w before) n before) ∧
    ∀ g, (build w).2 = .ok g → g.order.Perm w.gather ∧
      ∀ x ∈ w.gather, ∃ n, (build w).1.node? x = some n ∧ Validated (build w).1 n w.gather := by
  refine ⟨?_, fun g hg => ?_⟩
  · obtain ⟨done, hdone⟩ : ∃ done, (build w).1.steps = w.steps ++ done := by
      obtain hnothing | ⟨order, -, ⟨-, hsteps⟩ | ⟨_, _, _, _, _, _, -, -, -, hsteps⟩⟩ := build_steps w
      · exact ⟨[], by rw [hnothing, List.append_nil]⟩
      · exact ⟨_, hsteps⟩
      · exact ⟨_, hsteps⟩
    refine ⟨done, hdone, fun pre id ok post hsplit => ?_⟩
    rw [hsplit] at hdone
    obtain ⟨before, after, n, hsort, hpre, hturn⟩ := exists_turn hdone
    exact ⟨before, after, n, hsort, hpre, hturn, hturn.served h hsort⟩
  · obtain ⟨hsort, hopen, hfaultless, hworld⟩ := build_ok hg
    have hperm := perm_of_sort h.gather_spec.1 hsort
    refine ⟨hperm, fun x hx => ?_⟩
    rw [hworld]
    obtain ⟨n, hn, hvalid⟩ :=
      validated_of_faultless h hsort hopen hfaultless (hperm.mem_iff.mpr hx)
    exact ⟨n, hn, hvalid.isUp, hvalid.complete, hvalid.declares, hvalid.served⟩

theorem build_validates_joined :
    joined.OwnershipTree ∧ joined.gather = [⟨0⟩, ⟨1⟩] ∧
      (∃ n, (build joined).1.node? ⟨0⟩ = some n ∧ n.wiring[0]?.bind Prod.snd = some ⟨1⟩ ∧
        Validated (build joined).1 n [⟨0⟩, ⟨1⟩]) ∧
      ∃ before n, (setUpEach joined before).steps = [.nodeSetUp ⟨1⟩ true] ∧
        Turn joined before ⟨0⟩ n true ∧ Served (setUpEach joined before) n before := by
  have htree : joined.OwnershipTree := by
    have hapart : Edits (World.new #[]) apart :=
      .tail (.single (.makeNode _ .root "copier" copier .root []))
        (.makeNode _ .root "counter" counter .root [])
    have hjoined : Edits (World.new #[]) joined := .tail hapart (.connect apart ⟨0⟩ 0 ⟨1⟩)
    exact (Edits.tree hjoined (new_tree #[])).ownershipTree
  have hgather : joined.gather = [⟨0⟩, ⟨1⟩] := by decide +kernel
  have hok : (build joined).2 = .ok ⟨[⟨1⟩, ⟨0⟩]⟩ := by decide +kernel
  have hsteps : (build joined).1.steps = [.nodeSetUp ⟨1⟩ true, .nodeSetUp ⟨0⟩ true] := by
    decide +kernel
  have hreads : ((build joined).1.node? ⟨0⟩).bind (·.wiring[0]?.bind Prod.snd) = some ⟨1⟩ := by
    decide +kernel
  obtain ⟨⟨done, hdone, hturns⟩, hvalid⟩ := build_validates joined htree
  refine ⟨htree, hgather, ?_, ?_⟩
  · obtain ⟨n, hn, hvalidated⟩ := (hvalid _ hok).2 ⟨0⟩ (by rw [hgather]; simp)
    rw [hn] at hreads
    exact ⟨n, hn, hreads, hgather ▸ hvalidated⟩
  · have hnone : joined.steps = [] := by decide +kernel
    rw [hsteps, hnone, List.nil_append] at hdone
    obtain ⟨before, after, n, -, hpre, hturn, hserved⟩ :=
      hturns [.nodeSetUp ⟨1⟩ true] ⟨0⟩ true [] hdone.symm
    exact ⟨before, n, by rw [hpre, hnone]; rfl, hturn, hserved⟩

end FrameGraph.Schedule
