import FrameGraph.Proofs.Schedule.Wiring
import FrameGraph.Proofs.World.Steps

/-!
# Setting one node up

Why a node cannot be set up, said of the node and its inputs, and what setting it up leaves behind:
whether its setup ran, and whether it counts as set up. A node whose setup was not refused counts as
set up even if it has declared the wrong shape.
-/
namespace FrameGraph.Schedule

open World

/-- What the node has declared about its output. -/
def declared? (w : World) (id : NodeId) : Option OutputShape := (w.node? id).bind Node.shape

/-- The input is open, or its source has declared output of a kind that it accepts. -/
def Fits (w : World) (n : Node) (i : Nat) : Prop :=
  ∀ spec source, n.wiring[i]? = some (spec, some source) →
    ∃ shape, declared? w source = some shape ∧ spec.accepts shape.kind = true

/-- The node cannot be set up, for a reason, and what came of its setup: nothing if it did not run,
and otherwise whether it was completed. -/
inductive Fault (w : World) (id : NodeId) : BuildError → Option Bool → Prop
  | silent {n : Node} {i : Nat} {spec : InputSpec} {source : NodeId} (node : w.node? id = some n)
    (first : ∀ j < i, Fits w n j) (slot : n.wiring[i]? = some (spec, some source))
    (nothing : declared? w source = none) :
    Fault w id (.setup (w.nodePath id) s!"input '{spec.name}' reads from a node with no output")
      none
  | unaccepted {n : Node} {i : Nat} {spec : InputSpec} {source : NodeId} {shape : OutputShape}
    (node : w.node? id = some n) (first : ∀ j < i, Fits w n j)
    (slot : n.wiring[i]? = some (spec, some source)) (something : declared? w source = some shape)
    (kind : spec.accepts shape.kind = false) :
    Fault w id (.incompatible (w.nodePath id) spec.name shape.kind) none
  | refused {n : Node} {reason : String} (node : w.node? id = some n) (fits : ∀ i, Fits w n i)
    (refusal : (n.type.setup (view w id n)).refusal = some reason) :
    Fault w id (.setup (w.nodePath id) reason) (some false)
  | undeclared {n : Node} {kind : OutputKind} (node : w.node? id = some n)
    (fits : ∀ i, Fits w n i) (completed : (n.type.setup (view w id n)).refusal = none)
    (produces : n.type.produces = some kind) (shape : (n.type.setup (view w id n)).shape = none) :
    Fault w id (.setup (w.nodePath id) s!"no {kind.name} output declared") (some true)
  | misdeclared {n : Node} {kind : OutputKind} {shape : OutputShape} (node : w.node? id = some n)
    (fits : ∀ i, Fits w n i) (completed : (n.type.setup (view w id n)).refusal = none)
    (produces : n.type.produces = some kind)
    (declares : (n.type.setup (view w id n)).shape = some shape) (wrong : shape.kind ≠ kind) :
    Fault w id (.setup (w.nodePath id)
      s!"declared {shape.kind.name} output but the delegate produces {kind.name}") (some true)

variable {w : World} {id : NodeId} {n : Node}

/-! ## Inputs -/

/-- What is wrong with one input. -/
def inputFault? (w : World) (path : String) : InputSpec × Option NodeId → Option BuildError
  | (_, none) => none
  | (spec, some id) =>
    match declared? w id with
    | some shape =>
      if spec.accepts shape.kind then none else some (.incompatible path spec.name shape.kind)
    | none => some (.setup path s!"input '{spec.name}' reads from a node with no output")

theorem badInput?_eq (path : String) : badInput? w path n = n.wiring.findSome? (inputFault? w path) := by
  rw [badInput?]
  congr
  funext ⟨spec, source⟩
  cases source <;> rfl

theorem inputFault?_eq_none_iff {path : String} {i : Nat} {slot : InputSpec × Option NodeId}
    (hslot : n.wiring[i]? = some slot) : inputFault? w path slot = none ↔ Fits w n i := by
  obtain ⟨spec, source⟩ := slot
  rw [Fits, hslot]
  cases source with
  | none => simp [inputFault?]
  | some source =>
    cases hd : declared? w source with
    | none => simp [inputFault?, hd]
    | some shape =>
      cases ha : spec.accepts shape.kind <;> simp [inputFault?, hd, ha]

theorem badInput?_eq_none_iff (path : String) :
    badInput? w path n = none ↔ ∀ i, Fits w n i := by
  rw [badInput?_eq, List.findSome?_eq_none_iff]
  constructor
  · intro h i spec source hslot
    exact (inputFault?_eq_none_iff hslot).mp (h _ (List.mem_of_getElem? hslot)) spec source hslot
  · intro h slot hslot
    obtain ⟨i, hi⟩ := List.mem_iff_getElem?.mp hslot
    exact (inputFault?_eq_none_iff hi).mpr (h i)

/-- The first input that does not fit decides. -/
theorem badInput?_eq_some_iff {path : String} {e : BuildError} : badInput? w path n = some e ↔
    ∃ i slot, n.wiring[i]? = some slot ∧ (∀ j < i, Fits w n j) ∧
      inputFault? w path slot = some e := by
  rw [badInput?_eq, List.findSome?_eq_some_iff]
  constructor
  · rintro ⟨before, slot, after, hwiring, he, hbefore⟩
    refine ⟨before.length, slot, by simp [hwiring], fun j hj => ?_, he⟩
    intro spec source hslot
    have hmem : (spec, some source) ∈ before := by
      rw [hwiring, List.getElem?_append_left hj] at hslot
      exact List.mem_of_getElem? hslot
    exact (inputFault?_eq_none_iff hslot).mp (hbefore _ hmem) spec source hslot
  · rintro ⟨i, slot, hslot, hfirst, he⟩
    obtain ⟨hi, rfl⟩ := List.getElem?_eq_some_iff.mp hslot
    refine ⟨n.wiring.take i, n.wiring[i], n.wiring.drop (i + 1), ?_, he, fun slot hmem => ?_⟩
    · rw [← List.drop_eq_getElem_cons hi, List.take_append_drop]
    · obtain ⟨j, hj⟩ := List.mem_iff_getElem?.mp hmem
      rw [List.getElem?_take] at hj
      split at hj
      · rename_i hlt
        exact (inputFault?_eq_none_iff hj).mpr (hfirst j hlt)
      · cases hj

/-! ## Setups -/

/-- What came of the setup of a node: which step was taken, and which nodes are set up then. -/
structure Ran (w w' : World) (id : NodeId) (ran : Option Bool) : Prop where
  steps : w'.steps = w.steps ++ ran.toList.map (LifeStep.nodeSetUp id)
  isUp : ∀ x, w'.isUp x = true ↔ w.isUp x = true ∨ x = id ∧ ran = some true

theorem Ran.untouched (w : World) (id : NodeId) : Ran w w id none := ⟨by simp, by simp⟩

theorem startNode_refused (hn : w.node? id = some n) {reason : String}
    (h : (n.type.setup (view w id n)).refusal = some reason) :
    (startNode w id n).2 = some reason ∧ Ran w (startNode w id n).1 id (some false) := by
  rw [startNode]
  simp only [h]
  have hn' := (w.node?_recordNotes (n.type.setup (view w id n)).notes id).trans hn
  refine ⟨trivial, by simp, fun x => ?_⟩
  rw [isUp_record, isUp_setNode _ hn', isUp_recordNotes]
  split
  · rename_i hx
    simp [hx, World.isUp, hn]
  · simp

theorem startNode_completed (hn : w.node? id = some n)
    (h : (n.type.setup (view w id n)).refusal = none) :
    (startNode w id n).2 = declarationFault? n.type (n.type.setup (view w id n)).shape ∧
      Ran w (startNode w id n).1 id (some true) := by
  rw [startNode]
  simp only [h]
  have hn' := (w.node?_recordNotes (n.type.setup (view w id n)).notes id).trans hn
  refine ⟨trivial, by simp, fun x => ?_⟩
  rw [isUp_record, isUp_setNode _ hn', isUp_recordNotes]
  split
  · rename_i hx
    simp [hx]
  · rename_i hx
    simp [hx]

theorem Ran.record {w' : World} {ran : Option Bool} (h : Ran w w' id ran) {e : Event}
    (he : e.step? = none) : Ran w (w'.record e) id ran :=
  ⟨by rw [steps_record _ he, h.steps], h.isUp⟩

/-- If all inputs fit, it depends on the setup alone. -/
theorem setUpNode_of_fits (hn : w.node? id = some n) (hfits : ∀ i, Fits w n i) :
    (setUpNode w id).2 = (startNode w id n).2.map (.setup (w.nodePath id)) ∧
      ∀ ran, Ran w (startNode w id n).1 id ran → Ran w (setUpNode w id).1 id ran := by
  rw [setUpNode, hn]
  simp only [(badInput?_eq_none_iff (w.nodePath id)).mpr hfits]
  generalize startNode w id n = started
  obtain ⟨w', failure⟩ := started
  cases failure with
  | none => exact ⟨rfl, fun ran hran => hran.record rfl⟩
  | some reason => exact ⟨rfl, fun ran hran => hran⟩

/-- A fault is what the setup of the node reports. -/
theorem Fault.setUpNode {e : BuildError} {ran : Option Bool} (h : Fault w id e ran) :
    (setUpNode w id).2 = some e ∧ Ran w (setUpNode w id).1 id ran := by
  have hbad {n : Node} {i : Nat} {slot : InputSpec × Option NodeId} {e : BuildError}
      (hn : w.node? id = some n) (hslot : n.wiring[i]? = some slot) (hfirst : ∀ j < i, Fits w n j)
      (he : inputFault? w (w.nodePath id) slot = some e) :
      (Schedule.setUpNode w id).2 = some e ∧ Ran w (Schedule.setUpNode w id).1 id none := by
    rw [Schedule.setUpNode, hn]
    simp only [badInput?_eq_some_iff.mpr ⟨i, slot, hslot, hfirst, he⟩]
    exact ⟨trivial, .untouched w id⟩
  have hfault {n : Node} {reason : String} (hn : w.node? id = some n) (hfits : ∀ i, Fits w n i)
      {ran : Option Bool} (hreason : (startNode w id n).2 = some reason)
      (hran : Ran w (startNode w id n).1 id ran) :
      (Schedule.setUpNode w id).2 = some (.setup (w.nodePath id) reason) ∧
        Ran w (Schedule.setUpNode w id).1 id ran := by
    obtain ⟨hfailure, hkeeps⟩ := setUpNode_of_fits hn hfits
    exact ⟨by rw [hfailure, hreason]; rfl, hkeeps ran hran⟩
  cases h with
  | silent node first slot nothing => exact hbad node slot first (by rw [inputFault?, nothing])
  | unaccepted node first slot something kind =>
    exact hbad node slot first (by simp [inputFault?, something, kind])
  | refused node fits refusal =>
    obtain ⟨hreason, hran⟩ := startNode_refused node refusal
    exact hfault node fits hreason hran
  | undeclared node fits completed produces shape =>
    obtain ⟨hreason, hran⟩ := startNode_completed node completed
    exact hfault node fits (hreason.trans (by simp only [declarationFault?, produces, shape])) hran
  | misdeclared node fits completed produces declares wrong =>
    obtain ⟨hreason, hran⟩ := startNode_completed node completed
    refine hfault node fits (hreason.trans ?_) hran
    simp only [declarationFault?, produces, declares, if_neg wrong]

/-- An input that does not fit is a fault. -/
theorem fault_of_badInput {e : BuildError} (hn : w.node? id = some n)
    (h : badInput? w (w.nodePath id) n = some e) : Fault w id e none := by
  obtain ⟨i, ⟨spec, source⟩, hslot, hfirst, he⟩ := badInput?_eq_some_iff.mp h
  cases source with
  | none => cases he
  | some source =>
    rw [inputFault?] at he
    split at he
    · rename_i shape hshape
      split at he
      · cases he
      · rename_i hkind
        cases he
        exact .unaccepted hn hfirst hslot hshape (eq_false_of_ne_true hkind)
    · rename_i hshape
      cases he
      exact .silent hn hfirst hslot hshape

/-- Where all inputs fit, what the setup reports is a fault. -/
theorem exists_fault_of_startNode {reason : String} (hn : w.node? id = some n)
    (hfits : ∀ i, Fits w n i) (h : (startNode w id n).2 = some reason) :
    ∃ ran, Fault w id (.setup (w.nodePath id) reason) ran := by
  cases hrefusal : (n.type.setup (view w id n)).refusal with
  | some refusal =>
    rw [(startNode_refused hn hrefusal).1] at h
    cases h
    exact ⟨_, .refused hn hfits hrefusal⟩
  | none =>
    rw [(startNode_completed hn hrefusal).1, declarationFault?.eq_def] at h
    split at h
    · cases h
    · rename_i hproduces hshape
      split at h
      · cases h
      · rename_i hkind
        cases h
        exact ⟨_, .misdeclared hn hfits hrefusal hproduces hshape hkind⟩
    · rename_i hproduces hshape
      cases h
      exact ⟨_, .undeclared hn hfits hrefusal hproduces hshape⟩

/-- Whatever the setup of a node reports is a fault. -/
theorem exists_fault {e : BuildError} (h : (setUpNode w id).2 = some e) : ∃ ran, Fault w id e ran := by
  cases hn : w.node? id with
  | none =>
    rw [setUpNode, hn] at h
    cases h
  | some n =>
    cases hbad : badInput? w (w.nodePath id) n with
    | some bad =>
      rw [setUpNode, hn] at h
      simp only [hbad] at h
      cases h
      exact ⟨_, fault_of_badInput hn hbad⟩
    | none =>
      have hfits := (badInput?_eq_none_iff _).mp hbad
      rw [(setUpNode_of_fits hn hfits).1, Option.map_eq_some_iff] at h
      obtain ⟨reason, hreason, rfl⟩ := h
      exact exists_fault_of_startNode hn hfits hreason

/-- If nothing is reported, a node that is there is set up. -/
theorem setUpNode_fine (h : (setUpNode w id).2 = none) :
    Ran w (setUpNode w id).1 id ((w.node? id).map fun _ => true) := by
  cases hn : w.node? id with
  | none =>
    rw [setUpNode, hn]
    exact .untouched w id
  | some n =>
    have hfits : ∀ i, Fits w n i := by
      rw [← badInput?_eq_none_iff (w.nodePath id)]
      cases hbad : badInput? w (w.nodePath id) n with
      | none => rfl
      | some e =>
        rw [setUpNode, hn] at h
        simp only [hbad] at h
        cases h
    obtain ⟨hfailure, hkeeps⟩ := setUpNode_of_fits hn hfits
    cases hrefusal : (n.type.setup (view w id n)).refusal with
    | some reason =>
      rw [hfailure, (startNode_refused hn hrefusal).1] at h
      cases h
    | none => exact hkeeps _ (startNode_completed hn hrefusal).2

end FrameGraph.Schedule
