import FrameGraph.Proofs.Schedule.Validation
import FrameGraph.Proofs.World.Moments
import FrameGraph.Proofs.World.Numbering

/-!
# Severed inputs

An input may go on naming a node that has been taken down. No other node is ever given that number,
however the history goes on, so the input reads nothing, and no schedule is built as long as a
gathered node has it. Histories are followed into the setups of scopes, also into those that fail.
Numbers fit into the 32 bits of an id as long as no more have been given out than there are words.
-/
namespace FrameGraph

open Relation (ReflTransGen)

namespace World

variable {w w' u : World} {self : ScopeId} {setup : Setup}

/-! ## Nodes at work -/

/-- A node is taken out of its place, changed by what it sees of the rest, and put back. -/
def withNode (w : World) (id : NodeId) (work : World → Node → Node) : World :=
  match w.node? id with
  | none => w
  | some n => (w.setNode id none).setNode id (some (work (w.setNode id none) n))

theorem withNode_nodes {id : NodeId} {n : Node} (hn : w.node? id = some n)
    (work : World → Node → Node) : (w.withNode id work).nodes =
      w.nodes.setIfInBounds id.index (some (work (w.setNode id none) n)) := by
  rw [withNode, hn]
  exact Array.setIfInBounds_setIfInBounds _

theorem withNode_moved (w : World) (id : NodeId) (work : World → Node → Node) :
    Moved w (w.withNode id work) := by
  cases hn : w.node? id with
  | none =>
    rw [withNode, hn]
    exact .refl w
  | some n =>
    have hscopes : (w.withNode id work).scopes = w.scopes := by rw [withNode, hn]; rfl
    have hnodes := withNode_nodes hn work
    refine .of_there (by rw [hnodes, Array.size_setIfInBounds]) (by rw [hscopes]) (fun x => ?_)
      fun x => by rw [scope?, scope?, hscopes]
    have hplace : (w.withNode id work).node? x =
        (w.setNode id (some (work (w.setNode id none) n))).node? x := by
      rw [node?, hnodes]
      rfl
    rw [hplace, node?_setNode]
    split
    · rename_i hx
      rw [hx.1, hn]
      rfl
    · rfl

end World

namespace Schedule

open World

variable {w : World} {id : NodeId} {n : Node}

/-- A node sees the same, whether it is in its place or not. -/
theorem view_apart (w : World) (id : NodeId) (n : Node) :
    view (w.setNode id none) id n = view w id n := by
  have hsource (s : NodeId) :
      (if s = id then none else ((w.setNode id none).node? s).bind Node.output?) =
        if s = id then none else (w.node? s).bind Node.output? := by
    rw [node?_setNode_none]
    split <;> rfl
  rw [view, view]
  simp only [hsource]
  rfl

theorem updateNode_nodes (w : World) (id : NodeId) : (updateNode w id).nodes =
    (w.withNode id fun rest n =>
      { n with state := (n.type.update (view rest id n)).state }).nodes := by
  cases hn : w.node? id with
  | none => rw [updateNode, withNode, hn]
  | some n =>
    rw [withNode_nodes hn, view_apart, updateNode, hn]
    simp [setNode]

theorem startNode_nodes (hn : w.node? id = some n) : (startNode w id n).1.nodes =
    (w.withNode id fun rest n =>
      let start := n.type.setup (view rest id n)
      { n with state := start.state, shape := start.shape,
               isSetUp := start.refusal.isNone || n.isSetUp }).nodes := by
  rw [withNode_nodes hn, view_apart, startNode]
  cases hrefusal : (n.type.setup (view w id n)).refusal with
  | none => simp [setNode, hrefusal]
  | some reason => simp [setNode, hrefusal]

end Schedule

namespace World

variable {w w' u : World} {self : ScopeId} {setup : Setup}

/-! ## Histories -/

/-- One world follows another: an operation has been carried out, a scope has been opened, its setup
has taken a step or has come to its end, or a node has been at work. -/
inductive Follows : World → World → Prop
  | run (w : World) (op : Operation) : Follows w (op.run w)
  | opened (w : World) (p : ScopeId) (name : String) (owner : ScopeId) (params : List Value)
    (type : ScopeType) : Follows w (w.opened p name owner params type)
  | step {w w' : World} {self : ScopeId} {setup next : Setup}
    (step : w.advance? self setup = some (w', next)) : Follows w w'
  | settled (w : World) (id p : ScopeId) (name typeName : String) :
    Follows w ((w.record (.life (.scopeSetUp id true))).settle id p name typeName).1
  | abandoned (w : World) (id : ScopeId) (name reason : String) :
    Follows w ((w.record (.life (.scopeSetUp id false))).abandon id name reason).1
  | withNode (w : World) (id : NodeId) (work : World → Node → Node) :
    Follows w (w.withNode id work)

/-- One world comes after another in a history. -/
def History : World → World → Prop := ReflTransGen Follows

theorem Follows.moved (h : Follows w w') : Moved w w' := by
  cases h with
  | run op => exact op.run_moved w
  | opened p name owner params type => exact .pushScope w _
  | step step =>
    obtain ⟨only, rfl⟩ := runSetup_of_step step
    exact runSetup_moved w _ only
  | settled id p name typeName => exact (Moved.record w _).trans (settle_moved _ _ _ _ _)
  | abandoned id name reason => exact (Moved.record w _).trans (release_moved _ _)
  | withNode id work => exact withNode_moved w id work

theorem History.moved (h : History w w') : Moved w w' := by
  induction h with
  | refl => exact .refl w
  | tail _ last ih => exact ih.trans last.moved

/-! ### Inside setups -/

theorem runSetup_history (w : World) (self : ScopeId) (setup : Setup) :
    History w (w.runSetup self setup).1 := by
  have hadvance {setup next : Setup} {w' : World} (hstep : w.advance? self setup = some (w', next))
      (hrest : History w' (w'.runSetup self next).1) : History w (w.runSetup self setup).1 := by
    rw [runSetup_of_advance? hstep]
    exact .head (.step hstep) hrest
  cases setup with
  | done => exact .refl
  | fail reason => exact .refl
  | look next =>
    rw [runSetup]
    split
    · exact runSetup_history w self _
    · exact .refl
  | say remark next => exact hadvance rfl (runSetup_history _ self next)
  | keep window next => exact hadvance rfl (runSetup_history _ self next)
  | defineNodeType location name type next => exact hadvance rfl (runSetup_history _ self (next _))
  | defineScopeType location name type next => exact hadvance rfl (runSetup_history _ self (next _))
  | makeNode location name type params next => exact hadvance rfl (runSetup_history _ self (next _))
  | makeScope location name type params next => exact hadvance rfl (runSetup_history _ self (next _))

/-- After its setup a scope is settled or abandoned. -/
theorem makeScope_history {p : ScopeId} {name : String} (hfree : w.isFree p name = true)
    (owner : ScopeId) (params : List Value) (type : ScopeType) :
    History ((w.opened p name owner params type).runSetup ⟨w.scopes.size⟩ type.setup).1
      (w.makeScope p name owner params type).1 := by
  rw [makeScope_of_isFree hfree]
  generalize runSetup _ _ type.setup = outcome
  obtain ⟨w', answer⟩ := outcome
  cases answer with
  | ok => exact .single (.settled _ _ _ _ _)
  | error reason => exact .single (.abandoned _ _ _ _)

/-- Whatever a setup passes through, also inside the setups that it starts, is in the history. -/
theorem SetupPasses.history (h : SetupPasses w self setup u) :
    History w u ∧ History u (w.runSetup self setup).1 := by
  induction h with
  | now => exact ⟨.refl, runSetup_history _ _ _⟩
  | later step _ ih =>
    rw [runSetup_of_advance? step]
    exact ⟨.head (.step step) ih.1, ih.2⟩
  | @inside w u self location name type params next isFree _ ih =>
    refine ⟨.head (.opened _ _ _ _ _ _) ih.1, ih.2.trans ?_⟩
    have hstep : w.advance? self (.makeScope location name type params next) = some _ := rfl
    rw [runSetup_of_advance? hstep]
    exact (makeScope_history isFree self params type).trans (runSetup_history _ _ _)

theorem MakingPasses.history {p : ScopeId} {name : String} {owner : ScopeId} {params : List Value}
    {type : ScopeType} (h : MakingPasses w p name owner params type u) :
    History w u ∧ History u (w.makeScope p name owner params type).1 := by
  obtain ⟨hfree, hpasses⟩ := h
  obtain ⟨hbefore, hafter⟩ := hpasses.history
  exact ⟨.head (.opened _ _ _ _ _ _) hbefore, hafter.trans (makeScope_history hfree owner params type)⟩

end World

/-! ## Inputs that read from nothing -/

namespace Schedule

open World

variable {w : World} {reader source : NodeId} {n : Node} {spec : InputSpec} {i : Nat}

/-- What is not there shows nothing. -/
theorem view_severed (hslot : n.wiring[i]? = some (spec, some source)) (hgone : w.node? source = none) :
    (view w reader n).output? i = none := by
  rw [NodeView.output?, view]
  simp [hslot, hgone]

/-- No schedule is built while an input of a gathered node reads from what is not there. -/
theorem build_severed (hreader : w.node? reader = some n)
    (hslot : n.wiring[i]? = some (spec, some source)) (hgone : w.node? source = none)
    (hmem : reader ∈ w.gather) (g : Schedule) : (build w).2 ≠ .ok g := by
  intro h
  obtain ⟨hsort, -, hfaultless, -⟩ := build_ok h
  obtain ⟨before, after, hsplit⟩ := List.append_of_mem (mem_of_sort hsort hmem)
  rw [hsplit] at hfaultless
  obtain ⟨m, hturn⟩ := Turn.of_faultless hfaultless (by rw [isThere, hreader]; rfl)
  have hwiring := setUpEach_wiring w before
  obtain ⟨n', hn', hbare⟩ := hwiring.node_of_node hturn.node
  rw [hreader] at hn'
  cases hn'
  rw [wiring_of_bare hbare] at hslot
  obtain ⟨shape, hshape, -⟩ := hturn.fits i spec source hslot
  obtain ⟨k, hk, -⟩ := Option.bind_eq_some_iff.mp hshape
  obtain ⟨k', hk', -⟩ := hwiring.node_of_node hk
  rw [hgone] at hk'
  cases hk'

end Schedule

/-! ## Numbers in a history -/

namespace World

open Schedule

variable {w : World} {nodes scopes : List Move}

/-- Numbers in words of 32 bits, as ids are kept: the numbers that have been given out are those below
the next one; while there are words for all of them each is its own word, and the next number has a
word that has not been given out. -/
structure HeldInWords (given : List Nat) (next : Nat) : Prop where
  below : given = List.range next
  exact : next ≤ UInt32.size → ∀ i ∈ given, (UInt32.ofNat i).toNat = i
  fresh : next < UInt32.size → UInt32.ofNat next ∉ given.map UInt32.ofNat

theorem heldInWords_range (next : Nat) : HeldInWords (List.range next) next := by
  have hexact (i : Nat) (hi : i < UInt32.size) : (UInt32.ofNat i).toNat = i :=
    UInt32.toNat_ofNat_of_lt hi
  refine ⟨rfl, fun hnext i hi => ?_, fun hnext hmem => ?_⟩
  · exact hexact i (Nat.lt_of_lt_of_le (List.mem_range.mp hi) hnext)
  · obtain ⟨i, hi, hword⟩ := List.mem_map.mp hmem
    have hlt : i < next := List.mem_range.mp hi
    have heq : i = next := by
      rw [← hexact i (Nat.lt_trans hlt hnext), hword, hexact next hnext]
    exact Nat.ne_of_lt hlt heq

/-- No number is given out twice, given the moves that have led to the world from a new one. -/
structure Unrepeated (w : World) (nodes scopes : List Move) : Prop where
  nodes_once : (takenPlaces nodes).Nodup
  /-- The root has had its number from the start. -/
  scopes_once : (ScopeId.root.index :: takenPlaces scopes).Nodup
  newNode : ∀ p name type owner params x, (w.makeNode p name type owner params).2 = .ok x →
    x.index = w.nodes.size ∧ x.index ∉ takenPlaces nodes
  newScope : ∀ p name owner params type x, (w.makeScope p name owner params type).2 = .ok x →
    x.index = w.scopes.size ∧ x.index ∉ ScopeId.root.index :: takenPlaces scopes
  /-- This is the number of a scope while it is being set up. -/
  opened : w.scopes.size ∉ ScopeId.root.index :: takenPlaces scopes
  /-- A node is not there because it has gone, or its number has not been given out yet. -/
  node_gone : ∀ x, w.node? x = none ↔ .left x.index ∈ nodes ∨ x.index ∉ takenPlaces nodes
  scope_gone : ∀ x, w.scope? x = none ↔
    .left x.index ∈ scopes ∨ x.index ∉ ScopeId.root.index :: takenPlaces scopes
  severed : ∀ reader n i spec source, w.node? reader = some n →
    n.wiring[i]? = some (spec, some source) → .left source.index ∈ nodes →
    (view w reader n).output? i = none ∧ (reader ∈ w.gather → ∀ g, (build w).2 ≠ .ok g)
  nodeWords : HeldInWords (takenPlaces nodes) w.nodes.size
  scopeWords : HeldInWords (ScopeId.root.index :: takenPlaces scopes) w.scopes.size

theorem unrepeated (journal : Array Event) (hnodes : Moves (World.new journal).nodes nodes w.nodes)
    (hscopes : Moves (World.new journal).scopes scopes w.scopes) : w.Unrepeated nodes scopes := by
  have hnode {i : Nat} : i ∈ takenPlaces nodes ↔ i < w.nodes.size := by
    rw [hnodes.mem_taken_iff]
    exact and_iff_right (Nat.zero_le i)
  have hscope {i : Nat} : i ∈ ScopeId.root.index :: takenPlaces scopes ↔ i < w.scopes.size := by
    have hsize : 1 ≤ w.scopes.size := hscopes.size_le
    have hstart : (World.new journal).scopes.size = 1 := rfl
    rw [List.mem_cons, hscopes.mem_taken_iff, hstart]
    show i = 0 ∨ _ ↔ _
    omega
  have hgone (x : NodeId) : w.node? x = none ↔ .left x.index ∈ nodes ∨ x.index ∉ takenPlaces nodes := by
    rw [hnode, Nat.not_lt]
    exact hnodes.empty_iff fun i hi => absurd hi (Nat.not_lt_zero i)
  refine ⟨hnodes.taken_nodup, ?_, fun p name type owner params x hx => ?_,
    fun p name owner params type x hx => ?_, mt hscope.mp (Nat.lt_irrefl _), hgone, fun x => ?_,
    fun reader n i spec source hreader hslot hleft => ?_, ?_, ?_⟩
  · refine List.nodup_cons.mpr ⟨fun hroot => ?_, hscopes.taken_nodup⟩
    exact Nat.not_succ_le_zero 0 (hscopes.mem_taken_iff.mp hroot).1
  · rw [makeNode_answer hx, hnode]
    exact ⟨rfl, Nat.lt_irrefl _⟩
  · rw [makeScope_answer hx, hscope]
    exact ⟨rfl, Nat.lt_irrefl _⟩
  · rw [hscope, Nat.not_lt]
    refine hscopes.empty_iff fun i hi => ?_
    rw [Nat.lt_one_iff.mp hi]
    exact Option.some_ne_none _
  · have hnone := (hgone source).mpr (.inl hleft)
    exact ⟨view_severed hslot hnone, build_severed hreader hslot hnone⟩
  · obtain ⟨k, hsize, htaken⟩ := hnodes.taken_eq
    rw [htaken, hsize, show (World.new journal).nodes.size = 0 from rfl, Nat.zero_add,
      ← List.range_eq_range']
    exact heldInWords_range k
  · obtain ⟨k, hsize, htaken⟩ := hscopes.taken_eq
    have hall : ScopeId.root.index :: List.range' 1 k = List.range (1 + k) := by
      rw [Nat.add_comm, List.range_eq_range', List.range'_succ]
      rfl
    rw [htaken, hsize, show (World.new journal).scopes.size = 1 from rfl, hall]
    exact heldInWords_range (1 + k)

/-- Numbers are never used again. Whatever history leads to a world, the nodes and scopes that it has
made and lost are told by moves; however it goes on, more moves follow these, none of them gives out a
number again, what has left stays away, and an input that reads from what has left reads nothing.
Ids hold their number in 32 bits, so this is said of ids as long as at most `2 ^ 32` nodes and as many
scopes have been made. -/
theorem history_unrepeated (journal : Array Event) (h : History (.new journal) w) :
    ∃ nodes scopes, Moves (World.new journal).nodes nodes w.nodes ∧
      Moves (World.new journal).scopes scopes w.scopes ∧ w.Unrepeated nodes scopes ∧
      ∀ w', History w w' → ∃ nodes' scopes', Moves w.nodes nodes' w'.nodes ∧
        Moves w.scopes scopes' w'.scopes ∧
        w'.Unrepeated (nodes ++ nodes') (scopes ++ scopes') := by
  obtain ⟨⟨nodes, hnodes⟩, ⟨scopes, hscopes⟩⟩ := h.moved
  refine ⟨nodes, scopes, hnodes, hscopes, unrepeated journal hnodes hscopes, fun w' hafter => ?_⟩
  obtain ⟨⟨nodes', hnodes'⟩, ⟨scopes', hscopes'⟩⟩ := History.moved hafter
  exact ⟨nodes', scopes', hnodes', hscopes',
    unrepeated journal (hnodes.trans hnodes') (hscopes.trans hscopes')⟩

/-- A copier outside a scope reads from a counter inside it, and the scope is taken down. -/
def dangling : World :=
  let w := Operation.run (.new #[]) (.change (.makeScope .root "box" (.plain "group") .root []))
  let w := Operation.run w (.change (.makeNode ⟨1⟩ "counter" counter .root []))
  let w := Operation.run w (.change (.makeNode .root "copier" copier .root []))
  let w := w.withNode ⟨1⟩ fun _ n => n.connect 0 ⟨0⟩
  Operation.run w (.change (.destroyScope ⟨1⟩))

/-- Another counter is made, in the root. -/
def recounted : World :=
  Operation.run dangling (.change (.makeNode .root "counter" counter .root []))

theorem history_unrepeated_dangling :
    History (.new #[]) dangling ∧ History dangling recounted ∧
      (∃ nodes scopes, Moves (World.new #[]).nodes nodes dangling.nodes ∧
        Moves (World.new #[]).scopes scopes dangling.scopes ∧ dangling.Unrepeated nodes scopes ∧
        ∀ w', History dangling w' → ∃ nodes' scopes', Moves dangling.nodes nodes' w'.nodes ∧
          Moves dangling.scopes scopes' w'.scopes ∧
          w'.Unrepeated (nodes ++ nodes') (scopes ++ scopes')) ∧
      (recounted.node? ⟨1⟩).bind (·.input? 0) = some ⟨0⟩ ∧ (recounted.node? ⟨0⟩).isNone = true ∧
      (recounted.node? ⟨2⟩).isSome = true ∧ recounted.gather = [⟨1⟩, ⟨2⟩] ∧
      (build recounted).2.isOk = false := by
  have hdangling : History (.new #[]) dangling := by
    unfold dangling
    exact .head (.run _ _) <| .head (.run _ _) <| .head (.run _ _) <|
      .head (.withNode _ _ _) <| .single (.run _ _)
  exact ⟨hdangling, .single (.run _ _), history_unrepeated #[] hdangling, by decide +kernel,
    by decide +kernel, by decide +kernel, by decide +kernel, by decide +kernel⟩

end World

end FrameGraph
