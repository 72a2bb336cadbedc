import FrameGraph.Proofs.Assembly.Account
import FrameGraph.Proofs.World.Occupancy
import FrameGraph.Proofs.World.Resolution

/-!
# The pass over connections

Connecting changes what inputs read from and nothing else, and what is wrong with a connection does
not depend on what any input reads from. So every connection has the same slot, the same source and
the same faults as it has right after the first pass, whatever connections come before it, and in
the end every slot holds the source of the last connection without faults that targets it.
-/
namespace FrameGraph

/-- The statements that make something. -/
def Script.Program.makings (p : Script.Program) : List Script.Statement :=
  p.statements.filter Script.Statement.instantiates

/-- The statements that connect. -/
def Script.Program.connections (p : Script.Program) : List Script.Statement :=
  p.statements.filter (!Script.Statement.instantiates ·)

theorem Script.Program.instantiates (p : Script.Program) :
    ∀ s ∈ p.makings, s.instantiates = true := fun _ hs => (List.mem_filter.mp hs).2

theorem Script.Program.not_instantiates (p : Script.Program) :
    ∀ s ∈ p.connections, s.instantiates = false := by
  intro s hs
  simpa using (List.mem_filter.mp hs).2

/-- A node is what it is without its connections, and these. -/
theorem Node.eq_of_disconnect {n m : Node} (h : n.disconnect = m.disconnect)
    (hinputs : ∀ i, n.input? i = m.input? i) : n = m := by
  have hlength : n.inputs.length = m.inputs.length := by
    simpa [disconnect] using congrArg (List.length ∘ Node.inputs) h
  have hsame : n.inputs = m.inputs := by
    refine List.ext_getElem hlength fun i hi hi' => ?_
    simpa [input?, hi, hi'] using hinputs i
  cases n
  cases m
  simp only [disconnect, mk.injEq] at h hsame ⊢
  exact ⟨h.1, h.2.1, h.2.2.1, h.2.2.2.1, hsame, h.2.2.2.2.2⟩

theorem Node.connect_disconnect (n : Node) (index : Nat) (source : NodeId) :
    (n.connect index source).disconnect = n.disconnect := by
  have hmap : (n.inputs.set index (some source)).map (fun _ => (none : Option NodeId)) =
      n.inputs.map fun _ => none := by
    rw [List.map_const', List.map_const', List.length_set]
  rw [disconnect, connect, disconnect, hmap]

namespace World

variable {w w' w'' : World}

/-- What an input of a node reads from. -/
def input? (w : World) (x : NodeId) (i : Nat) : Option NodeId := (w.node? x).bind (·.input? i)

/-- The worlds are the same but for what inputs read from, and for what is written down. -/
structure Rewires (w w' : World) : Prop where
  scopes : w'.scopes = w.scopes
  nodes : w'.nodes.size = w.nodes.size
  node : ∀ x, (w'.node? x).map Node.disconnect = (w.node? x).map Node.disconnect

namespace Rewires

theorem refl (w : World) : Rewires w w := ⟨rfl, rfl, fun _ => rfl⟩

theorem trans (h : Rewires w w') (h' : Rewires w' w'') : Rewires w w'' :=
  ⟨h'.scopes.trans h.scopes, h'.nodes.trans h.nodes, fun x => (h'.node x).trans (h.node x)⟩

theorem symm (h : Rewires w w') : Rewires w' w :=
  ⟨h.scopes.symm, h.nodes.symm, fun x => (h.node x).symm⟩

theorem resolve (h : Rewires w w') (scope : ScopeId) (path : List String) :
    w'.resolve scope path = w.resolve scope path :=
  resolve_of_scopes h.scopes scope path

theorem type (h : Rewires w w') (x : NodeId) :
    (w'.node? x).map Node.type = (w.node? x).map Node.type := by
  simpa [Function.comp_def, Node.disconnect] using congrArg (Option.map Node.type) (h.node x)

/-- If the inputs read from the same nodes, so much is the same that only events may differ. -/
theorem nodes_eq (h : Rewires w w') (hinputs : ∀ x i, w'.input? x i = w.input? x i) :
    w'.nodes = w.nodes := by
  have hnode (x : NodeId) : w'.node? x = w.node? x := by
    have hx := h.node x
    have hinput (i : Nat) := hinputs x i
    simp only [World.input?] at hinput
    cases hn : w.node? x with
    | none =>
      rw [hn] at hx
      exact Option.map_eq_none_iff.mp hx
    | some n =>
      rw [hn, Option.map_some, Option.map_eq_some_iff] at hx
      obtain ⟨n', hn', hdisconnect⟩ := hx
      rw [hn, hn'] at hinput
      rw [hn', Node.eq_of_disconnect hdisconnect hinput]
  have hplaces := eq_append_of_placed? (Nat.le_of_eq h.nodes.symm) fun i => hnode ⟨i⟩
  rwa [h.nodes, Nat.sub_self, Array.replicate_zero, Array.append_empty] at hplaces

end Rewires

/-- New nodes read from nothing. -/
theorem Grows.input? (h : Grows w w') (x : NodeId) (i : Nat) : w'.input? x i = w.input? x i := by
  rw [World.input?, World.input?]
  obtain hlt | hle := Nat.lt_or_ge x.index w.nodes.size
  · rw [h.node x hlt]
  · rw [node?_of_size_le hle, Option.bind_none]
    cases hn : w'.node? x with
    | none => rfl
    | some n => exact (h.new x n hle hn).input? i

end World

namespace Assembly

open Script World

variable {w w' : World} {scope : ScopeId} {s : Statement}

/-! ## One connection -/

/-- What is wrong with a connection. -/
def faults (w : World) (scope : ScopeId) (s : Statement) : List Diagnostic :=
  match connect w scope s with
  | .error problems => problems
  | .ok _ => []

/-- The node to which the source of a connection leads. -/
def sourceOf? (w : World) (scope : ScopeId) (s : Statement) : Option NodeId :=
  match w.resolve scope s.source.names with
  | some ⟨.node x, _⟩ => some x
  | _ => none

/-- The input to which the target of a connection leads: that of a node, with an index. -/
def slot? (w : World) (scope : ScopeId) (s : Statement) : Option (NodeId × Nat) :=
  match w.resolve scope s.target.leading with
  | some ⟨.node x, _⟩ =>
    ((w.node? x).bind fun n => inputIndex? n.type.inputs s.target.last.name).map fun i => (x, i)
  | _ => none

/-- The connection targets the input of a node, and nothing is wrong with it. -/
def drives (w : World) (scope : ScopeId) (x : NodeId) (i : Nat) (s : Statement) : Bool :=
  slot? w scope s = some (x, i) ∧ faults w scope s = []

theorem Connects.slot?_eq {target source : NodeId} {index : Nat}
    (h : Connects w w' scope s target source index) : slot? w scope s = some (target, index) := by
  obtain ⟨c, hreader⟩ := h.reader
  obtain ⟨t, n, spec, kind, ht, -, hslot⟩ := h.slot
  simp only [slot?, hreader, ht, Option.bind_some, hslot.named, Option.map_some]

theorem Connects.sourceOf?_eq {target source : NodeId} {index : Nat}
    (h : Connects w w' scope s target source index) : sourceOf? w scope s = some source := by
  obtain ⟨c, hshown⟩ := h.shown
  have hnames : s.source.names = [s.source.last.name] := by
    rw [s.source.names_eq, Path.leading_of_isSimple h.single, List.nil_append]
  simp only [sourceOf?, hnames, hshown]

theorem Connects.rewires {target source : NodeId} {index : Nat}
    (h : Connects w w' scope s target source index) : Rewires w w' := by
  refine ⟨h.scopes, h.nodes, fun x => ?_⟩
  rw [h.node]
  split
  · rename_i hx
    rw [hx, Option.map_map]
    exact Option.map_congr fun n _ => n.connect_disconnect index source
  · rfl

/-- The input reads from the source, and the other inputs from what they have read from. -/
theorem Connects.input? {target source : NodeId} {index : Nat}
    (h : Connects w w' scope s target source index) (hslots : w.Slotted) (x : NodeId) (i : Nat) :
    w'.input? x i = if x = target ∧ i = index then some source else w.input? x i := by
  obtain ⟨t, n, spec, kind, ht, -, hslot⟩ := h.slot
  rw [World.input?, World.input?, h.node]
  by_cases hx : x = target
  · have hindex : index < t.inputs.length := by
      rw [hslots target t ht]
      exact (List.getElem?_eq_some_iff.mp hslot.there).1
    simp only [hx, if_pos, ht, Option.map_some, Option.bind_some, Node.input?_connect, hindex,
      and_true, true_and]
  · simp only [hx, if_false, false_and]

/-- What the second pass does about a connection: it is made if nothing is wrong with it, and
otherwise what is wrong is reported. -/
theorem connectStep_outcome {a : Assembly} (h : a.world.Equipped) (scope : ScopeId)
    (hs : s.instantiates = false) :
    (connectStep scope a s).diagnostics = a.diagnostics ++ faults a.world scope s ∧
      Rewires a.world (connectStep scope a s).world ∧
      ∀ x i, (connectStep scope a s).world.input? x i =
        if drives a.world scope x i s then sourceOf? a.world scope s else a.world.input? x i := by
  have hnot : ¬s.instantiates = true := by simp [hs]
  rw [connectStep, if_neg hnot]
  cases hconnect : connect a.world scope s with
  | error problems =>
    have hfaults : faults a.world scope s = problems := by rw [faults, hconnect]
    have hne := connect_error_ne_nil h.occupied hconnect
    refine ⟨by rw [hfaults], .refl _, fun x i => ?_⟩
    rw [if_neg (by simp [drives, hfaults, hne])]
  | ok w' =>
    have hfaults : faults a.world scope s = [] := by rw [faults, hconnect]
    obtain ⟨target, source, index, hconnects⟩ := connect_ok hconnect
    refine ⟨by rw [hfaults, List.append_nil], hconnects.rewires, fun x i => ?_⟩
    rw [hconnects.input? h.slotted, hconnects.sourceOf?_eq]
    refine if_congr ?_ rfl rfl
    simp only [drives, hconnects.slot?_eq, hfaults, Option.some.injEq, Prod.mk.injEq, and_true,
      decide_eq_true_eq]
    exact and_congr eq_comm eq_comm

/-! ## What does not depend on the inputs -/

theorem slotFor_congr {target target' source source' : Node} (htarget : target'.type = target.type)
    (hsource : source'.type = source.type) : slotFor s target' source' = slotFor s target source := by
  rw [slotFor, slotFor, htarget, hsource]

section Rewired

variable (h : Rewires w w')

include h

theorem endpoints_of_rewires : endpoints w' scope s = endpoints w scope s := by
  simp only [endpoints_eq, lookupNode, h.resolve]

theorem faults_of_rewires : faults w' scope s = faults w scope s := by
  rw [faults, faults, connect, connect, endpoints_of_rewires h]
  cases endpoints w scope s with
  | error d => rfl
  | ok ends =>
    obtain ⟨target, source⟩ := ends
    have htarget := h.type target
    have hsource := h.type source
    cases ht : w.node? target with
    | none =>
      rw [ht, Option.map_none, Option.map_eq_none_iff] at htarget
      simp only [ht, htarget]
    | some t =>
      rw [ht, Option.map_some, Option.map_eq_some_iff] at htarget
      obtain ⟨t', ht', htype⟩ := htarget
      cases hn : w.node? source with
      | none =>
        rw [hn, Option.map_none, Option.map_eq_none_iff] at hsource
        simp only [ht, ht', hn, hsource, htype]
      | some n =>
        rw [hn, Option.map_some, Option.map_eq_some_iff] at hsource
        obtain ⟨n', hn', htype'⟩ := hsource
        simp only [ht, ht', hn, hn', slotFor_congr (s := s) htype htype']
        cases slotFor s t n <;> rfl

theorem sourceOf?_of_rewires : sourceOf? w' scope s = sourceOf? w scope s := by
  simp only [sourceOf?, h.resolve]

theorem slot?_of_rewires : slot? w' scope s = slot? w scope s := by
  have hindex (x : NodeId) (name : String) (w : World) :
      ((w.node? x).bind fun n => inputIndex? n.type.inputs name) =
        ((w.node? x).map Node.type).bind fun t => inputIndex? t.inputs name := by
    rw [Option.bind_map]
    rfl
  simp only [slot?, h.resolve, hindex, h.type]

theorem drives_of_rewires (x : NodeId) (i : Nat) :
    drives w' scope x i s = drives w scope x i s := by
  rw [drives, drives, slot?_of_rewires h, faults_of_rewires h]

end Rewired

/-! ## All connections -/

/-- What there is after the first pass. -/
def firstPass (w : World) (scope : ScopeId) (p : Program) : Assembly :=
  p.makings.foldl (makeStep scope) (start w)

/-- The second pass over some connections. -/
def connectAll (scope : ScopeId) (a : Assembly) (statements : List Statement) : Assembly :=
  statements.foldl (connectStep scope) a

theorem apply_eq_connectAll (w : World) (scope : ScopeId) (p : Program) :
    apply w scope p = connectAll scope (firstPass w scope p) p.connections := by
  have hmake : p.makings.foldl (carryOut scope) (start w) = firstPass w scope p :=
    List.foldl_ext _ _ _ fun a s hs => if_pos (p.instantiates s hs)
  have hconnect (a : Assembly) : p.connections.foldl (carryOut scope) a =
      connectAll scope a p.connections :=
    List.foldl_ext _ _ _ fun a s hs => if_neg (by simp [p.not_instantiates s hs])
  rw [apply_eq, show order p = p.makings ++ p.connections from rfl, List.foldl_append, hmake,
    hconnect]

theorem firstPass_grows (w : World) (scope : ScopeId) (p : Program) :
    GrowsOrderly w (firstPass w scope p).world :=
  List.foldlRecOn (motive := fun a : Assembly => GrowsOrderly w a.world) p.makings _ (.refl w)
    fun a ha s _ => ha.trans (makeStep_grows scope a s)

theorem firstPass_equipped (h : w.Equipped) (scope : ScopeId) (p : Program) :
    (firstPass w scope p).world.Equipped :=
  List.foldlRecOn (motive := fun a : Assembly => a.world.Equipped) p.makings _ h
    fun _ ha s _ => makeStep_equipped ha scope s

/-- The source of the last of some connections that sets an input, or else what the input has read
from before. -/
def lastSource? (w : World) (scope : ScopeId) (statements : List Statement) (x : NodeId) (i : Nat)
    (previous : Option NodeId) : Option NodeId :=
  match (statements.filter (drives w scope x i)).getLast? with
  | some s => sourceOf? w scope s
  | none => previous

theorem lastSource?_concat (w : World) (scope : ScopeId) (statements : List Statement)
    (s : Statement) (x : NodeId) (i : Nat) (previous : Option NodeId) :
    lastSource? w scope (statements ++ [s]) x i previous =
      if drives w scope x i s then sourceOf? w scope s
      else lastSource? w scope statements x i previous := by
  rw [lastSource?, List.filter_append, List.filter_singleton]
  cases drives w scope x i s with
  | false =>
    rw [cond_false, List.append_nil]
    rfl
  | true =>
    rw [cond_true, List.getLast?_concat]
    rfl

/-- What the second pass comes to, in terms of the world in which it starts. -/
structure Rewired (scope : ScopeId) (a b : Assembly) (statements : List Statement) : Prop where
  equipped : b.world.Equipped
  rewires : Rewires a.world b.world
  diagnostics : b.diagnostics = a.diagnostics ++ statements.flatMap (faults a.world scope)
  input? : ∀ x i, b.world.input? x i =
    lastSource? a.world scope statements x i (a.world.input? x i)

theorem connectAll_rewired {a : Assembly} (h : a.world.Equipped) (scope : ScopeId)
    {statements : List Statement} (hs : ∀ s ∈ statements, s.instantiates = false) :
    Rewired scope a (connectAll scope a statements) statements := by
  induction statements using List.reverseRecOn with
  | nil => exact ⟨h, .refl _, (List.append_nil _).symm, fun _ _ => rfl⟩
  | append_singleton statements s ih =>
    have hbefore := ih fun t ht => hs t (List.mem_append_left _ ht)
    obtain ⟨hdiagnostics, hrewires, hinput⟩ :=
      connectStep_outcome hbefore.equipped scope (hs s (by simp))
    rw [connectAll, List.foldl_concat, ← connectAll]
    refine ⟨connectStep_equipped hbefore.equipped scope s, hbefore.rewires.trans hrewires, ?_,
      fun x i => ?_⟩
    · rw [hdiagnostics, hbefore.diagnostics, faults_of_rewires hbefore.rewires, List.append_assoc,
        List.flatMap_append, List.flatMap_singleton]
    · rw [hinput, drives_of_rewires hbefore.rewires, sourceOf?_of_rewires hbefore.rewires,
        lastSource?_concat, hbefore.input?]

/-! ## Other orders -/

/-- Which connection sets an input last depends only on the order of those that target it. -/
theorem lastSource?_of_slots {statements statements' : List Statement} {x : NodeId} {i : Nat}
    (h : statements'.filter (slot? w scope · = some (x, i)) =
      statements.filter (slot? w scope · = some (x, i))) (previous : Option NodeId) :
    lastSource? w scope statements' x i previous = lastSource? w scope statements x i previous := by
  have hdrives (statements : List Statement) : statements.filter (drives w scope x i) =
      (statements.filter (slot? w scope · = some (x, i))).filter (faults w scope · = []) := by
    rw [List.filter_filter]
    refine List.filter_congr fun s _ => ?_
    rw [drives, Bool.decide_and, Bool.and_comm]
  rw [lastSource?, lastSource?, hdrives, hdrives, h]

/-- Of connections with different slots at most one targets an input, so their order is of no
matter. -/
theorem filter_slot_of_perm {block block' : List Statement} (hperm : block'.Perm block)
    (hslots : (block.filterMap (slot? w scope)).Nodup) (slot : NodeId × Nat) :
    block'.filter (slot? w scope · = some slot) = block.filter (slot? w scope · = some slot) := by
  have hone : (block.filter (slot? w scope · = some slot)).length ≤ 1 := by
    rw [← List.countP_eq_length_filter]
    have hcount := List.nodup_iff_count_le_one.mp hslots slot
    rw [List.count_filterMap] at hcount
    refine Nat.le_trans (Nat.le_of_eq (List.countP_congr fun s _ => ?_)) hcount
    simp
  have hfilter := hperm.filter (slot? w scope · = some slot)
  generalize block.filter (slot? w scope · = some slot) = targeting at hone hfilter
  match targeting, hone with
  | [], _ => exact hfilter.eq_nil
  | [s], _ => exact List.perm_singleton.mp hfilter

theorem firstPass_congr {p q : Program} (h : q.makings = p.makings) :
    firstPass w scope q = firstPass w scope p := by
  rw [firstPass, firstPass, h]

/-- If every input has the same last source, the nodes are the same in the end. -/
theorem Rewired.nodes_eq {a b b' : Assembly} {statements statements' : List Statement}
    (h : Rewired scope a b statements) (h' : Rewired scope a b' statements')
    (hslots : ∀ slot, statements'.filter (slot? a.world scope · = some slot) =
      statements.filter (slot? a.world scope · = some slot)) : b'.world.nodes = b.world.nodes := by
  refine (h.rewires.symm.trans h'.rewires).nodes_eq fun x i => ?_
  rw [h'.input?, h.input?, lastSource?_of_slots (hslots (x, i))]

/-- A connection with which nothing is wrong has a slot and a source. -/
theorem slot_source_of_faultless (h : w.Occupied) (hs : faults w scope s = []) :
    ∃ x i source, slot? w scope s = some (x, i) ∧ sourceOf? w scope s = some source := by
  rw [faults] at hs
  cases hconnect : connect w scope s with
  | error problems =>
    rw [hconnect] at hs
    exact absurd hs (connect_error_ne_nil h hconnect)
  | ok w' =>
    obtain ⟨target, source, index, hconnects⟩ := connect_ok hconnect
    exact ⟨target, index, source, hconnects.slot?_eq, hconnects.sourceOf?_eq⟩

/-- In every world that there can be, connecting comes to this. Every slot holds the source of the
last connection that targets it and is not reported, or else what it held before the program;
everything else is as the first pass has left it. What is reported of a connection does not depend
on the others. So if the connections come in another order, the same is reported of them, and if
those that target one slot come in the same order, in particular if only connections with different
slots change places, the nodes and scopes are the same in the end. -/
theorem apply_wiring {w : World} (hw : w.Reachable) (scope : ScopeId) (p : Program) :
    let made := firstPass w scope p
    let r := apply w scope p
    (∀ x i, r.world.input? x i =
      lastSource? made.world scope p.connections x i (w.input? x i)) ∧
    (∀ s, faults made.world scope s = [] →
      ∃ x i source, slot? made.world scope s = some (x, i) ∧
        sourceOf? made.world scope s = some source) ∧
    Rewires made.world r.world ∧
    r.diagnostics = made.diagnostics ++ p.connections.flatMap (faults made.world scope) ∧
    (∀ before s after, p.connections = before ++ s :: after →
      (connectStep scope (connectAll scope made before) s).diagnostics =
        (connectAll scope made before).diagnostics ++ faults made.world scope s) ∧
    ∀ q : Program, q.makings = p.makings → q.connections.Perm p.connections →
      (∃ ds ds', r.diagnostics = made.diagnostics ++ ds ∧
        (apply w scope q).diagnostics = made.diagnostics ++ ds' ∧ ds'.Perm ds) ∧
      ((∀ slot, q.connections.filter (slot? made.world scope · = some slot) =
          p.connections.filter (slot? made.world scope · = some slot)) →
        (apply w scope q).world.nodes = r.world.nodes ∧
          (apply w scope q).world.scopes = r.world.scopes) ∧
      ∀ front block block' back, p.connections = front ++ block ++ back →
        q.connections = front ++ block' ++ back → block'.Perm block →
        (block.filterMap (slot? made.world scope)).Nodup →
        (apply w scope q).world.nodes = r.world.nodes ∧
          (apply w scope q).world.scopes = r.world.scopes := by
  intro made r
  have hmade : made.world.Equipped := firstPass_equipped hw.equipped scope p
  have hgrows : Grows w made.world := (firstPass_grows w scope p hw.orderly).2
  have hr : Rewired scope made r p.connections := by
    rw [show r = connectAll scope made p.connections from apply_eq_connectAll w scope p]
    exact connectAll_rewired hmade scope p.not_instantiates
  refine ⟨fun x i => ?_, fun s => slot_source_of_faultless hmade.occupied, hr.rewires,
    hr.diagnostics, fun before s after hsplit => ?_, fun q hmakings hperm => ?_⟩
  · rw [hr.input?, hgrows.input?]
  · have hall : ∀ t ∈ before ++ s :: after, t.instantiates = false := by
      rw [← hsplit]
      exact p.not_instantiates
    have hbefore := connectAll_rewired hmade scope
      fun t ht => hall t (List.mem_append_left _ ht)
    rw [(connectStep_outcome hbefore.equipped scope (hall s (by simp))).1,
      faults_of_rewires hbefore.rewires]
  · have hq : Rewired scope made (apply w scope q) q.connections := by
      rw [apply_eq_connectAll, firstPass_congr hmakings]
      exact connectAll_rewired hmade scope q.not_instantiates
    have hsame (hslots : ∀ slot, q.connections.filter (slot? made.world scope · = some slot) =
        p.connections.filter (slot? made.world scope · = some slot)) :
        (apply w scope q).world.nodes = r.world.nodes ∧
          (apply w scope q).world.scopes = r.world.scopes :=
      ⟨hr.nodes_eq hq hslots, hq.rewires.scopes.trans hr.rewires.scopes.symm⟩
    refine ⟨⟨_, _, hr.diagnostics, hq.diagnostics, hperm.flatMap_right _⟩, hsame,
      fun front block block' back hp hq' hblock hslots => hsame fun slot => ?_⟩
    simp only [hp, hq', List.filter_append, filter_slot_of_perm hblock hslots slot]

/-- Makes two sources and a sink, and connects them in the given order: the input of the sink to the
one source and to the other, and an input that there is not. -/
def circuit (order : List (String × String)) : Program :=
  let path (head : String) (tail : List String) : Script.Path :=
    ⟨⟨head, ⟨0, 0⟩⟩, tail.map (⟨·, ⟨0, 0⟩⟩)⟩
  let statement (target source : Script.Path) : Statement := ⟨target, source, none, 0, 1⟩
  ⟨[statement (path "a" []) (path "source" []), statement (path "c" []) (path "source" []),
    statement (path "b" []) (path "sink" [])] ++
    order.map fun (input, source) => statement (path "b" [input]) (path source []), ⟨0, 0⟩⟩

/-- The second connection to the one input counts, and it may change places with the one to the
input that there is not. -/
theorem apply_wiring_circuit :
    let p := circuit [("from", "a"), ("from", "c"), ("to", "a")]
    let q := circuit [("from", "a"), ("to", "a"), ("from", "c")]
    furnished.Reachable ∧ (apply furnished .root p).world.input? ⟨2⟩ 0 = some ⟨1⟩ ∧
      (p.connections.map (faults (firstPass furnished .root p).world .root)).map List.length =
        [0, 0, 1] ∧
      q.makings = p.makings ∧ q.connections.Perm p.connections ∧
      (apply furnished .root q).world.nodes = (apply furnished .root p).world.nodes := by
  intro p q
  have hreachable : furnished.Reachable := (Reachable.new #[]).foldl_run furnish
  obtain ⟨hinput, -, -, -, -, hother⟩ := apply_wiring hreachable .root p
  have hlast : lastSource? (firstPass furnished .root p).world .root p.connections ⟨2⟩ 0
      (furnished.input? ⟨2⟩ 0) = some ⟨1⟩ := by decide +kernel
  have hperm : q.connections.Perm p.connections := by decide +kernel
  obtain ⟨-, -, hblocks⟩ := hother q rfl hperm
  have hnodes := hblocks (p.connections.take 1) (p.connections.drop 1) (q.connections.drop 1) []
    (by decide +kernel) (by decide +kernel) (by decide +kernel) (by decide +kernel)
  exact ⟨hreachable, (hinput ⟨2⟩ 0).trans hlast, by decide +kernel, rfl, hperm, hnodes.1⟩

end Assembly

end FrameGraph
