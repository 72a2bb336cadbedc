import FrameGraph.Proofs.Assembly.Precedence
import FrameGraph.Proofs.Assembly.Rewiring

/-!
# Once more

If nothing is wrong with a program, putting it together once more in the same scope makes nothing:
what it would make is there, and is reported as that. All its connections are made again, and since
every path leads to what it has led to, every slot ends with the source that it has already.
-/
namespace FrameGraph

namespace Assembly

open Script World

variable {w w' : World} {a : Assembly} {scope : ScopeId} {s : Statement}

/-! ## What is there already -/

theorem makeStep_connections (scope : ScopeId) (a : Assembly) (s : Statement) :
    (makeStep scope a s).connections = a.connections := by
  rw [makeStep]
  split
  · obtain ⟨w', problems | made⟩ := instantiate a.world scope a.definitions s
    · rfl
    · cases made <;> rfl
  · rfl

/-- A statement of the first pass that takes effect has made something. -/
theorem TakesEffect.makes (h : TakesEffect scope a (carryOut scope a s) s)
    (hs : s.instantiates = true) :
    ∃ made, Makes a.world (carryOut scope a s).world scope s made := by
  cases h with
  | node id makes => exact ⟨_, makes⟩
  | scope id makes => exact ⟨_, makes⟩
  | connection target source index connects reads diagnostics counts =>
    simp only [carryOut, if_pos hs, makeStep_connections, Prod.mk.injEq] at counts
    omega

theorem Makes.source_resolves {made : Made} (h : Makes w w' scope s made) :
    ∃ source, w.resolve scope s.source.names = some source := by
  cases h with
  | node source => exact ⟨_, source⟩
  | scope source => exact ⟨_, source⟩

/-- Source and target of a statement lead somewhere. -/
structure Standing (w : World) (scope : ScopeId) (s : Statement) : Prop where
  source : ∃ r, w.resolve scope s.source.names = some r
  target : ∃ r, w.resolve scope s.target.names = some r

/-- If nothing is reported, the sources and targets of what has been made lead somewhere in the
end. -/
theorem Ready.standing (ha : a.Ready) {statements : List Statement}
    (hsilent : (statements.foldl (Assembly.carryOut scope) a).diagnostics = a.diagnostics)
    (hmem : s ∈ statements) (hs : s.instantiates = true) :
    Standing (statements.foldl (Assembly.carryOut scope) a).world scope s := by
  obtain ⟨before, after, rfl⟩ := List.append_of_mem hmem
  have hbefore := ha.foldl scope before
  have hnow := hbefore.carryOut scope s
  obtain ⟨made, hmakes⟩ := ((ha.silent_iff scope _).mp hsilent before s after rfl).makes hs
  have hholds := carryOut_holds hbefore.tree scope s
  obtain ⟨source, hsource⟩ := hmakes.source_resolves
  obtain ⟨container, htarget⟩ := hmakes.resolve hholds
  rw [List.foldl_append, List.foldl_cons]
  exact ⟨⟨source, resolve_mono (hnow.foldl_holds scope after) (resolve_mono hholds hsource)⟩,
    ⟨_, resolve_mono (hnow.foldl_holds scope after) htarget⟩⟩

/-- Statements that would make what is there make nothing, and each of them is reported. -/
theorem foldl_makeStep_standing (ht : a.world.Tabled) (hnone : a.definitions = [])
    {statements : List Statement}
    (h : ∀ s ∈ statements, s.instantiates = true ∧ Standing a.world scope s) :
    statements.foldl (makeStep scope) a = a.report (statements.map (alreadyDefined · none)) := by
  induction statements using List.reverseRecOn with
  | nil => exact a.report_nil.symm
  | append_singleton statements s ih =>
    obtain ⟨hs, ⟨source, hsource⟩, r, htarget⟩ := h s (by simp)
    rw [List.foldl_concat, ih fun t ht => h t (List.mem_append_left _ ht), List.map_append,
      report_append, makeStep_taken (a := a.report _) ht hs hsource htarget, report_definitions, hnone]
    rfl

/-! ## Connecting again -/

theorem modifyNode_journal (w : World) (id : NodeId) (f : Node → Node) :
    (w.modifyNode id f).journal = w.journal := by
  rw [modifyNode]
  split <;> rfl

/-- The event says that the connection has been made. -/
def Announces (s : Statement) (e : Event) : Prop :=
  ∃ reader source, e = .connected reader s.target.last.name source

theorem connect_announces (h : connect w scope s = .ok w') :
    ∃ e, Announces s e ∧ w'.journal = w.journal.push e := by
  rw [connect] at h
  split at h
  · cases h
  · split at h
    · split at h
      · cases h
      · cases h
        exact ⟨_, ⟨_, _, rfl⟩, by rw [record, modifyNode_journal]⟩
    · split at h <;> cases h
    · cases h

/-- Connections with which nothing is wrong are all made, one after the other. -/
structure Reconnects (a b : Assembly) (statements : List Statement) : Prop where
  counts : (b.nodes, b.scopes, b.connections) =
    (a.nodes, a.scopes, a.connections + statements.length)
  journal : ∃ events, b.world.journal = a.world.journal ++ events.toArray ∧
    List.Forall₂ Announces statements events

theorem connectAll_reconnects (h : a.world.Equipped) {statements : List Statement}
    (hs : ∀ s ∈ statements, s.instantiates = false)
    (hfaultless : ∀ s ∈ statements, faults a.world scope s = []) :
    Reconnects a (connectAll scope a statements) statements := by
  induction statements using List.reverseRecOn with
  | nil => exact ⟨rfl, [], by simp [connectAll], .nil⟩
  | append_singleton statements s ih =>
    have hleft {t : Statement} (ht : t ∈ statements) := List.mem_append_left [s] ht
    have hbefore := connectAll_rewired h scope fun t ht => hs t (hleft ht)
    obtain ⟨hcounts, events, hjournal, hevents⟩ :=
      ih (fun t ht => hs t (hleft ht)) fun t ht => hfaultless t (hleft ht)
    have hnot : ¬s.instantiates = true := by simp [hs s (by simp)]
    have hclean : faults (connectAll scope a statements).world scope s = [] := by
      rw [faults_of_rewires hbefore.rewires]
      exact hfaultless s (by simp)
    rw [connectAll, List.foldl_concat, ← connectAll, connectStep, if_neg hnot]
    rw [faults] at hclean
    cases hconnect : connect (connectAll scope a statements).world scope s with
    | error problems =>
      rw [hconnect] at hclean
      exact absurd hclean (connect_error_ne_nil hbefore.equipped.occupied hconnect)
    | ok w' =>
      obtain ⟨e, he, hpush⟩ := connect_announces hconnect
      refine ⟨?_, events ++ [e], ?_, List.rel_append hevents (.cons he .nil)⟩
      · simp only [Prod.mk.injEq] at hcounts ⊢
        simp only [List.length_append, List.length_singleton]
        omega
      · rw [hpush, hjournal]
        simp

theorem lastSource?_of_rewires (h : Rewires w w') (scope : ScopeId) (statements : List Statement)
    (x : NodeId) (i : Nat) (previous : Option NodeId) :
    lastSource? w' scope statements x i previous = lastSource? w scope statements x i previous := by
  have hdrives : drives w' scope x i = drives w scope x i := funext fun _ => drives_of_rewires h x i
  simp only [lastSource?, hdrives, sourceOf?_of_rewires h]

/-- What the last connection has set is what it sets. -/
theorem lastSource?_idem (w : World) (scope : ScopeId) (statements : List Statement) (x : NodeId)
    (i : Nat) (previous : Option NodeId) :
    lastSource? w scope statements x i (lastSource? w scope statements x i previous) =
      lastSource? w scope statements x i previous := by
  simp only [lastSource?]
  cases (statements.filter (drives w scope x i)).getLast? <;> rfl

/-- In every world that can be reached from a new one, with setups that make things in their own
scope only, let nothing be reported of a program. Putting it together again in the same scope
reports each statement that makes something, as about a name that was taken before, and nothing else.
The first pass leaves the world as it is. The second makes every connection again, and in the end
all nodes and scopes are as they were: only that the connections were made has been written down. -/
theorem apply_again (journal : Array Event) (ops : List Operation)
    (hops : ∀ op ∈ ops, op.Confined) (scope : ScopeId) (p : Program)
    (hclean : (apply (ops.foldl Operation.run (World.new journal)) scope p).diagnostics = []) :
    let first := apply (ops.foldl Operation.run (World.new journal)) scope p
    let again := apply first.world scope p
    again.diagnostics = p.makings.map (alreadyDefined · none) ∧
      (again.nodes, again.scopes, again.connections) = (0, 0, p.connections.length) ∧
      (firstPass first.world scope p).world = first.world ∧
      again.world.nodes = first.world.nodes ∧ again.world.scopes = first.world.scopes ∧
      ∃ events, again.world.journal = first.world.journal ++ events.toArray ∧
        List.Forall₂ Announces p.connections events := by
  generalize hw : ops.foldl Operation.run (World.new journal) = w at hclean ⊢
  intro first again
  have hequipped : w.Equipped := hw ▸ ((Reachable.new journal).foldl_run ops).equipped
  have hready : (start w).Ready := ⟨hw ▸ (new_tree journal).foldl_run ops hops, hequipped.slotted⟩
  -- The first time
  have hmade := firstPass_equipped hequipped scope p
  have hfirst : Rewired scope (firstPass w scope p) first p.connections := by
    rw [show first = connectAll scope (firstPass w scope p) p.connections from
      apply_eq_connectAll w scope p]
    exact connectAll_rewired hmade scope p.not_instantiates
  have hfaultless (s : Statement) (hs : s ∈ p.connections) : faults first.world scope s = [] := by
    rw [faults_of_rewires hfirst.rewires]
    have hnil := hclean
    rw [show apply w scope p = first from rfl, hfirst.diagnostics] at hnil
    exact List.flatMap_eq_nil_iff.mp (List.append_eq_nil_iff.mp hnil).2 s hs
  have hstanding (s : Statement) (hs : s ∈ p.makings) :
      s.instantiates = true ∧ Standing first.world scope s := by
    have hsilent : ((order p).foldl (carryOut scope) (start w)).diagnostics = [] :=
      apply_eq w scope p ▸ hclean
    have hstands := hready.standing hsilent (List.mem_append_left _ hs) (p.instantiates s hs)
    rw [← apply_eq] at hstands
    exact ⟨p.instantiates s hs, hstands⟩
  -- The second time
  have hpass : firstPass first.world scope p =
      (start first.world).report (p.makings.map (alreadyDefined · none)) :=
    foldl_makeStep_standing (a := start first.world) hfirst.equipped.orderly.tabled rfl hstanding
  have hagain : again = connectAll scope (firstPass first.world scope p) p.connections :=
    apply_eq_connectAll first.world scope p
  generalize firstPass first.world scope p = made at hpass hagain ⊢
  have hworld : made.world = first.world := by rw [hpass]; rfl
  rw [← hworld] at hfaultless
  have hrewired := connectAll_rewired (hworld ▸ hfirst.equipped) scope p.not_instantiates
  have hreconnects := connectAll_reconnects (hworld ▸ hfirst.equipped) p.not_instantiates hfaultless
  rw [← hagain] at hrewired hreconnects
  refine ⟨?_, ?_, hworld, ?_, hworld ▸ hrewired.rewires.scopes, hworld ▸ hreconnects.journal⟩
  · rw [hrewired.diagnostics, List.flatMap_eq_nil_iff.mpr hfaultless, List.append_nil, hpass]
    rfl
  · rw [hreconnects.counts, hpass]
    exact congrArg (fun n => (0, 0, n)) (Nat.zero_add _)
  · rw [← hworld]
    refine hrewired.rewires.nodes_eq fun x i => ?_
    rw [hrewired.input?, hworld, lastSource?_of_rewires hfirst.rewires, hfirst.input?,
      lastSource?_idem]

/-- A room, two sources and a sink, whose input is connected to the one source and to the other. -/
def household : Program :=
  ⟨⟨⟨⟨"d", ⟨0, 0⟩⟩, []⟩, ⟨⟨"room", ⟨0, 0⟩⟩, []⟩, none, 0, 1⟩ ::
    (circuit [("from", "a"), ("from", "c")]).statements, ⟨0, 0⟩⟩

/-- The four that are there already are reported, and both connections are made again. -/
theorem apply_again_household :
    let first := apply furnished .root household
    let again := apply first.world .root household
    (∀ op ∈ furnish, op.Confined) ∧ first.diagnostics = [] ∧
      (first.nodes, first.scopes, first.connections) = (3, 1, 2) ∧
      again.diagnostics.map (·.code) = List.replicate 4 (some Code.alreadyDefined) ∧
      (again.nodes, again.scopes, again.connections) = (0, 0, 2) ∧
      again.world.nodes = first.world.nodes ∧
      again.world.journal.size = first.world.journal.size + 2 := by
  have hclean : (apply furnished .root household).diagnostics = [] := by decide +kernel
  obtain ⟨hdiagnostics, hcounts, -, hnodes, -, events, hjournal, hevents⟩ :=
    apply_again #[] furnish furnish_confined .root household hclean
  intro first again
  have hfirst : apply furnished .root household = first := rfl
  have hagain : apply first.world .root household = again := rfl
  rw [← furnished, hfirst, hagain] at hdiagnostics hcounts hnodes hjournal
  refine ⟨furnish_confined, hclean, by decide +kernel, ?_, hcounts, hnodes, ?_⟩
  · rw [hdiagnostics]
    decide +kernel
  · have hlength : events.length = 2 := hevents.length_eq.symm.trans rfl
    rw [hjournal, Array.size_append]
    exact congrArg (first.world.journal.size + ·) hlength

end Assembly

end FrameGraph
