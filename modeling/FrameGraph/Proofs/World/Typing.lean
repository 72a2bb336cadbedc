import FrameGraph.Proofs.Assembly.Connections
import FrameGraph.Proofs.Behaviour.Conformity
import FrameGraph.Proofs.World.Inputs
import FrameGraph.Proofs.World.Shrinking

/-!
# Typing

Every node and every scope has the values that its schema asks for, and every connected input reads
from a node whose output it accepts, as long as the node is there. An id is not used again, so an
input whose node has been taken down never reads from another one. The setups of scopes may make
members wherever they want, if only these get values that conform.
-/
namespace FrameGraph

namespace World

variable {w w' w'' : World}

/-! ## Values -/

/-- The values of all nodes and scopes conform, and the setups of all types that are known do. -/
structure Schematic (w : World) : Prop where
  node : ∀ x n, w.node? x = some n → Conforms n.type.params n.params
  scope : ∀ x s, w.scope? x = some s → Conforms s.type.params s.params
  types : ∀ p name t, w.Holds p name (.scopeType t) → ScopeType.Conforming t

/-- What is left of a world, or what it has become. -/
theorem Schematic.of_old (h : w.Schematic)
    (hnode : ∀ x n', w'.node? x = some n' →
      ∃ n, w.node? x = some n ∧ n.type = n'.type ∧ n.params = n'.params)
    (hscope : ∀ x s', w'.scope? x = some s' → ∃ s, w.scope? x = some s ∧ s.bare = s'.bare)
    (htypes : ∀ p name t, w'.Holds p name (.scopeType t) → w.Holds p name (.scopeType t)) :
    w'.Schematic := by
  refine ⟨fun x n' hn' => ?_, fun x s' hs' => ?_, fun p name t ht => h.types p name t (htypes _ _ _ ht)⟩
  · obtain ⟨n, hn, htype, hparams⟩ := hnode x n' hn'
    rw [← htype, ← hparams]
    exact h.node x n hn
  · obtain ⟨s, hs, hbare⟩ := hscope x s' hs'
    have htype : s.type = s'.type := congrArg (·.type) hbare
    have hparams : s.params = s'.params := congrArg (·.params) hbare
    rw [← htype, ← hparams]
    exact h.scope x s hs

theorem bare_of_scope {x : ScopeId} {s' : Scope}
    (hbare : (w'.scope? x).map Scope.bare = (w.scope? x).map Scope.bare)
    (hs' : w'.scope? x = some s') : ∃ s, w.scope? x = some s ∧ s.bare = s'.bare := by
  rw [hs', Option.map_some, eq_comm, Option.map_eq_some_iff] at hbare
  exact hbare

/-- The nodes are the same, the scopes up to what their setups change, and so are the entries. -/
theorem Schematic.same (h : w.Schematic) (hnodes : w'.nodes = w.nodes)
    (hbare : ∀ x, (w'.scope? x).map Scope.bare = (w.scope? x).map Scope.bare)
    (hholds : ∀ p name m, w'.Holds p name m → w.Holds p name m) : w'.Schematic :=
  h.of_old (fun x n' hn' => ⟨n', by rw [← hn', node?, node?, hnodes], rfl, rfl⟩)
    (fun x _ => bare_of_scope (hbare x)) fun p name _ => hholds p name _

theorem Schematic.record (h : w.Schematic) (e : Event) : (w.record e).Schematic :=
  h.same rfl (fun _ => rfl) fun _ _ _ => id

theorem Schematic.modifyBare (h : w.Schematic) (id : ScopeId) {f : Scope → Scope}
    (hf : ∀ s, (f s).bare = s.bare ∧ (f s).members = s.members) :
    (w.modifyScope id f).Schematic := by
  refine h.same (w.modifyScope_nodes id f) (fun x => ?_) fun p name m =>
    ((SameTree.modifyBare w id hf).holds p name m).mp
  rw [scope?_modifyScope]
  by_cases hx : x = id
  · rw [if_pos hx, hx, Option.map_map]
    exact Option.map_congr fun s _ => (hf s).1
  · rw [if_neg hx]

theorem Schematic.insertMember (h : w.Schematic) (ht : w.Tabled) {p : ScopeId} {name : String}
    {m : Member} (hm : ∀ t, m = .scopeType t → ScopeType.Conforming t)
    (hinsert : w.insertMember p name m = .ok w') : w'.Schematic := by
  obtain ⟨e, herror⟩ | ⟨added, hok, hadds⟩ := insertMember_cases ht p name m
  · rw [herror] at hinsert
    cases hinsert
  · rw [hok] at hinsert
    cases hinsert
    refine ⟨fun x n hn => h.node x n (by rw [← hadds.node, hn]), fun x s hs => ?_,
      fun q n t hq => ?_⟩
    · obtain ⟨s', hs', hbare⟩ := bare_of_scope (insertMember_bare hok x) hs
      have htype : s'.type = s.type := congrArg (·.type) hbare
      have hparams : s'.params = s.params := congrArg (·.params) hbare
      rw [← htype, ← hparams]
      exact h.scope x s' hs'
    · obtain hold | ⟨-, -, rfl⟩ := (hadds.holds q n _).mp hq
      · exact h.types q n t hold
      · exact hm t rfl

theorem Schematic.shrinks (h : w.Schematic) (hw : Shrinks w w') : w'.Schematic :=
  h.of_old (fun x n hn => ⟨n, hw.node x n hn, rfl, rfl⟩) hw.scope fun p name _ => hw.holds p name _

theorem makeNode_schematic (h : w.Schematic) (ht : w.Tabled) (p : ScopeId) (name : String)
    {type : NodeType} (owner : ScopeId) {params : List Value} (hparams : Conforms type.params params) :
    (w.makeNode p name type owner params).1.Schematic := by
  rw [makeNode]
  split
  · have hpushed : Schematic
        { w with nodes := w.nodes.push (some (.new name type owner p params)) } := by
      refine ⟨fun x n hn => ?_, h.scope, h.types⟩
      rw [node?_push] at hn
      split at hn
      · cases hn
        exact hparams
      · exact h.node x n hn
    dsimp only
    split
    · exact hpushed
    · rename_i w' hinsert
      exact (hpushed.insertMember ht (fun t hm => by cases hm) hinsert).record _
  · exact h

theorem define_schematic (h : w.Schematic) (ht : w.Tabled) (p : ScopeId) (name : String)
    {m : Member} (hm : ∀ t, m = .scopeType t → ScopeType.Conforming t) :
    (w.define p name m).1.Schematic := by
  rw [define]
  split
  · exact h
  · rename_i w' hinsert
    exact h.insertMember ht hm hinsert

/-- The scope that is being set up has a place, and it is of a type with this schema. -/
structure Within (w : World) (specs : List ParamSpec) (id : ScopeId) : Prop where
  there : id.index < w.scopes.size
  schema : ∀ s, w.scope? id = some s → s.type.params = specs

theorem Within.grows {specs : List ParamSpec} {id : ScopeId} (h : w.Within specs id)
    (hw : Grows w w') : w'.Within specs id := by
  refine ⟨Nat.lt_of_lt_of_le h.there hw.scopes, fun s' hs' => ?_⟩
  obtain ⟨s, hs, hbare⟩ := bare_of_scope (hw.scope id h.there) hs'
  have htype : s.type = s'.type := congrArg (·.type) hbare
  rw [← htype]
  exact h.schema s hs

/-- Whatever the program does in the scope, the values of all that is there conform. -/
def KeepsSchematic (specs : List ParamSpec) (setup : Setup) : Prop :=
  ∀ (w : World) (id : ScopeId), w.Orderly → w.Schematic → w.Within specs id →
    (w.runSetup id setup).1.Schematic

/-- It goes on like this from a world that has grown. -/
theorem KeepsSchematic.after {specs : List ParamSpec} {next : Setup} (h : KeepsSchematic specs next)
    {id : ScopeId} (hid : w.Within specs id) (ho : w.Orderly) (hgrows : GrowsOrderly w w')
    (hw' : w'.Schematic) : (w'.runSetup id next).1.Schematic := by
  obtain ⟨ho', hgrown⟩ := hgrows ho
  exact h w' id ho' hw' (hid.grows hgrown)

theorem makeScope_schematic (h : w.Schematic) (ho : w.Orderly) (p : ScopeId) (name : String)
    (owner : ScopeId) {params : List Value} {type : ScopeType}
    (hparams : Conforms type.params params) (hsetup : KeepsSchematic type.params type.setup) :
    (w.makeScope p name owner params type).1.Schematic := by
  rw [makeScope_eq]
  split
  · dsimp only
    generalize hscope : Scope.new name type (some owner) (some p) params = scope
    have hmembers : scope.members = .empty := by rw [← hscope]; rfl
    have htype : scope.type = type := by rw [← hscope]; rfl
    have hvalues : scope.params = params := by rw [← hscope]; rfl
    have hsize : (w.scopes.push (some scope)).size = w.scopes.size + 1 := Array.size_push _
    have hnew : World.scope? { w with scopes := w.scopes.push (some scope) } ⟨w.scopes.size⟩ =
        some scope := (scope?_push w _ _).trans (if_pos rfl)
    have hpushed : Schematic { w with scopes := w.scopes.push (some scope) } := by
      refine ⟨h.node, fun x s hs => ?_, fun q n t hq => h.types q n t ((holds_push hmembers q n _).mp hq)⟩
      rw [scope?_push] at hs
      split at hs
      · cases hs
        rwa [htype, hvalues]
      · exact h.scope x s hs
    have hwithin : Within { w with scopes := w.scopes.push (some scope) } type.params
        ⟨w.scopes.size⟩ := by
      refine ⟨Nat.lt_of_lt_of_eq (Nat.lt_succ_self _) hsize.symm, fun s hs => ?_⟩
      rw [hnew] at hs
      cases hs
      rw [htype]
    have hordered := ho.pushScope hmembers
    obtain ⟨hset, -⟩ := runSetup_grows _ ⟨w.scopes.size⟩ type.setup hordered
    have hdone := hsetup _ _ hordered hpushed hwithin
    generalize runSetup _ _ type.setup = outcome at hset hdone ⊢
    obtain ⟨w', answer⟩ := outcome
    cases answer with
    | ok done =>
      have hready := (hdone.record (.life (.scopeSetUp ⟨w.scopes.size⟩ true))).modifyBare
        ⟨w.scopes.size⟩ (f := fun s => { s with isSetUp := true }) fun s => ⟨rfl, rfl⟩
      have htabled := (hset.record (.life (.scopeSetUp ⟨w.scopes.size⟩ true))).sameTree
        (.modifyBare _ ⟨w.scopes.size⟩ (f := fun s => { s with isSetUp := true })
          fun s => ⟨rfl, rfl⟩) (Nat.le_of_eq (by rw [modifyScope_nodes]))
      dsimp only
      rw [settle]
      split
      · exact hready
      · rename_i hinsert
        exact (hready.insertMember htabled.tabled (fun t hm => by cases hm) hinsert).record _
    | error reason => exact (hdone.record _).shrinks (release_shrinks (hset.record _).ranked _)
  · exact h

/-- A setup that conforms does so. -/
theorem keepsSchematic {specs : List ParamSpec} {setup : Setup} (h : setup.Conforming specs) :
    KeepsSchematic specs setup := by
  induction h with
  | done =>
    intro w id ho hw hid
    rwa [runSetup]
  | fail =>
    intro w id ho hw hid
    rwa [runSetup]
  | look _ ih =>
    intro w id ho hw hid
    rw [runSetup]
    split
    · rename_i s hs
      have hvalues := hw.scope id s hs
      rw [hid.schema s hs] at hvalues
      refine ih _ s.params hvalues ?_ w id ho hw hid
      rw [viewScope, hid.schema s hs]
    · exact hw
  | @say specs remark next _ ih =>
    intro w id ho hw hid
    rw [runSetup]
    exact ih.after hid ho (.record w _) (hw.record _)
  | @keep specs window next _ ih =>
    intro w id ho hw hid
    rw [runSetup]
    have hkept : ∀ s : Scope, ({ s with window := some window }).bare = s.bare ∧
        ({ s with window := some window }).members = s.members := fun s => ⟨rfl, rfl⟩
    exact ih.after hid ho (.modifyScope w id hkept) (hw.modifyBare id hkept)
  | @defineNodeType specs location name type next _ ih =>
    intro w id ho hw hid
    rw [runSetup]
    exact (ih _).after hid ho (define_grows w _ name rfl)
      (define_schematic hw ho.tabled _ name fun t hm => by cases hm)
  | @defineScopeType specs location name type next htype _ _ ih =>
    intro w id ho hw hid
    rw [runSetup]
    exact (ih _).after hid ho (define_grows w _ name rfl)
      (define_schematic hw ho.tabled _ name fun t ht => by cases ht; exact htype)
  | @makeNode specs location name type params next hparams _ ih =>
    intro w id ho hw hid
    rw [runSetup]
    exact (ih _).after hid ho (makeNode_grows w _ name type id params)
      (makeNode_schematic hw ho.tabled _ name id hparams)
  | @makeScope specs location name type params next hparams _ _ ihtype ih =>
    intro w id ho hw hid
    rw [runSetup]
    exact (ih _).after hid ho (makeScope_grows w _ name id params type)
      (makeScope_schematic hw ho _ name id hparams ihtype)

/-! ## Connections -/

/-- The input of a reader of the type reads from a place that has been given out, and if the node is
still there it shows what the input accepts. -/
def Accepts (w : World) (type : NodeType) (i : Nat) (source : NodeId) : Prop :=
  source.index < w.nodes.size ∧ ∀ m, w.node? source = some m →
    ∃ spec kind, type.inputs[i]? = some spec ∧ m.type.produces = some kind ∧
      spec.accepts kind = true

/-- Nodes and scopes are as their types say. -/
structure Typed (w : World) : Prop where
  slotted : w.Slotted
  schematic : w.Schematic
  accepted : ∀ x n i source, w.node? x = some n → n.input? i = some source →
    w.Accepts n.type i source

theorem Accepts.of_old {type : NodeType} {i : Nat} {source : NodeId}
    (h : w.Accepts type i source) (hsize : w.nodes.size ≤ w'.nodes.size)
    (hnode : ∀ m', w'.node? source = some m' →
      ∃ m, w.node? source = some m ∧ m.type = m'.type) : w'.Accepts type i source := by
  refine ⟨Nat.lt_of_lt_of_le h.1 hsize, fun m' hm' => ?_⟩
  obtain ⟨m, hm, htype⟩ := hnode m' hm'
  rw [← htype]
  exact h.2 m hm

namespace Typed

/-- What is there was there with the same type and values, and with no other connections. -/
theorem of_old (h : w.Typed) (hsize : w.nodes.size ≤ w'.nodes.size)
    (hnode : ∀ x n', w'.node? x = some n' → ∃ n, w.node? x = some n ∧ n.type = n'.type ∧
      n.params = n'.params ∧ n'.inputs.length = n.inputs.length ∧
      ∀ i source, n'.input? i = some source → n.input? i = some source)
    (hscope : ∀ x s', w'.scope? x = some s' → ∃ s, w.scope? x = some s ∧ s.bare = s'.bare)
    (hholds : ∀ p name m, w'.Holds p name m → w.Holds p name m) : w'.Typed := by
  refine ⟨h.slotted.of_nodes fun x n' hn' => ?_,
    h.schematic.of_old (fun x n' hn' => ?_) hscope fun p name _ => hholds p name _,
    fun x n' i source hn' hi => ?_⟩
  · obtain ⟨n, hn, htype, -, hlength, -⟩ := hnode x n' hn'
    exact ⟨n, hn, htype.symm, hlength⟩
  · obtain ⟨n, hn, htype, hparams, -⟩ := hnode x n' hn'
    exact ⟨n, hn, htype, hparams⟩
  · obtain ⟨n, hn, htype, -, -, hinputs⟩ := hnode x n' hn'
    rw [← htype]
    refine (h.accepted x n i source hn (hinputs i source hi)).of_old hsize fun m' hm' => ?_
    obtain ⟨m, hm, hsame, -⟩ := hnode source m' hm'
    exact ⟨m, hm, hsame⟩

theorem shrinks (h : w.Typed) (hw : Shrinks w w') : w'.Typed :=
  h.of_old hw.nodes (fun x n hn => ⟨n, hw.node x n hn, rfl, rfl, rfl, fun _ _ hi => hi⟩) hw.scope
    hw.holds

/-- What is new is without connections, and no id of it is known yet. -/
theorem grows (h : w.Typed) (hw : Grows w w') (hs : w'.Schematic) : w'.Typed := by
  refine ⟨h.slotted.grows hw, hs, fun x n i source hn hi => ?_⟩
  obtain hlt | hle := Nat.lt_or_ge x.index w.nodes.size
  · rw [hw.node x hlt] at hn
    have haccepted := h.accepted x n i source hn hi
    refine haccepted.of_old hw.nodes fun m hm => ⟨m, ?_, rfl⟩
    rw [← hm, hw.node source haccepted.1]
  · rw [(hw.new x n hle hn).input?] at hi
    cases hi

end Typed

end World

namespace Assembly

open Script World

variable {w w' : World} {scope : ScopeId} {s : Statement}

/-- A connection that is made is of an input to a node that shows what it accepts. -/
theorem Connects.typed {target source : NodeId} {index : Nat}
    (h : Connects w w' scope s target source index) (hw : w.Typed) : w'.Typed := by
  obtain ⟨t, n, spec, kind, ht, hn, hslot⟩ := h.slot
  have hnode : ∀ x m', w'.node? x = some m' → ∃ m, w.node? x = some m ∧ m.type = m'.type ∧
      m.params = m'.params ∧ m'.inputs.length = m.inputs.length := by
    intro x m' hm'
    rw [h.node] at hm'
    split at hm'
    · rename_i hx
      obtain ⟨m, hm, rfl⟩ := Option.map_eq_some_iff.mp hm'
      exact ⟨m, by rw [hx, hm], rfl, rfl, List.length_set⟩
    · exact ⟨m', hm', rfl, rfl, rfl⟩
  have htypes : ∀ x m', w'.node? x = some m' → ∃ m, w.node? x = some m ∧ m.type = m'.type := by
    intro x m' hm'
    obtain ⟨m, hm, htype, -⟩ := hnode x m' hm'
    exact ⟨m, hm, htype⟩
  have hsize := Nat.le_of_eq h.nodes.symm
  refine ⟨hw.slotted.of_nodes fun x m' hm' => ?_, hw.schematic.of_old (fun x m' hm' => ?_)
    (fun x s hs => ⟨s, by rwa [scope?, ← h.scopes], rfl⟩)
    fun p name _ => (h.sameTree.holds p name _).mp, fun x m' i b hm' hi => ?_⟩
  · obtain ⟨m, hm, htype, -, hlength⟩ := hnode x m' hm'
    exact ⟨m, hm, htype.symm, hlength⟩
  · obtain ⟨m, hm, htype, hparams, -⟩ := hnode x m' hm'
    exact ⟨m, hm, htype, hparams⟩
  · obtain ⟨m, hm, htype, hinputs⟩ := h.node_of_node hm'
    rw [← htype]
    obtain hold | ⟨rfl, rfl, rfl⟩ := hinputs i b hi
    · exact (hw.accepted x m i b hm hold).of_old hsize (htypes b)
    · rw [ht] at hm
      cases hm
      refine World.Accepts.of_old ⟨lt_size_of_node? hn, fun k hk => ?_⟩ hsize (htypes b)
      rw [hn] at hk
      cases hk
      exact ⟨spec, kind, hslot.there, hslot.produces, hslot.accepts⟩

/-- A statement makes instances of the types that are known, with values that conform. -/
theorem MadeFrom.schematic (h : MadeFrom w s w') (hw : w.Schematic) (ho : w.Orderly) :
    w'.Schematic := by
  cases h with
  | same => exact hw
  | node p name type owner params values =>
    exact makeNode_schematic hw ho.tabled p name owner (Signature.values_conform values)
  | scope p name owner params type values known =>
    obtain ⟨typeName, hheld⟩ := known
    exact makeScope_schematic hw ho p name owner (Signature.values_conform values)
      (keepsSchematic (hw.types _ typeName type hheld))

end Assembly

/-! ## Whatever is done -/

namespace World

open Assembly Script

variable {w w' : World}

/-- The entries are orderly, and nodes and scopes are as their types say. -/
structure Regular (w : World) : Prop where
  orderly : w.Orderly
  typed : w.Typed

namespace Regular

theorem grows (h : w.Regular) (hw : GrowsOrderly w w') (hs : w'.Schematic) : w'.Regular := by
  obtain ⟨horderly, hgrows⟩ := hw h.orderly
  exact ⟨horderly, h.typed.grows hgrows hs⟩

theorem shrinks (h : w.Regular) (hw : Shrinks w w') : w'.Regular :=
  ⟨hw.orderly h.orderly, h.typed.shrinks hw⟩

theorem apply (h : w.Regular) (scope : ScopeId) (p : Program) : (apply w scope p).world.Regular :=
  apply_keeps (fun a s ha => ha.grows (makeStep_grows scope a s)
      ((makeStep_madeFrom scope a s).schematic ha.typed.schematic ha.orderly))
    (fun hconnects ha => ⟨hconnects.orderly ha.orderly, hconnects.typed ha.typed⟩) h p

theorem installEntry {p : Catalog.Populating} (h : p.1.Regular) (scope : ScopeId)
    {entry : CatalogEntry}
    (hentry : ∀ t, entry = .scopeType t ∨ entry = .plugin t → ScopeType.Conforming t) :
    (Catalog.installEntry scope p entry).1.Regular := by
  refine h.grows (Catalog.installEntry_grows scope p entry) ?_
  cases entry with
  | nodeType t =>
    rw [Catalog.installEntry, Catalog.installType_world]
    exact define_schematic h.typed.schematic h.orderly.tabled _ _ fun t hm => by cases hm
  | scopeType t =>
    rw [Catalog.installEntry, Catalog.installType_world]
    exact define_schematic h.typed.schematic h.orderly.tabled _ _
      fun u hm => by cases hm; exact hentry t (.inl rfl)
  | plugin t =>
    rw [Catalog.installEntry, Catalog.installPlugin_world]
    exact makeScope_schematic h.typed.schematic h.orderly _ _ _ (.defaults t.params)
      (keepsSchematic (hentry t (.inr rfl)))

theorem populate (h : w.Regular) {c : Catalog} (hc : c.Conforming) (scope : ScopeId) :
    (c.populate w scope).1.Regular := by
  refine List.foldlRecOn (motive := fun p : Catalog.Populating => p.1.Regular) c.entries _ h
    fun p hp entry hentry => hp.installEntry scope ?_
  rintro t (rfl | rfl)
  · exact hc.1 t (by simpa [Catalog.entries] using hentry)
  · exact hc.2 t (by simpa [Catalog.entries] using hentry)

end Regular

theorem new_regular (journal : Array Event) : (World.new journal).Regular := by
  refine ⟨Forest.orderly (new_tree journal), new_slotted journal, ⟨fun x n hn => ?_, fun x s hs => ?_,
    fun p name t ht => ?_⟩, fun x n i source hn => ?_⟩
  · cases hn
  · rw [scope?_new] at hs
    split at hs
    · cases hs
      exact .nil
    · cases hs
  · obtain ⟨s, hs, hm⟩ := ht
    rw [scope?_new] at hs
    split at hs
    · cases hs
      exact absurd ((Table.get?_eq_some_iff Table.empty_valid.sound _).mp hm) List.not_mem_nil
    · cases hs
  · cases hn

end World

namespace Change

open World

/-- The values and the setups that the change brings into the world conform. -/
def Conforming : Change → Prop
  | populate catalog _ => catalog.Conforming
  | makeNode _ _ type _ params => Conforms type.params params
  | makeScope _ _ type _ params => Conforms type.params params ∧ type.Conforming
  | apply .. | destroyScope _ | clear => True

theorem run_regular {w : World} (hw : w.Regular) (c : Change) (hc : c.Conforming) :
    (c.run w).Regular := by
  cases c with
  | populate catalog scope => exact hw.populate hc scope
  | apply scope program => exact hw.apply scope program
  | makeNode parent name type owner params =>
    exact hw.grows (makeNode_grows w parent name type owner params)
      (makeNode_schematic hw.typed.schematic hw.orderly.tabled parent name owner hc)
  | makeScope parent name type owner params =>
    exact hw.grows (makeScope_grows w parent name owner params type)
      (makeScope_schematic hw.typed.schematic hw.orderly parent name owner hc.1
        (keepsSchematic hc.2))
  | destroyScope id => exact hw.shrinks (destroyScope_shrinks hw.orderly.ranked id)
  | clear => exact hw.shrinks (clear_shrinks hw.orderly.ranked)

theorem foldl_run_regular {w : World} (hw : w.Regular) (cs : List Change)
    (hcs : ∀ c ∈ cs, c.Conforming) : (cs.foldl run w).Regular :=
  List.foldlRecOn (motive := World.Regular) cs _ hw
    fun _ hw c hc => run_regular hw c (hcs c hc)

end Change

namespace World

/-- In every world that is made from a new one, where the setups of scopes give values that conform
but may make members anywhere, nodes and scopes are as their types say: every node has one place for
each input and one value for each parameter, of its type, every scope has its values too, and what a
connected input reads from shows what the input accepts, unless it is gone. So the index under which
a parameter is looked up is never out of range. -/
theorem reached_typed (journal : Array Event) (changes : List Change)
    (hchanges : ∀ c ∈ changes, c.Conforming) :
    let w := changes.foldl Change.run (World.new journal)
    w.Typed ∧
    (∀ x n name i, w.node? x = some n → paramIndex? n.type.params name = some i →
      ∃ spec v, n.type.params[i]? = some spec ∧ spec.name = name ∧ n.params[i]? = some v ∧
        v.type = spec.type) ∧
    ∀ x s name i, w.scope? x = some s → paramIndex? s.type.params name = some i →
      ∃ spec v, s.type.params[i]? = some spec ∧ spec.name = name ∧ s.params[i]? = some v ∧
        v.type = spec.type := by
  intro w
  have htyped : w.Typed :=
    (Change.foldl_run_regular (new_regular journal) changes hchanges).typed
  exact ⟨htyped, fun x n name i hn => (htyped.schematic.node x n hn).indexed,
    fun x s name i hs => (htyped.schematic.scope x s hs).indexed⟩

/-- A gain is given as an integer where the schema has a real, what it feeds is connected, and a
window beside them is opened and taken down. -/
def gainAndWindow : List Change :=
  let gain : NodeType := { name := "gain", params := [⟨"by", .real 0⟩], produces := some .surface }
  let sink : NodeType := { name := "sink", inputs := [⟨"from", true, some .surface⟩] }
  let name (text : String) : Script.Identifier := ⟨text, ⟨0, 0⟩⟩
  let statement (target : Script.Path) (source : String)
      (arguments : Option (List Script.Assignment)) : Script.Statement :=
    ⟨target, ⟨name source, []⟩, arguments, 0, 1⟩
  [.populate Window.catalog .root, .populate ⟨[gain, sink], [], []⟩ .root,
    .apply .root ⟨[statement ⟨name "w", []⟩ "window" none,
      statement ⟨name "a", []⟩ "gain" (some [⟨name "by", ⟨.integer 2, ⟨0, 0⟩⟩⟩]),
      statement ⟨name "b", []⟩ "sink" none,
      statement ⟨name "b", [name "from"]⟩ "a" none], ⟨0, 0⟩⟩,
    .destroyScope ⟨1⟩]

theorem reached_typed_gainAndWindow :
    (∀ c ∈ gainAndWindow, c.Conforming) ∧
      let w := gainAndWindow.foldl Change.run (World.new #[])
      w.Typed ∧ (w.node? ⟨1⟩).map (·.params.map Value.type) = some [.real] ∧
      (w.node? ⟨2⟩).bind (·.input? 0) = some ⟨1⟩ ∧ (w.node? ⟨0⟩).isNone = true := by
  have hconforming : ∀ c ∈ gainAndWindow, c.Conforming := by
    refine List.forall_mem_cons.mpr ⟨Window.catalog_conforming, ?_⟩
    simp [Change.Conforming, Catalog.Conforming]
  exact ⟨hconforming, (reached_typed #[] gainAndWindow hconforming).1, by decide +kernel,
    by decide +kernel, by decide +kernel⟩

end World

end FrameGraph
