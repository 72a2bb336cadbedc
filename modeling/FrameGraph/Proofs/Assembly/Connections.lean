import FrameGraph.Proofs.World.Growth

/-!
# Connections

A statement connects an input only to a node that shows what the input accepts, and only to one held
by the scope in which the statement stands, above the node that reads. As long as nothing is taken
down this stays true of all connections, since making members changes neither the types of nodes nor
where they are held.
-/
namespace FrameGraph

theorem Node.input?_connect (n : Node) (index : Nat) (source : NodeId) (i : Nat) :
    (n.connect index source).input? i =
      if i = index ∧ index < n.inputs.length then some source else n.input? i := by
  rw [input?, connect, List.getElem?_set]
  by_cases hi : index = i
  · subst hi
    by_cases hlength : index < n.inputs.length
    · simp [hlength]
    · simp [hlength, input?]
  · rw [if_neg hi, if_neg fun h => hi h.1.symm, input?]

namespace Assembly

open Script World

variable {w w' : World} {scope : ScopeId} {s : Statement}

theorem resolve_single {name : String} {r : Resolved} (h : w.resolve scope [name] = some r) :
    r.container = scope := by
  simp only [resolve, Option.bind_eq_bind, Option.bind_eq_some_iff] at h
  obtain ⟨t, -, m, -, hr⟩ := h
  cases hr
  rfl

theorem lookupNode_ok {path : List String} {span : Span} {id : NodeId}
    (h : lookupNode w scope s path span = .ok id) :
    ∃ container, w.resolve scope path = some ⟨.node id, container⟩ := by
  rw [lookupNode] at h
  cases hr : w.resolve scope path with
  | none => simp [hr] at h
  | some r =>
    obtain ⟨member, container⟩ := r
    cases member with
    | node x =>
      simp only [hr, Except.ok.injEq] at h
      exact ⟨container, by rw [h]⟩
    | scope x => simp [hr] at h
    | nodeType t => simp [hr] at h
    | scopeType t => simp [hr] at h

theorem endpoints_eq (w : World) (scope : ScopeId) (s : Statement) : endpoints w scope s =
    if s.source.isSimple then
      match lookupNode w scope s s.target.leading s.target.span with
      | .error d => .error d
      | .ok target =>
        match lookupNode w scope s [s.source.last.name] s.source.span with
        | .error d => .error d
        | .ok source => .ok (target, source)
    else .error (compoundSource s) := by
  rw [endpoints]
  cases s.source.isSimple with
  | false => rfl
  | true =>
    cases lookupNode w scope s s.target.leading s.target.span with
    | error d => rfl
    | ok target => cases lookupNode w scope s [s.source.last.name] s.source.span <;> rfl

theorem endpoints_ok {target source : NodeId} (h : endpoints w scope s = .ok (target, source)) :
    s.source.isSimple = true ∧ (∃ c, w.resolve scope s.target.leading = some ⟨.node target, c⟩) ∧
      ∃ c, w.resolve scope [s.source.last.name] = some ⟨.node source, c⟩ := by
  rw [endpoints_eq] at h
  split at h
  · rename_i hsimple
    split at h
    · cases h
    · rename_i htarget
      split at h
      · cases h
      · rename_i hsource
        cases h
        exact ⟨hsimple, lookupNode_ok htarget, lookupNode_ok hsource⟩
  · cases h

/-- The input of a node may read from a source of a type: it is the first with the name that the
statement gives, and it accepts what the source shows. -/
structure Slot (s : Statement) (target source : NodeType) (index : Nat) (spec : InputSpec)
    (kind : OutputKind) : Prop where
  named : inputIndex? target.inputs s.target.last.name = some index
  there : target.inputs[index]? = some spec
  produces : source.produces = some kind
  accepts : spec.accepts kind = true

theorem slotFor_ok {target source : Node} {index : Nat} (h : slotFor s target source = .ok index) :
    ∃ spec kind, Slot s target.type source.type index spec kind := by
  rw [slotFor] at h
  split at h
  · cases h
  · rename_i spec i hfind
    split at h
    · cases h
    · rename_i kind hkind
      split at h
      · rename_i haccepts
        cases h
        have hnamed : inputIndex? target.type.inputs s.target.last.name = some index := by
          rw [inputIndex?, List.findIdx?_eq_fst_find?_zipIdx]
          exact congrArg (Option.map Prod.snd) hfind
        have hthere := List.mk_mem_zipIdx_iff_getElem?.mp (List.mem_of_find?_eq_some hfind)
        exact ⟨spec, kind, hnamed, hthere, hkind, haccepts⟩
      · cases h

/-- The statement has connected an input of one node to another, and nothing else has changed. -/
structure Connects (w w' : World) (scope : ScopeId) (s : Statement) (target source : NodeId)
    (index : Nat) : Prop where
  single : s.source.isSimple = true
  reader : ∃ c, w.resolve scope s.target.leading = some ⟨.node target, c⟩
  shown : ∃ c, w.resolve scope [s.source.last.name] = some ⟨.node source, c⟩
  slot : ∃ t n spec kind, w.node? target = some t ∧ w.node? source = some n ∧
    Slot s t.type n.type index spec kind
  node : ∀ x, w'.node? x =
    if x = target then (w.node? target).map (·.connect index source) else w.node? x
  nodes : w'.nodes.size = w.nodes.size
  scopes : w'.scopes = w.scopes

theorem connect_ok (h : connect w scope s = .ok w') :
    ∃ target source index, Connects w w' scope s target source index := by
  rw [connect] at h
  split at h
  · cases h
  · rename_i target source hends
    obtain ⟨hsimple, hreader, hshown⟩ := endpoints_ok hends
    split at h
    · rename_i t n ht hn
      split at h
      · cases h
      · rename_i index hslot
        cases h
        obtain ⟨spec, kind, hslot⟩ := slotFor_ok hslot
        exact ⟨target, source, index, hsimple, hreader, hshown, ⟨t, n, spec, kind, ht, hn, hslot⟩,
          w.node?_modifyNode target _, w.modifyNode_size target _, w.modifyNode_scopes target _⟩
    · split at h <;> cases h
    · cases h

namespace Connects

variable {target source : NodeId} {index : Nat}

theorem sameTree (h : Connects w w' scope s target source index) : SameTree w w' := by
  refine .of_scopes h.scopes fun x => ?_
  rw [nodeKey?, nodeKey?, h.node]
  by_cases hx : x = target
  · rw [if_pos hx, hx, Option.map_map]
    rfl
  · rw [if_neg hx]

theorem orderly (h : Connects w w' scope s target source index) (ho : w.Orderly) : w'.Orderly :=
  ho.sameTree h.sameTree (Nat.le_of_eq h.nodes.symm)

/-- The node keeps its type, and its other inputs. -/
theorem node_of_node (h : Connects w w' scope s target source index) {x : NodeId} {n : Node}
    (hn : w'.node? x = some n) : ∃ m, w.node? x = some m ∧ m.type = n.type ∧
      ∀ i b, n.input? i = some b → m.input? i = some b ∨ x = target ∧ i = index ∧ b = source := by
  rw [h.node] at hn
  split at hn
  · rename_i hx
    obtain ⟨m, hm, rfl⟩ := Option.map_eq_some_iff.mp hn
    refine ⟨m, by rw [hx, hm], rfl, fun i b hi => ?_⟩
    rw [Node.input?_connect] at hi
    split at hi
    · rename_i hindex
      cases hi
      exact .inr ⟨hx, hindex.1, rfl⟩
    · exact .inl hi
  · exact ⟨n, hn, rfl, fun i b hi => .inl hi⟩

end Connects

end Assembly

namespace World

open Assembly Script

variable {w w' : World}

/-- What makes it right that an input reads from a node: the node is of a type whose output the
input accepts, and it is held by a scope above the reader. -/
structure Joins (w : World) (reader : NodeId) (type : NodeType) (i : Nat) (source : NodeId) :
    Prop where
  accepted : ∃ n spec kind, w.node? source = some n ∧ type.inputs[i]? = some spec ∧
    n.type.produces = some kind ∧ spec.accepts kind = true
  beside : ∃ scope name, Under w (.scope scope) (.node reader) ∧ w.Holds scope name (.node source)

/-- It is right of all connections. -/
def Wired (w : World) : Prop :=
  ∀ reader n i source, w.node? reader = some n → n.input? i = some source →
    w.Joins reader n.type i source

theorem Joins.mono {reader source : NodeId} {type : NodeType} {i : Nat}
    (h : w.Joins reader type i source)
    (hnode : ∀ x n, w.node? x = some n → ∃ n', w'.node? x = some n' ∧ n'.type = n.type)
    (hholds : ∀ p name m, w.Holds p name m → w'.Holds p name m) :
    w'.Joins reader type i source := by
  obtain ⟨⟨n, spec, kind, hn, hspec, hkind, haccepts⟩, scope, name, hunder, hheld⟩ := h
  obtain ⟨n', hn', htype⟩ := hnode source n hn
  exact ⟨⟨n', spec, kind, hn', hspec, htype ▸ hkind, haccepts⟩, scope, name, hunder.mono hholds,
    hholds scope name _ hheld⟩

/-- A node of the grown world is an old one or it has no connections. -/
theorem Grows.wired (h : Grows w w') (hw : w.Wired) : w'.Wired := by
  intro reader n i source hn hi
  obtain hlt | hle := Nat.lt_or_ge reader.index w.nodes.size
  · rw [h.node reader hlt] at hn
    refine (hw reader n i source hn hi).mono (fun x m hm => ⟨m, ?_, rfl⟩) h.holds
    rw [h.node x (lt_size_of_node? hm), hm]
  · rw [(h.new reader n hle hn).input?] at hi
    cases hi

end World

namespace Assembly

open Script World

variable {w w' : World} {scope : ScopeId} {s : Statement}

/-- What a statement connects is right, and the connections there were stay so. -/
theorem Connects.wired {target source : NodeId} {index : Nat}
    (h : Connects w w' scope s target source index) (hw : w.Wired) : w'.Wired := by
  obtain ⟨t, n, spec, kind, ht, hn, hslot⟩ := h.slot
  obtain ⟨c, hreader⟩ := h.reader
  obtain ⟨c', hshown⟩ := h.shown
  have hnode : ∀ x m, w.node? x = some m → ∃ m', w'.node? x = some m' ∧ m'.type = m.type := by
    intro x m hm
    rw [h.node]
    split
    · rename_i hx
      rw [← hx, hm]
      exact ⟨_, rfl, rfl⟩
    · exact ⟨m, hm, rfl⟩
  have hholds := fun p name m => (h.sameTree.holds p name m).mpr
  intro reader k i b hk hi
  obtain ⟨m, hm, htype, hinputs⟩ := h.node_of_node hk
  rw [← htype]
  obtain hold | ⟨rfl, rfl, rfl⟩ := hinputs i b hi
  · exact (hw reader m i b hm hold).mono hnode hholds
  · rw [ht] at hm
    cases hm
    obtain ⟨hunder, name, hheld⟩ := resolve_spec hreader
    obtain ⟨hscope, name', hheld'⟩ := resolve_spec hshown
    have hcontainer : c' = scope := resolve_single hshown
    subst hcontainer
    exact Joins.mono ⟨⟨n, spec, kind, hn, hslot.there, hslot.produces, hslot.accepts⟩, c', name',
      .entry hunder hheld, hheld'⟩ hnode hholds

theorem connectStep_cases (scope : ScopeId) (a : Assembly) (s : Statement) :
    (connectStep scope a s).world = a.world ∨
      ∃ target source index,
        Connects a.world (connectStep scope a s).world scope s target source index := by
  rw [connectStep]
  split
  · exact .inl rfl
  · split
    · exact .inl rfl
    · rename_i w' hconnect
      exact .inr (connect_ok hconnect)

/-- What holds whenever a member or a connection has been made holds of the whole program. -/
theorem apply_keeps {P : World → Prop}
    (hmake : ∀ (a : Assembly) s, P a.world → P (makeStep scope a s).world)
    (hconnect : ∀ {w w' s target source index},
      Connects w w' scope s target source index → P w → P w')
    (h : P w) (p : Program) : P (apply w scope p).world := by
  refine List.foldlRecOn (motive := fun a : Assembly => P a.world) p.statements _
    (List.foldlRecOn (motive := fun a : Assembly => P a.world) p.statements _ h
      fun a ha s _ => hmake a s ha) fun a ha s _ => ?_
  obtain hsame | ⟨target, source, index, hconnects⟩ := connectStep_cases scope a s
  · rwa [hsame]
  · exact hconnect hconnects ha

end Assembly

/-! ## Worlds from which nothing is taken down -/

namespace World

open Assembly Script

variable {w w' : World}

/-- The entries are orderly and the connections right. -/
structure Sound (w : World) : Prop where
  orderly : w.Orderly
  wired : w.Wired

theorem GrowsOrderly.sound (h : GrowsOrderly w w') (hw : w.Sound) : w'.Sound := by
  obtain ⟨horderly, hgrows⟩ := h hw.orderly
  exact ⟨horderly, hgrows.wired hw.wired⟩

theorem apply_sound (hw : w.Sound) (scope : ScopeId) (p : Program) :
    (apply w scope p).world.Sound :=
  apply_keeps (fun a s => (makeStep_grows scope a s).sound)
    (fun hconnects h => ⟨hconnects.orderly h.orderly, hconnects.wired h.wired⟩) hw p

theorem new_sound (journal : Array Event) : (World.new journal).Sound := by
  refine ⟨Forest.orderly (new_tree journal), fun reader n i source hn => ?_⟩
  cases hn

end World

namespace Change

/-- The change takes no scope down; what a failed setup has made is not meant. -/
def TakesNothingDown : Change → Prop
  | populate .. | apply .. | makeNode .. | makeScope .. => True
  | destroyScope _ | clear => False

open World

theorem run_sound {w : World} (hw : w.Sound) (c : Change) (h : c.TakesNothingDown) :
    (c.run w).Sound := by
  cases c with
  | populate catalog scope => exact (catalog.populate_grows w scope).sound hw
  | apply scope program => exact apply_sound hw scope program
  | makeNode parent name type owner params =>
    exact (makeNode_grows w parent name type owner params).sound hw
  | makeScope parent name type owner params =>
    exact (makeScope_grows w parent name owner params type).sound hw
  | destroyScope id => exact h.elim
  | clear => exact h.elim

theorem foldl_run_sound {w : World} (hw : w.Sound) (cs : List Change)
    (hcs : ∀ c ∈ cs, c.TakesNothingDown) : (cs.foldl run w).Sound := by
  induction cs generalizing w with
  | nil => exact hw
  | cons c cs ih =>
    exact ih (run_sound hw c (hcs c List.mem_cons_self))
      fun d hd => hcs d (List.mem_cons_of_mem _ hd)

end Change

end FrameGraph
