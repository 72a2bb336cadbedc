import FrameGraph.Proofs.Assembly.Connections
import FrameGraph.Proofs.Behaviour.Conformity
import FrameGraph.Proofs.World.Inputs
import FrameGraph.Proofs.World.Enclosure

/-!
# What one statement does

A statement is reported, and then every place of the world holds what it held, or it takes effect:
it makes one node or one scope, or it connects one input. The cases in which connecting would pass
over a statement without a word do not occur, because an entry of a tree holds what is there.
-/
namespace FrameGraph.Assembly

open Script World

variable {w w' : World} {scope : ScopeId} {s : Statement}

/-! ## Reports -/

/-- At least one error is reported, and all that is reported are errors with the line of the
statement. -/
structure Reports (s : Statement) (ds : List Diagnostic) : Prop where
  nonempty : ds ≠ []
  errors : ∀ d ∈ ds, d.isError = true
  lines : ∀ d ∈ ds, d.line = some s.line

theorem Reports.single {d : Diagnostic} (herror : d.isError = true) (hline : d.line = some s.line) :
    Reports s [d] := by
  refine ⟨nofun, fun k hk => ?_, fun k hk => ?_⟩
  · rw [List.mem_singleton.mp hk, herror]
  · rw [List.mem_singleton.mp hk, hline]

theorem Signature.check_error {g : Signature} {earlier : List Assignment} {a : Assignment}
    {d : Diagnostic} (h : g.check earlier a = .error d) :
    d.isError = true ∧ d.line = some g.line := by
  rw [check] at h
  split at h
  · cases h
    exact ⟨rfl, rfl⟩
  · split at h
    · cases h
      exact ⟨rfl, rfl⟩
    · split at h
      · cases h
      · cases h
        exact ⟨rfl, rfl⟩

theorem Signature.checkAll_error {g : Signature} {earlier assignments : List Assignment}
    {d : Diagnostic} (h : .error d ∈ g.checkAll earlier assignments) :
    d.isError = true ∧ d.line = some g.line := by
  obtain ⟨front, a, back, -, hcheck⟩ := mem_checkAll.mp h
  exact check_error hcheck.symm

/-- Assignments that give no values are reported with what is wrong with each of them. -/
theorem Signature.mem_of_values_error {g : Signature} {assignments : List Assignment}
    {problems : List Diagnostic} (h : g.values assignments = .error problems) {d : Diagnostic} :
    d ∈ problems ↔ .error d ∈ g.checkAll [] assignments := by
  rw [values] at h
  split at h
  · cases h
  · cases h
    rw [List.mem_filterMap]
    constructor
    · rintro ⟨result, hresult, hd⟩
      cases result with
      | ok value => cases hd
      | error problem =>
        cases hd
        exact hresult
    · exact fun hd => ⟨.error d, hd, rfl⟩

/-- Assignments that give no values are reported. -/
theorem Signature.values_error {typeName : String} {params : List ParamSpec}
    {problems : List Diagnostic}
    (h : values ⟨typeName, params, s.line⟩ s.assignments = .error problems) :
    Reports s problems := by
  have hmem {d : Diagnostic} (hd : d ∈ problems) : d.isError = true ∧ d.line = some s.line :=
    checkAll_error ((mem_of_values_error h).mp hd)
  refine ⟨?_, fun d hd => (hmem hd).1, fun d hd => (hmem hd).2⟩
  rw [values] at h
  split at h
  · cases h
  · rename_i hproblems
    cases h
    simpa using hproblems

theorem notMade_report (s : Statement) (e : WorldError) : Reports s [notMade s e] := by
  cases e <;> exact .single rfl rfl

/-! ## Making -/

/-- The statement has made one member: a node or a scope of the type that its source names, with the
values of its arguments, under its name in the scope that the rest of its target names. -/
inductive Makes (w w' : World) (scope : ScopeId) (s : Statement) : Made → Prop
  | node {type : NodeType} {container destination : ScopeId} {params : List Value}
    (source : w.resolve scope s.source.names = some ⟨.nodeType type, container⟩)
    (target : w.resolveScope scope s.target.leading = some destination)
    (values : Signature.values ⟨type.name, type.params, s.line⟩ s.assignments = .ok params)
    (gains : Gains w w' destination s.target.last.name (.node ⟨w.nodes.size⟩))
    (made : w'.node? ⟨w.nodes.size⟩ =
      some (.new s.target.last.name type container destination params)) :
    Makes w w' scope s (.node ⟨w.nodes.size⟩)
  | scope {type : ScopeType} {container destination : ScopeId} {params : List Value} {t : Scope}
    (source : w.resolve scope s.source.names = some ⟨.scopeType type, container⟩)
    (target : w.resolveScope scope s.target.leading = some destination)
    (values : Signature.values ⟨type.name, type.params, s.line⟩ s.assignments = .ok params)
    (gains : Gains w w' destination s.target.last.name (.scope ⟨w.scopes.size⟩))
    (made : w'.scope? ⟨w.scopes.size⟩ = some t)
    (bare : t.bare = .new s.target.last.name type (some container) (some destination) params)
    (isSetUp : t.isSetUp = true) :
    Makes w w' scope s (.scope ⟨w.scopes.size⟩)

/-- What becomes of a statement in the first pass, from a world: with the world after it, it is
reported or it has made something. -/
inductive Outcome (w : World) (scope : ScopeId) (s : Statement) :
    World × Except (List Diagnostic) Made → Prop
  | reported {w' : World} {ds : List Diagnostic} (report : Reports s ds)
    (unchanged : Unchanged w w') : Outcome w scope s (w', .error ds)
  | made {w' : World} {made : Made} (makes : Makes w w' scope s made) :
    Outcome w scope s (w', .ok made)

theorem Outcome.refused {d : Diagnostic} (herror : d.isError = true)
    (hline : d.line = some s.line) : Outcome w scope s (w, .error [d]) :=
  .reported (.single herror hline) (.refl w)

theorem make_outcome (h : w.Tree) {container destination : ScopeId} {member : Member}
    (hsource : w.resolve scope s.source.names = some ⟨member, container⟩)
    (htarget : w.resolveScope scope s.target.leading = some destination) :
    Outcome w scope s (make w destination container s member) := by
  unfold make
  cases member with
  | nodeType type =>
    dsimp only
    split
    · rename_i problems hvalues
      exact .reported (Signature.values_error hvalues) (.refl w)
    · rename_i params hvalues
      obtain ⟨e, hmade⟩ | ⟨w', hmade, hgains, hnode⟩ :=
        makeNode_outcome (Forest.tabled h) destination s.target.last.name type container params
      · rw [hmade]
        exact .reported (notMade_report s e) (.refl w)
      · rw [hmade]
        exact .made (.node hsource htarget hvalues hgains hnode)
  | scopeType type =>
    dsimp only
    split
    · rename_i problems hvalues
      exact .reported (Signature.values_error hvalues) (.refl w)
    · rename_i params hvalues
      obtain ⟨-, name, hheld⟩ := resolve_spec hsource
      obtain ⟨w', e, hmade, hunchanged⟩ | ⟨w', hmade, hgains, t, ht, hbare, hup⟩ :=
        makeScope_outcome (Forest.orderly h) destination s.target.last.name container params
          (Forest.types h container name type hheld _)
      · rw [hmade]
        exact .reported (notMade_report s e) hunchanged
      · rw [hmade]
        exact .made (.scope hsource htarget hvalues hgains ht hbare hup)
  | node id => exact .refused rfl rfl
  | scope id => exact .refused rfl rfl

/-- The first pass over a statement either reports it or makes one member. -/
theorem instantiate_outcome (h : w.Tree) (scope : ScopeId) (definitions : Definitions)
    (s : Statement) : Outcome w scope s (instantiate w scope definitions s) := by
  rw [instantiate]
  cases hsource : w.resolve scope s.source.names with
  | none => exact .refused rfl rfl
  | some r =>
    obtain ⟨member, container⟩ := r
    cases htarget : w.resolveScope scope s.target.leading with
    | none => exact .refused rfl rfl
    | some destination =>
      dsimp only
      split
      · cases definitions.lookup s.target.text with
        | none => exact .refused rfl rfl
        | some span => exact .refused rfl rfl
      · exact make_outcome h hsource htarget

/-! ## Connecting -/

/-- Another code than that of a repeated parameter. -/
theorem code_ne {d : Diagnostic} {code : Code} (h : d.code = some code)
    (hne : code ≠ Code.duplicateParameter) : d.code ≠ some Code.duplicateParameter := by
  rw [h]
  exact fun heq => hne (Option.some.inj heq)

/-- An error about the statement itself, not about its assignments. -/
structure Blames (s : Statement) (d : Diagnostic) : Prop where
  isError : d.isError = true
  line : d.line = some s.line
  code : d.code ≠ some Code.duplicateParameter

theorem lookupNode_error {path : List String} {span : Span} {d : Diagnostic}
    (h : lookupNode w scope s path span = .error d) : Blames s d := by
  rw [lookupNode] at h
  split at h
  · cases h
  · cases h
    exact ⟨rfl, rfl, code_ne rfl (by decide)⟩
  · cases h
    exact ⟨rfl, rfl, code_ne rfl (by decide)⟩

theorem endpoints_error {d : Diagnostic} (h : endpoints w scope s = .error d) : Blames s d := by
  rw [endpoints_eq] at h
  split at h
  · split at h
    · rename_i hlookup
      cases h
      exact lookupNode_error hlookup
    · split at h
      · rename_i hlookup
        cases h
        exact lookupNode_error hlookup
      · cases h
  · cases h
    exact ⟨rfl, rfl, code_ne rfl (by decide)⟩

theorem slotFor_error {target source : Node} {d : Diagnostic}
    (h : slotFor s target source = .error d) : Blames s d := by
  rw [slotFor] at h
  split at h
  · cases h
    exact ⟨rfl, rfl, code_ne rfl (by decide)⟩
  · split at h
    · cases h
      exact ⟨rfl, rfl, code_ne rfl (by decide)⟩
    · split at h
      · cases h
      · cases h
        exact ⟨rfl, rfl, code_ne rfl (by decide)⟩

/-- Nothing that is wrong with a connection is about assignments. -/
theorem connect_error {ds : List Diagnostic} (h : connect w scope s = .error ds) {d : Diagnostic}
    (hd : d ∈ ds) : Blames s d := by
  rw [connect] at h
  split at h
  · rename_i hends
    cases h
    rw [List.mem_singleton.mp hd]
    exact endpoints_error hends
  · split at h
    · split at h
      · rename_i hslot
        cases h
        rw [List.mem_singleton.mp hd]
        exact slotFor_error hslot
      · cases h
    · split at h <;> cases h
      · rw [List.mem_singleton.mp hd]
        exact ⟨rfl, rfl, code_ne rfl (by decide)⟩
      · cases hd
    · cases h
      cases hd

/-- If the nodes that are held are there, something is wrong with a connection that is not made. -/
theorem connect_error_ne_nil (h : ∀ p name x, w.Holds p name (.node x) → w.Lives (.node x))
    {problems : List Diagnostic} (hconnect : connect w scope s = .error problems) :
    problems ≠ [] := by
  rw [connect] at hconnect
  split at hconnect
  · cases hconnect
    exact List.cons_ne_nil _ _
  · rename_i target source hends
    obtain ⟨-, ⟨c, hreader⟩, c', hshown⟩ := endpoints_ok hends
    have hthere {c : ScopeId} {path : List String} {x : NodeId}
        (hr : w.resolve scope path = some ⟨.node x, c⟩) : ∃ n, w.node? x = some n := by
      obtain ⟨-, name, hheld⟩ := resolve_spec hr
      exact h c name x hheld
    obtain ⟨t, ht⟩ := hthere hreader
    obtain ⟨n, hn⟩ := hthere hshown
    simp only [ht, hn] at hconnect
    split at hconnect
    · cases hconnect
      exact List.cons_ne_nil _ _
    · cases hconnect

/-- The second pass over a statement either reports it or connects one input. -/
theorem connect_outcome (h : w.Tree) (hslots : w.Slotted) (scope : ScopeId) (s : Statement) :
    (∃ ds, connect w scope s = .error ds ∧ Reports s ds) ∨
    ∃ w' target source index, connect w scope s = .ok w' ∧
      Connects w w' scope s target source index ∧
      (w'.node? target).bind (·.input? index) = some source := by
  cases hconnect : connect w scope s with
  | ok w' =>
    obtain ⟨target, source, index, hconnects⟩ := connect_ok hconnect
    obtain ⟨t, n, spec, kind, ht, -, hslot⟩ := hconnects.slot
    refine .inr ⟨w', target, source, index, rfl, hconnects, ?_⟩
    rw [hconnects.node, if_pos rfl, ht]
    exact (hslots target t ht).input?_connect hslot.there source
  | error ds =>
    exact .inl ⟨ds, rfl,
      connect_error_ne_nil (fun p name x hheld => Forest.lives_of_holds h hheld rfl) hconnect,
      fun d hd => (connect_error hconnect hd).isError,
      fun d hd => (connect_error hconnect hd).line⟩

end FrameGraph.Assembly
