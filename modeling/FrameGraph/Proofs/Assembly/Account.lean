import FrameGraph.Proofs.Assembly.Effects

/-!
# The account of a program

Two passes over a program come to one pass over its statements in another order. Every statement is
then either reported or counted as what it has done, so the counts and the reports add up to the
statements, and the diagnostics are the reports one after the other.
-/
namespace FrameGraph.Assembly

open Script World

variable {a b : Assembly} {scope : ScopeId} {s : Statement}

/-- The statements in the order in which they are carried out: first those that make something. -/
def order (p : Program) : List Statement :=
  p.statements.filter Statement.instantiates ++ p.statements.filter (!Statement.instantiates ·)

/-- Carries out a statement in the pass that it belongs to. -/
def carryOut (scope : ScopeId) (a : Assembly) (s : Statement) : Assembly :=
  if s.instantiates then makeStep scope a s else connectStep scope a s

/-- What each of some statements adds to the diagnostics. -/
def reports (scope : ScopeId) (a : Assembly) : List Statement → List (List Diagnostic)
  | [] => []
  | s :: rest =>
    (carryOut scope a s).diagnostics.drop a.diagnostics.length ::
      reports scope (carryOut scope a s) rest

theorem length_order (p : Program) : (order p).length = p.statements.length := by
  rw [order, List.length_append]
  exact (List.length_eq_length_filter_add Statement.instantiates).symm

/-- A pass does nothing about the statements of the other. -/
theorem apply_eq (w : World) (scope : ScopeId) (p : Program) :
    apply w scope p = (order p).foldl (carryOut scope) (start w) := by
  have hmake : makeStep scope = fun a s => if s.instantiates then carryOut scope a s else a := by
    funext a s
    cases hs : s.instantiates <;> simp [carryOut, makeStep, hs]
  have hconnect : connectStep scope =
      fun a s => if !s.instantiates then carryOut scope a s else a := by
    funext a s
    cases hs : s.instantiates <;> simp [carryOut, connectStep, hs]
  rw [order, List.foldl_append, List.foldl_filter, List.foldl_filter, apply, hmake, hconnect]

/-! ## One statement -/

/-- Nothing is different but that there are more diagnostics. -/
def report (a : Assembly) (ds : List Diagnostic) : Assembly :=
  { a with diagnostics := a.diagnostics ++ ds }

@[simp] theorem report_definitions (a : Assembly) (ds : List Diagnostic) :
    (a.report ds).definitions = a.definitions := rfl

theorem report_nil (a : Assembly) : a.report [] = a := by
  simp [report]

theorem report_append (a : Assembly) (ds es : List Diagnostic) :
    a.report (ds ++ es) = (a.report ds).report es := by
  simp [report]

/-- The statement is reported: its errors are added, and nothing else is changed. -/
structure IsReported (a b : Assembly) (s : Statement) (ds : List Diagnostic) : Prop where
  report : Reports s ds
  diagnostics : b.diagnostics = a.diagnostics ++ ds
  definitions : b.definitions = a.definitions
  world : Unchanged a.world b.world
  counts : (b.nodes, b.scopes, b.connections) = (a.nodes, a.scopes, a.connections)

/-- The statement takes effect, once, and is counted as what it has done. -/
inductive TakesEffect (scope : ScopeId) (a b : Assembly) (s : Statement) : Prop
  | node (id : NodeId) (makes : Makes a.world b.world scope s (.node id))
    (diagnostics : b.diagnostics = a.diagnostics)
    (counts : (b.nodes, b.scopes, b.connections) = (a.nodes + 1, a.scopes, a.connections))
  | scope (id : ScopeId) (makes : Makes a.world b.world scope s (.scope id))
    (diagnostics : b.diagnostics = a.diagnostics)
    (counts : (b.nodes, b.scopes, b.connections) = (a.nodes, a.scopes + 1, a.connections))
  | connection (target source : NodeId) (index : Nat)
    (connects : Connects a.world b.world scope s target source index)
    (reads : (b.world.node? target).bind (·.input? index) = some source)
    (diagnostics : b.diagnostics = a.diagnostics)
    (counts : (b.nodes, b.scopes, b.connections) = (a.nodes, a.scopes, a.connections + 1))

theorem TakesEffect.silent (h : TakesEffect scope a b s) : b.diagnostics = a.diagnostics := by
  cases h <;> assumption

theorem TakesEffect.total (h : TakesEffect scope a b s) :
    b.nodes + b.scopes + b.connections = a.nodes + a.scopes + a.connections + 1 := by
  cases h with
  | node id makes diagnostics counts =>
    simp only [Prod.mk.injEq] at counts
    omega
  | scope id makes diagnostics counts =>
    simp only [Prod.mk.injEq] at counts
    omega
  | connection target source index connects reads diagnostics counts =>
    simp only [Prod.mk.injEq] at counts
    omega

theorem IsReported.total {ds : List Diagnostic} (h : IsReported a b s ds) :
    b.nodes + b.scopes + b.connections = a.nodes + a.scopes + a.connections := by
  have hcounts := h.counts
  simp only [Prod.mk.injEq] at hcounts
  omega

/-- A statement is reported or it takes effect. -/
theorem carryOut_outcome (h : a.world.Tree) (hslots : a.world.Slotted) (scope : ScopeId)
    (s : Statement) :
    (∃ ds, IsReported a (carryOut scope a s) s ds) ∨
      TakesEffect scope a (carryOut scope a s) s := by
  rw [carryOut]
  by_cases hs : s.instantiates = true
  · rw [if_pos hs, makeStep, if_pos hs]
    have houtcome := instantiate_outcome h scope a.definitions s
    generalize instantiate a.world scope a.definitions s = result at houtcome ⊢
    cases houtcome with
    | reported report unchanged => exact .inl ⟨_, report, rfl, rfl, unchanged, rfl⟩
    | @made w' made makes =>
      cases made with
      | node id => exact .inr (.node id makes rfl rfl)
      | scope id => exact .inr (.scope id makes rfl rfl)
  · rw [if_neg hs, connectStep, if_neg hs]
    obtain ⟨ds, hconnect, hreport⟩ | ⟨w', target, source, index, hconnect, hconnects, hreads⟩ :=
      connect_outcome h hslots scope s
    · rw [hconnect]
      exact .inl ⟨ds, hreport, rfl, rfl, .refl _, rfl⟩
    · rw [hconnect]
      exact .inr (.connection target source index hconnects hreads rfl rfl)

theorem carryOut_edits (h : a.world.Tree) (scope : ScopeId) (s : Statement) :
    Edits a.world (carryOut scope a s).world := by
  rw [carryOut]
  split
  · exact makeStep_edits h scope s
  · exact connectStep_edits a scope s

/-! ## All statements -/

/-- What has to hold of the world for every statement to be reported or to take effect. -/
structure Ready (a : Assembly) : Prop where
  tree : a.world.Tree
  slotted : a.world.Slotted

theorem Ready.carryOut (h : a.Ready) (scope : ScopeId) (s : Statement) :
    (Assembly.carryOut scope a s).Ready := by
  have hedits := carryOut_edits h.tree scope s
  exact ⟨Edits.tree hedits h.tree, Edits.slotted hedits h.tree h.slotted⟩

theorem Ready.foldl (h : a.Ready) (scope : ScopeId) (statements : List Statement) :
    (statements.foldl (Assembly.carryOut scope) a).Ready := by
  induction statements generalizing a with
  | nil => exact h
  | cons s rest ih => exact ih (h.carryOut scope s)

theorem Ready.outcome (h : a.Ready) (scope : ScopeId) (before : List Statement) (s : Statement) :
    let a := before.foldl (Assembly.carryOut scope) a
    (∃ ds, IsReported a (Assembly.carryOut scope a s) s ds) ∨
      TakesEffect scope a (Assembly.carryOut scope a s) s :=
  carryOut_outcome (h.foldl scope before).tree (h.foldl scope before).slotted scope s

/-- The account of some statements: the diagnostics are the reports, all of them errors, and every
statement is counted or has a report. -/
theorem Ready.account (h : a.Ready) (scope : ScopeId) (statements : List Statement) :
    let b := statements.foldl (Assembly.carryOut scope) a
    b.diagnostics = a.diagnostics ++ (reports scope a statements).flatten ∧
      (∀ d ∈ (reports scope a statements).flatten, d.isError = true) ∧
      b.nodes + b.scopes + b.connections + (reports scope a statements).countP (!·.isEmpty) =
        a.nodes + a.scopes + a.connections + statements.length := by
  induction statements generalizing a with
  | nil => simp [reports]
  | cons s rest ih =>
    obtain ⟨hdiagnostics, herrors, hcount⟩ := ih (h.carryOut scope s)
    have houtcome := carryOut_outcome h.tree h.slotted scope s
    simp only [List.foldl_cons, reports, List.flatten_cons, List.countP_cons, List.length_cons]
    generalize Assembly.carryOut scope a s = b at hdiagnostics herrors hcount houtcome ⊢
    obtain ⟨ds, hreported⟩ | heffect := houtcome
    · have htotal := hreported.total
      have hnew : b.diagnostics.drop a.diagnostics.length = ds := by simp [hreported.diagnostics]
      have hsome : (!ds.isEmpty) = true := by simpa using hreported.report.nonempty
      rw [hnew]
      refine ⟨?_, fun d hd => ?_, ?_⟩
      · rw [hdiagnostics, hreported.diagnostics, List.append_assoc]
      · obtain hd | hd := List.mem_append.mp hd
        · exact hreported.report.errors d hd
        · exact herrors d hd
      · rw [if_pos hsome]
        omega
    · have htotal := heffect.total
      have hnone : b.diagnostics.drop a.diagnostics.length = [] := by simp [heffect.silent]
      rw [hnone]
      refine ⟨?_, herrors, ?_⟩
      · rw [hdiagnostics, heffect.silent, List.nil_append]
      · rw [if_neg (by simp)]
        omega

/-- Nothing is reported exactly if every statement takes effect. -/
theorem Ready.silent_iff (h : a.Ready) (scope : ScopeId) (statements : List Statement) :
    (statements.foldl (Assembly.carryOut scope) a).diagnostics = a.diagnostics ↔
      ∀ before s after, statements = before ++ s :: after →
        TakesEffect scope (before.foldl (Assembly.carryOut scope) a)
          (Assembly.carryOut scope (before.foldl (Assembly.carryOut scope) a) s) s := by
  constructor
  · rintro hsilent before s after rfl
    refine (h.outcome scope before s).resolve_left ?_
    rintro ⟨ds, hreported⟩
    obtain ⟨hbefore, -, -⟩ := h.account scope before
    obtain ⟨hafter, -, -⟩ := ((h.foldl scope before).carryOut scope s).account scope after
    rw [List.foldl_append, List.foldl_cons, hafter, hreported.diagnostics, hbefore] at hsilent
    have hlength := congrArg List.length hsilent
    simp only [List.length_append] at hlength
    exact hreported.report.nonempty (List.eq_nil_of_length_eq_zero (by omega))
  · intro hall
    induction statements generalizing a with
    | nil => rfl
    | cons s rest ih =>
      rw [List.foldl_cons, ih (h.carryOut scope s) fun before t after hsplit => ?_]
      · exact (hall [] s rest rfl).silent
      · exact hall (s :: before) t after (by rw [hsplit, List.cons_append])

/-- In every world that can be reached from a new one, with setups that make things in their own
scope only, a program is put together statement by statement, those that make something first. Each
is reported, by errors with its line, and then every place holds what it held; or it takes effect
once, silently, as a node, a scope or a connection. So the counts and the reports add up to the
statements, the diagnostics are the reports in that order, and all is well exactly if every
statement takes effect. -/
theorem apply_account (journal : Array Event) (ops : List Operation)
    (hops : ∀ op ∈ ops, op.Confined) (scope : ScopeId) (p : Program) :
    let w := ops.foldl Operation.run (World.new journal)
    let upTo (statements : List Statement) : Assembly :=
      statements.foldl (carryOut scope) (start w)
    let r := apply w scope p
    let reported := reports scope (start w) (order p)
    r = upTo (order p) ∧
      (∀ before s after, order p = before ++ s :: after →
        (∃ ds, IsReported (upTo before) (carryOut scope (upTo before) s) s ds) ∨
          TakesEffect scope (upTo before) (carryOut scope (upTo before) s) s) ∧
      r.diagnostics = reported.flatten ∧
      r.nodes + r.scopes + r.connections + reported.countP (!·.isEmpty) = p.statements.length ∧
      (r.isOk = true ↔ ∀ before s after, order p = before ++ s :: after →
        TakesEffect scope (upTo before) (carryOut scope (upTo before) s) s) := by
  intro w upTo r reported
  have htree : w.Tree := (new_tree journal).foldl_run ops hops
  have hready : (start w).Ready :=
    ⟨htree, Operation.foldl_run_slotted (new_tree journal) (new_slotted journal) ops hops⟩
  have hr : r = upTo (order p) := apply_eq w scope p
  obtain ⟨hdiagnostics, herrors, hcount⟩ := hready.account scope (order p)
  have hflat : r.diagnostics = reported.flatten := by
    rw [hr]
    exact hdiagnostics.trans (List.nil_append _)
  have herror : ∀ d ∈ r.diagnostics, d.isError = true := by rwa [hflat]
  have hok : r.isOk = true ↔ r.diagnostics = [] := by
    rw [isOk, decide_eq_true_eq, errorCount, List.countP_eq_zero, List.eq_nil_iff_forall_not_mem]
    exact forall₂_congr fun d hd => iff_of_false (not_not_intro (herror d hd)) not_false
  refine ⟨hr, fun before s after _ => hready.outcome scope before s, hflat, ?_, ?_⟩
  · rw [hr, ← length_order p]
    exact hcount.trans (Nat.zero_add _)
  · rw [hok, hr]
    exact hready.silent_iff scope (order p)

/-- Puts types of nodes and scopes into the root. A room has a node in it; a box has one too until
its setup fails. -/
def furnish : List Operation :=
  let source : NodeType := { name := "source", produces := some .surface }
  let sink : NodeType := { name := "sink", inputs := [⟨"from", true, some .surface⟩] }
  let room : ScopeType :=
    ⟨"room", [], .makeNode .here "chair" source [] fun _ => .done, fun _ => []⟩
  let box : ScopeType :=
    ⟨"box", [], .makeNode .here "lid" source [] fun _ => .fail "too small", fun _ => []⟩
  [.change (.populate ⟨[source, sink], [room, box], []⟩ .root)]

/-- Six statements, one a line. The first and the last connect, and the fifth makes a box. -/
def arrangement : Program :=
  let path (head : String) (tail : List String) : Script.Path :=
    ⟨⟨head, ⟨0, 0⟩⟩, tail.map (⟨·, ⟨0, 0⟩⟩)⟩
  let statement (line : Nat) (target source : Script.Path) : Statement :=
    ⟨target, source, none, 0, line⟩
  ⟨[statement 1 (path "b" ["from"]) (path "a" []), statement 2 (path "a" []) (path "source" []),
    statement 3 (path "b" []) (path "sink" []), statement 4 (path "c" []) (path "room" []),
    statement 5 (path "d" []) (path "box" []), statement 6 (path "b" ["to"]) (path "a" [])],
    ⟨0, 0⟩⟩

/-- The world in which the statements are carried out. -/
def furnished : World := furnish.foldl Operation.run (World.new #[])

theorem furnish_confined : ∀ op ∈ furnish, op.Confined := by
  intro op hop
  rw [List.mem_singleton.mp hop]
  refine ⟨fun t ht => ?_, nofun⟩
  obtain rfl | ht := List.mem_cons.mp ht
  · exact fun id => .makeNode (Location.here_within id) fun _ => .done
  · rw [List.mem_singleton.mp ht]
    exact fun id => .makeNode (Location.here_within id) fun _ => .fail

theorem apply_account_furnished :
    (∀ op ∈ furnish, op.Confined) ∧
      let r := apply furnished .root arrangement
      (r.nodes, r.scopes, r.connections) = (2, 1, 1) ∧
      (reports .root (start furnished) (order arrangement)).countP (!·.isEmpty) = 2 ∧
      r.diagnostics.map Diagnostic.line = [some 5, some 6] ∧
      (r.world.nodeCount, r.world.scopeCount) = (3, 2) := by
  obtain ⟨-, -, -, htotal, -⟩ := apply_account #[] furnish furnish_confined .root arrangement
  refine ⟨furnish_confined, ?_⟩
  rw [← furnished] at htotal
  have hnodes : (apply furnished .root arrangement).nodes = 2 := by decide +kernel
  have hscopes : (apply furnished .root arrangement).scopes = 1 := by decide +kernel
  have hconnections : (apply furnished .root arrangement).connections = 1 := by decide +kernel
  have hlength : arrangement.statements.length = 6 := rfl
  intro r
  refine ⟨by rw [hnodes, hscopes, hconnections], ?_, by decide +kernel, by decide +kernel⟩
  rw [hnodes, hscopes, hconnections, hlength] at htotal
  omega

end FrameGraph.Assembly
