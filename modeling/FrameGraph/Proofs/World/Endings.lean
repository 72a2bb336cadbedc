import FrameGraph.Proofs.Assembly.Connections
import FrameGraph.Proofs.Schedule.Attending
import FrameGraph.Proofs.World.Enclosure
import FrameGraph.Proofs.World.Reached
import FrameGraph.Proofs.World.Shrinking

/-!
# How setups end

A confined setup that fails leaves nothing behind but places that have been used up, in whatever
world it was started. A setup that succeeds is not always followed by a new member: if the setup has
taken the name itself, by making a member outside, its scope is there and set up, but no entry is for
it, and nothing takes it down.
-/
namespace FrameGraph

open World

/-! ## Whatever is done -/

theorem World.Attends.orderly {w w' : World} (h : Attends w w') (ho : w.Orderly) : w'.Orderly :=
  ho.sameTree (.of_scopes h.scopes h.nodeKey) (Nat.le_of_eq h.nodes.symm)

namespace Assembly

open Script

theorem apply_orderly {w : World} (h : w.Orderly) (scope : ScopeId) (p : Program) :
    (apply w scope p).world.Orderly :=
  apply_keeps (fun a s ha => (makeStep_grows scope a s ha).1) (fun hconnects => hconnects.orderly)
    h p

end Assembly

theorem Change.run_orderly {w : World} (h : w.Orderly) (c : Change) : (c.run w).Orderly := by
  cases c with
  | populate catalog scope => exact (catalog.populate_grows w scope h).1
  | apply scope program => exact Assembly.apply_orderly h scope program
  | makeNode parent name type owner params => exact (makeNode_grows w parent name type owner params h).1
  | makeScope parent name type owner params =>
    exact (makeScope_grows w parent name owner params type h).1
  | destroyScope id => exact (destroyScope_shrinks h.ranked id).orderly h
  | clear => exact (clear_shrinks h.ranked).orderly h

theorem Operation.run_orderly {w : World} (h : w.Orderly) (op : Operation) : (op.run w).Orderly := by
  cases op with
  | change c => exact c.run_orderly h
  | build => exact (Schedule.build_attends w).orderly h
  | update s => exact (Schedule.update_attends w s).orderly h
  | tearDown s => exact (Schedule.tearDown_attends w s).orderly h

namespace World

variable {w w' : World}

/-- The worlds that there can be: those between operations, and those that the setups of scopes pass
through, wherever these make members. -/
inductive Reachable : World → Prop
  | new (journal : Array Event) : Reachable (.new journal)
  | run {w : World} (before : Reachable w) (op : Operation) : Reachable (op.run w)
  | opened {w : World} (before : Reachable w) (p : ScopeId) (name : String) (owner : ScopeId)
    (params : List Value) (type : ScopeType) : Reachable (w.opened p name owner params type)
  | step {w w' : World} {self : ScopeId} {setup next : Setup} (before : Reachable w)
    (step : w.advance? self setup = some (w', next)) : Reachable w'

theorem Reachable.orderly (h : w.Reachable) : w.Orderly := by
  induction h with
  | new journal => exact Forest.orderly (new_tree journal)
  | run _ op ih => exact op.run_orderly ih
  | opened _ p name owner params type ih => exact ih.opened
  | step _ hstep ih =>
    obtain ⟨only, rfl⟩ := runSetup_of_step hstep
    exact (runSetup_grows _ _ only ih).1

/-! ## Setups that fail -/

/-- Nothing is left of a scope that was being made but empty places, and these steps: the setup of
the scope was refused, and of what it had made inside, each scope whose setup was completed has been
destroyed once. -/
structure LeavesNothing (w w' : World) (done : List LifeStep) : Prop where
  nodes : ∃ k, w'.nodes = w.nodes ++ Array.replicate k none
  scopes : ∃ k, w'.scopes = w.scopes ++ Array.replicate k none
  steps : w'.steps = w.steps ++ done
  refused : done.filter (LifeStep.isOfScope ⟨w.scopes.size⟩) = [.scopeSetUp ⟨w.scopes.size⟩ false]
  completed : ∀ x, .scopeSetUp x true ∈ done →
    done.filter (LifeStep.isOfScope x) = [.scopeSetUp x true, .scopeDestroyed x]
  told : ∀ x : ScopeId, w.scopes.size ≤ x.index → x.index < w'.scopes.size →
    done.filter (LifeStep.isOfScope x) = [.scopeSetUp x true, .scopeDestroyed x] ∨
      done.filter (LifeStep.isOfScope x) = [.scopeSetUp x false]
  silent : ∀ x : ScopeId, x.index < w.scopes.size ∨ w'.scopes.size ≤ x.index →
    done.filter (LifeStep.isOfScope x) = []

theorem Unchanged.places (h : Unchanged w w') (hg : Grows w w') :
    (∃ k, w'.nodes = w.nodes ++ Array.replicate k none) ∧
      ∃ k, w'.scopes = w.scopes ++ Array.replicate k none :=
  ⟨⟨_, eq_append_of_placed? hg.nodes fun i => h.node ⟨i⟩⟩,
    ⟨_, eq_append_of_placed? hg.scopes fun i => h.scope ⟨i⟩⟩⟩

/-- If nothing has changed in the end, no scope that was made on the way stands. -/
theorem Encloses.leavesNothing {id : ScopeId} {done : List LifeStep} (h : Encloses id w w' done)
    (hsame : Unchanged w w') (hrefused : .scopeSetUp ⟨w.scopes.size⟩ false ∈ done) :
    LeavesNothing w w' done := by
  obtain ⟨hnodes, hscopes⟩ := hsame.places h.grows
  have hsilent (x : ScopeId) (hx : x.index < w.scopes.size ∨ w'.scopes.size ≤ x.index) :=
    h.silent x (hx.imp_left Nat.not_le_of_lt)
  have hfate (x : ScopeId) (hnew : w.scopes.size ≤ x.index) (hknown : x.index < w'.scopes.size) :
      Fate x none (done.filter (LifeStep.isOfScope x)) := by
    have hgone : w'.phase? x = none :=
      phase?_eq_none.mpr ((hsame.scope x).trans (scope?_of_size_le hnew))
    exact hgone ▸ h.fate x hnew (Nat.not_le_of_lt hknown)
  have hmade {x : ScopeId} {ok : Bool} (hx : .scopeSetUp x ok ∈ done) :
      Fate x none (done.filter (LifeStep.isOfScope x)) := by
    have hmem := mem_filter_scopeSetUp hx
    by_cases hout : x.index < w.scopes.size ∨ w'.scopes.size ≤ x.index
    · rw [hsilent x hout] at hmem
      cases hmem
    · obtain ⟨hnew, hknown⟩ := not_or.mp hout
      exact hfate x (Nat.le_of_not_lt hnew) (Nat.lt_of_not_le hknown)
  refine ⟨hnodes, hscopes, h.steps, ?_, fun x hx => ?_,
    fun x hnew hknown => (hfate x hnew hknown).gone, hsilent⟩
  · refine (hmade hrefused).gone.resolve_left fun heq => ?_
    have hmem := mem_filter_scopeSetUp hrefused
    rw [heq] at hmem
    simp at hmem
  · refine (hmade hx).gone.resolve_right fun heq => ?_
    have hmem := mem_filter_scopeSetUp hx
    rw [heq] at hmem
    simp at hmem

/-- When the confined setup of a new scope fails, the error says so, and all that it has made, in any
number of scopes inside each other, is gone as if it had never been there. -/
theorem makeScope_failed (hw : w.Reachable) {p : ScopeId} {name : String}
    (hfree : w.isFree p name = true) (owner : ScopeId) (params : List Value) {type : ScopeType}
    (hsetup : type.setup.Confined ⟨w.scopes.size⟩) {reason : String}
    (hfail : ((w.opened p name owner params type).runSetup ⟨w.scopes.size⟩ type.setup).2 =
      .error reason) :
    ∃ w' done,
      w.makeScope p name owner params type = (w', .error (.scopeSetup name reason)) ∧
      LeavesNothing w w' done := by
  have ho := hw.orderly
  obtain ⟨done, hset⟩ :=
    setsUpEnclosed hsetup.inward (w.opened p name owner params type) ho.opened houses_opened
  rw [makeScope_of_isFree hfree]
  generalize runSetup _ _ type.setup = outcome at hset hfail ⊢
  obtain ⟨w', answer⟩ := outcome
  subst hfail
  obtain ⟨last, hend⟩ := hset.abandoned_encloses p
  exact ⟨_, _, rfl, hend.leavesNothing (hset.abandoned _) (by simp)⟩

/-- A setup that goes on after it has tried to make a scope. -/
def withInner (name : String) (inner next : Setup) : Setup :=
  .makeScope .here name ⟨"inner", [], inner, fun _ => [.note "closed"]⟩ [] fun _ => next

theorem withInner_confined {id : ScopeId} {name : String} {inner next : Setup}
    (hinner : ∀ id, inner.Confined id) (hnext : next.Confined id) :
    (withInner name inner next).Confined id :=
  .makeScope (Location.here_within id) hinner fun _ _ => hnext

/-- Makes a node, a scope with another in it, and a scope that is refused after it has made one
itself; then it is refused. -/
def refusedAtLast : ScopeType where
  name := "outer"
  params := []
  setup := .makeNode .here "node" { name := "plain" } [] fun _ =>
    withInner "completed" (withInner "deeper" .done .done)
      (withInner "refused" (withInner "deeper" .done (.fail "busy")) (.fail "stopped"))
  destroy _ := [.note "closed"]

theorem refusedAtLast_confined : refusedAtLast.Confined := fun id =>
  .makeNode (Location.here_within id) fun _ =>
    withInner_confined (fun _ => withInner_confined (fun _ => .done) .done)
      (withInner_confined (fun _ => withInner_confined (fun _ => .done) .fail) .fail)

theorem makeScope_failed_refusedAtLast :
    let w := Operation.run (.new #[]) (.change (.makeScope .root "kept" (.plain "t") .root []))
    w.Reachable ∧ w.isFree .root "new" = true ∧ refusedAtLast.setup.Confined ⟨w.scopes.size⟩ ∧
      ((w.opened .root "new" .root [] refusedAtLast).runSetup ⟨w.scopes.size⟩
        refusedAtLast.setup).2 = .error "stopped" ∧
      (∃ w' done, w.makeScope .root "new" .root [] refusedAtLast =
        (w', .error (.scopeSetup "new" "stopped")) ∧ LeavesNothing w w' done) ∧
      (w.makeScope .root "new" .root [] refusedAtLast).1.steps = w.steps ++
        [.scopeSetUp ⟨4⟩ true, .scopeSetUp ⟨3⟩ true, .scopeSetUp ⟨6⟩ true, .scopeSetUp ⟨5⟩ false,
          .scopeDestroyed ⟨6⟩, .scopeSetUp ⟨2⟩ false, .scopeDestroyed ⟨4⟩, .scopeDestroyed ⟨3⟩] := by
  intro w
  have hreachable : w.Reachable := .run (.new #[]) _
  have hfree : w.isFree .root "new" = true := by decide +kernel
  have hfail : ((w.opened .root "new" .root [] refusedAtLast).runSetup ⟨w.scopes.size⟩
      refusedAtLast.setup).2 = .error "stopped" := by decide +kernel
  exact ⟨hreachable, hfree, refusedAtLast_confined _, hfail,
    makeScope_failed hreachable hfree .root [] (refusedAtLast_confined _) hfail, by decide +kernel⟩

/-! ## Setups that take the name -/

/-- What no entry is for lies under nothing but itself. -/
theorem not_under_of_unheld {top m : Member} (hm : ∀ p name, ¬w.Holds p name m) (hne : top ≠ m) :
    ¬Under w top m := by
  rintro (_ | ⟨-, hheld⟩)
  · exact hne rfl
  · exact hm _ _ hheld

/-- A setup that has succeeded after its name was taken leaves its scope behind: it is there and
counts as set up, with all that has been made in it, but no entry is for it. -/
theorem makeScope_preempted (hw : w.Reachable) {p : ScopeId} {name : String}
    (hfree : w.isFree p name = true) (owner : ScopeId) (params : List Value) {type : ScopeType}
    {before : World} (hset : (w.opened p name owner params type).runSetup ⟨w.scopes.size⟩
      type.setup = (before, .ok ())) (htaken : ¬before.isFree p name = true) :
    ∃ w' path, w.makeScope p name owner params type = (w', .error (.alreadyDefined name path)) ∧
      w'.phase? ⟨w.scopes.size⟩ = some true ∧
      (∀ q n, ¬w'.Holds q n (.scope ⟨w.scopes.size⟩)) ∧
      ¬Under w' (.scope .root) (.scope ⟨w.scopes.size⟩) ∧
      (∀ m, w'.Lives m ↔ before.Lives m) ∧
      w'.steps = before.steps ++ [.scopeSetUp ⟨w.scopes.size⟩ true] := by
  have ho := hw.orderly
  obtain ⟨holder, hholder, -⟩ := (isFree_iff ho.tabled p name).mp hfree
  have hp := lt_size_of_scope? hholder
  have hne : p ≠ ⟨w.scopes.size⟩ := by
    rintro rfl
    exact Nat.lt_irrefl _ hp
  have hroot : ScopeId.root ≠ ⟨w.scopes.size⟩ := fun heq =>
    Nat.not_lt_zero _ (Nat.lt_of_lt_of_eq hp (congrArg ScopeId.index heq).symm)
  obtain ⟨hordered, hgrows⟩ := runSetup_grows (w.opened p name owner params type)
    ⟨w.scopes.size⟩ type.setup ho.opened
  rw [hset] at hordered hgrows
  obtain ⟨s, hs⟩ : before.Lives (.scope ⟨w.scopes.size⟩) :=
    hgrows.lives ⟨_, by rw [World.opened, scope?_push, if_pos rfl]⟩
  obtain ⟨-, hunheld⟩ := hgrows.unheld_push ho rfl
  have hsame := (SameTree.record before (.life (.scopeSetUp ⟨w.scopes.size⟩ true))).trans
    (ready_sameTree _ ⟨w.scopes.size⟩)
  have hunheld' := fun q n => mt (hsame.holds q n _).mp (hunheld q n)
  rw [makeScope_of_isFree hfree, hset]
  refine ⟨_, _, settle_of_taken (hordered.record _).tabled hne htaken type.name, ?_, hunheld',
    not_under_of_unheld hunheld' fun heq => hroot (Member.scope.inj heq),
    lives_congr hsame.nodeKey hsame.scopeKey, ?_⟩
  · rw [phase?, ready, scope?_modifyScope, if_pos rfl, scope?_record, hs]
    rfl
  · rw [ready, steps_modifyScope, steps_life]

/-- Makes a node in the root under the name that the scope is to get, and another in the scope. -/
def takesItsName : ScopeType where
  name := "rival"
  params := []
  setup := .makeNode (.inside .root) "a" { name := "plain" } [] fun _ =>
    .makeNode .here "inner" { name := "plain" } [] fun _ => .done
  destroy _ := [.note "closed"]

theorem makeScope_preempted_takesItsName :
    let w := World.new #[]
    let before := ((w.opened .root "a" .root [] takesItsName).runSetup ⟨1⟩ takesItsName.setup).1
    w.Reachable ∧ w.isFree .root "a" = true ∧
      (w.opened .root "a" .root [] takesItsName).runSetup ⟨1⟩ takesItsName.setup = (before, .ok ()) ∧
      ¬before.isFree .root "a" = true ∧
      ∃ w' path, w.makeScope .root "a" .root [] takesItsName =
          (w', .error (.alreadyDefined "a" path)) ∧
        w'.phase? ⟨1⟩ = some true ∧ (∀ q n, ¬w'.Holds q n (.scope ⟨1⟩)) ∧
        ¬Under w' (.scope .root) (.scope ⟨1⟩) ∧ (∀ m, w'.Lives m ↔ before.Lives m) ∧
        w'.steps = before.steps ++ [.scopeSetUp ⟨1⟩ true] := by
  intro w before
  have hreachable : w.Reachable := .new #[]
  have hfree : w.isFree .root "a" = true := by decide +kernel
  have hset : (w.opened .root "a" .root [] takesItsName).runSetup ⟨1⟩ takesItsName.setup =
      (before, .ok ()) := rfl
  have htaken : ¬before.isFree .root "a" = true := by decide +kernel
  exact ⟨hreachable, hfree, hset, htaken,
    makeScope_preempted hreachable hfree .root [] hset htaken⟩

/-- The scope that was given up has not been destroyed, and it is there, out of reach of the root. -/
theorem makeScope_leaks :
    let w := World.new #[]
    let made := w.makeScope .root "a" .root [] takesItsName
    w.Reachable ∧ w.isFree .root "a" = true ∧
      ((w.opened .root "a" .root [] takesItsName).runSetup ⟨1⟩ takesItsName.setup).2 = .ok () ∧
      made.2 = .error (.alreadyDefined "a" "") ∧
      made.1.Lives (.scope ⟨1⟩) ∧ made.1.steps.count (.scopeDestroyed ⟨1⟩) = 0 ∧
      ¬Under made.1 (.scope .root) (.scope ⟨1⟩) := by
  intro w made
  have htabled : made.1.Tabled :=
    (makeScope_grows w .root "a" .root [] takesItsName (Forest.orderly (new_tree #[]))).1.tabled
  have hnone : made.1.entries.all (fun e => !e.isForScope ⟨1⟩) = true := by decide +kernel
  refine ⟨.new #[], by decide +kernel, rfl, by decide +kernel,
    Option.isSome_iff_exists.mp (by decide +kernel), by decide +kernel,
    not_under_of_unheld (fun q n hheld => ?_) nofun⟩
  have hnot := List.all_eq_true.mp hnone _ ((mem_entries htabled (e := ⟨q, n, _⟩)).mpr hheld)
  rw [Entry.isForScope_iff.mpr rfl] at hnot
  cases hnot

end World

end FrameGraph
