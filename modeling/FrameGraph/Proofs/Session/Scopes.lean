import FrameGraph.Proofs.Schedule.Attending
import FrameGraph.Proofs.Session.Lifecycle

/-!
# The lives of scopes in a session

Whether loading a script fails or the session is closed in the end, the world is taken down at last.
So each scope that was made at any moment, also within a setup that failed, has been destroyed once,
unless its own setup was refused, and everything that was under it then has been destroyed before.
-/
namespace FrameGraph

open World Schedule

/-- The steps of a scope that was made and is gone: its setup was refused, or it was completed and
the scope was destroyed once. -/
inductive ScopeLife (x : ScopeId) : List LifeStep → Prop
  | refused : ScopeLife x [.scopeSetUp x false]
  | lived : ScopeLife x [.scopeSetUp x true, .scopeDestroyed x]

/-- How the scopes have lived that were there at some moments, given all steps in the end. -/
structure ScopesLived (moments : World → Prop) (steps : List LifeStep) : Prop where
  /-- No scope has other steps than those of one life. -/
  once : ∀ x, steps.filter (LifeStep.isOfScope x) = [] ∨
    ScopeLife x (steps.filter (LifeStep.isOfScope x))
  /-- The steps until a moment are the first of all. -/
  soFar : ∀ u, moments u → u.steps <+: steps
  /-- What was there at a moment has lived, also if it was still being set up. -/
  there : ∀ u, moments u → ∀ x, x ≠ .root → u.Lives (.scope x) →
    ScopeLife x (steps.filter (LifeStep.isOfScope x))
  /-- What was a member at a moment was destroyed, whatever became of the scope that held it. -/
  held : ∀ u, moments u → ∀ p name x, u.Holds p name (.scope x) →
    steps.filter (LifeStep.isOfScope x) = [.scopeSetUp x true, .scopeDestroyed x]
  /-- After a scope has been destroyed there is no step of what was under it at any moment. -/
  order : ∀ u, moments u → ∀ p m, Under u (.scope p) m → m ≠ .scope p → ∀ before after,
    steps = before ++ .scopeDestroyed p :: after → ∀ step ∈ after, step.subject ≠ m

namespace World

variable {w u : World} {moments : World → Prop}

/-- When everything is taken down, the root alone is left of the scopes. -/
theorem Tree.phase?_clear (h : w.Tree) {x : ScopeId} (hx : x ≠ .root) :
    w.clear.phase? x = none := by
  have hleft {m : Member} (hm : Under w.clear (.scope .root) m) : m = .scope .root ∨
      m.isOwned = false := by
    induction hm with
    | top => exact .inl rfl
    | entry _ hheld ih =>
      obtain heq | hnot := ih
      · cases heq
        exact .inr ((Forest.holds_clear_root h _ _).mp hheld).2
      · cases hnot
  have htree : w.clear.Tree := (Edit.clear w).tree h
  rw [phase?_eq_none, Option.eq_none_iff_forall_ne_some]
  intro s hs
  obtain heq | hnot := hleft (htree.under_root (m := .scope x) ⟨s, hs⟩)
  · cases heq
    exact hx rfl
  · cases hnot

/-- No step so far has destroyed a scope that is there. -/
theorem Chronicle.not_destroyed {loose : ScopeId → Prop} (h : Chronicle w loose) {p : ScopeId}
    (hp : w.Lives (.scope p)) : .scopeDestroyed p ∉ w.steps := by
  intro hmem
  have hfilter : LifeStep.scopeDestroyed p ∈ w.scopeSteps p :=
    List.mem_filter.mpr ⟨hmem, decide_eq_true rfl⟩
  by_cases hloose : loose p
  · rw [((h.told p).silent (.inl hloose)).1] at hfilter
    cases hfilter
  · rw [(h.told p).of_lives hloose hp] at hfilter
    simp at hfilter

/-- What is under a scope at a moment is destroyed before it. -/
theorem Precedes.order (h : Precedes u w) {p : ScopeId} {m : Member} (hunder : Under u (.scope p) m)
    (hne : m ≠ .scope p) {before after : List LifeStep}
    (hsteps : w.steps = before ++ .scopeDestroyed p :: after) :
    ∀ step ∈ after, step.subject ≠ m := by
  obtain ⟨loose, hchronicle⟩ := h.chronicle
  obtain ⟨done, hproceeds⟩ := h.leads
  have hlives (howned : m.isOwned = true) : u.Lives m := by
    cases hunder with
    | top => exact absurd rfl hne
    | entry _ hheld => exact hchronicle.forest.lives_of_holds hheld howned
  intro step hstep heq
  have howned : m.isOwned = true := by
    rw [← heq]
    cases step <;> rfl
  rw [hproceeds.steps] at hsteps
  obtain ⟨rest, hfront, -⟩ | ⟨rest, -, hdone⟩ := append_eq_append_cons hsteps
  · -- Until the moment the scope has not been destroyed: it is still there.
    refine hchronicle.not_destroyed (hunder.lives_top (hlives howned)) ?_
    rw [hfront]
    simp
  · exact hproceeds.order p m hunder hne (hlives howned) rest after hdone step hstep heq

/-- When everything has been taken down, all scopes that were there at any moment have lived. -/
theorem Settled.scopesLived (h : w.Settled) (hmoments : ∀ u, moments u → Precedes u w) :
    ScopesLived moments w.clear.steps := by
  obtain ⟨hend, hleads, -⟩ := (Edit.clear w).settles h
  have hprecedes (u : World) (hu : moments u) := (hmoments u hu).trans hleads
  have hlife {x : ScopeId} (hx : x ≠ .root) (hknown : ¬w.clear.Beyond (.scope x)) :
      ScopeLife x (w.clear.steps.filter (LifeStep.isOfScope x)) := by
    change ScopeLife x (w.clear.scopeSteps x)
    obtain hrefused | hlived := (hend.told x).gone hx hknown (h.tree.phase?_clear hx)
    · rw [hrefused]
      exact .refused
    · rw [hlived]
      exact .lived
  have hthere (u : World) (hu : moments u) (x : ScopeId) (hx : x ≠ .root)
      (hlives : u.Lives (.scope x)) :
      ScopeLife x (w.clear.steps.filter (LifeStep.isOfScope x)) := by
    obtain ⟨done, hproceeds⟩ := (hprecedes u hu).leads
    exact hlife hx fun hlate => hlives.not_beyond (hproceeds.beyond hlate)
  refine ⟨fun x => ?_, fun u hu => ?_, hthere, fun u hu p name x hheld => ?_,
    fun u hu p m hunder hne before after => (hprecedes u hu).order hunder hne⟩
  · by_cases hsilent : x = .root ∨ w.clear.Beyond (.scope x)
    · exact .inl ((hend.told x).silent hsilent).1
    · exact .inr (hlife (not_or.mp hsilent).1 (not_or.mp hsilent).2)
  · obtain ⟨done, hproceeds⟩ := (hprecedes u hu).leads
    exact ⟨done, hproceeds.steps.symm⟩
  · obtain ⟨loose, hchronicle⟩ := (hprecedes u hu).chronicle
    obtain ⟨done, hproceeds⟩ := (hprecedes u hu).leads
    obtain ⟨hloose, hkey⟩ := (hchronicle.forest.holds_scope p name x).mp hheld
    have hlives : u.Lives (.scope x) := lives_scope_iff.mpr ⟨_, hkey⟩
    have hroot : x ≠ .root := by
      rintro rfl
      exact Nat.not_lt_zero _ (hchronicle.forest.older .root name p hkey)
    have hlife := hthere u hu x hroot hlives
    have hsteps := scopeSteps_of_steps hproceeds.steps x
    rw [(hchronicle.told x).of_lives hloose hlives, scopeSteps] at hsteps
    rw [hsteps] at hlife ⊢
    generalize done.filter (LifeStep.isOfScope x) = rest at hlife ⊢
    cases hlife
    rfl

end World

namespace Session

variable {s : Session}

/-! ## Actions -/

/-- The worlds that are passed through during an action. Building and running make no scopes. -/
def ActionPasses (s : Session) (a : Action) (u : World) : Prop :=
  ∃ c, a = .change c ∧ c.Passes s.world u

theorem build_attends (s : Session) : Attends s.world s.build.1.world := by
  cases hs : s.schedule with
  | some g =>
    rw [Session.build, hs]
    exact .refl _
  | none =>
    have hbuild := Schedule.build_attends s.world
    rw [Session.build, hs]
    generalize Schedule.build s.world = outcome at hbuild ⊢
    obtain ⟨w, result⟩ := outcome
    cases result <;> exact hbuild

theorem frame_attends (s : Session) (g : Schedule) (profile : Option Profile)
    (timing : FrameTiming) : Attends s.world (s.frame g profile timing).1.world := by
  rw [frame_eq]
  exact update_attends s.world g

theorem runFrames_attends (g : Schedule) (timing : Nat → FrameTiming) (frames number : Nat)
    (s : Session) (profile : Option Profile) :
    Attends s.world (Session.runFrames g timing frames number s profile).1.world := by
  induction frames generalizing s number profile with
  | zero => exact .refl _
  | succ frames ih => exact (frame_attends s g profile (timing number)).trans (ih (number + 1) _ _)

theorem tearDown_attends (s : Session) : Attends s.world s.tearDown.world := by
  rw [tearDown]
  cases s.schedule with
  | none => exact .refl _
  | some g => exact Schedule.tearDown_attends s.world g

theorem step_attends (s : Session) (profile : Option Profile) (timing : FrameTiming) :
    Attends s.world (s.step profile timing).1.world := by
  have hbuild := build_attends s
  rw [Session.step]
  generalize s.build = built at hbuild ⊢
  obtain ⟨s', result⟩ := built
  cases result with
  | error e => exact hbuild
  | ok g => exact hbuild.trans (frame_attends s' g profile timing)

theorem run_settles (s : Session) (options : RunOptions) (timing : Nat → FrameTiming) :
    Settles (fun _ => False) s.world (s.run options timing).1.world := by
  have hbuild := build_attends s
  rw [Session.run, startRun]
  generalize s.build = built at hbuild ⊢
  obtain ⟨s', result⟩ := built
  cases result with
  | error e => exact hbuild.settles
  | ok g =>
    let ready : Session := { s' with world := s'.world.record (.scheduleReady g.size) }
    have hready : Attends s.world ready.world := hbuild.trans (.record s'.world rfl)
    dsimp only
    split
    · exact hready.settles
    · have hframes (profile : Option Profile) :=
        hready.trans (runFrames_attends g timing options.frames 0 ready profile)
      exact (hframes _).settles.trans (endRun_edits _ _ _).settles

theorem perform_settles (s : Session) {a : Action} (ha : a.Confined) :
    Settles (ActionPasses s a) s.world (a.perform s).1.world := by
  cases a with
  | build => exact (build_attends s).settles.of_none (by simp [ActionPasses])
  | step profile timing => exact (step_attends s profile timing).settles.of_none (by simp [ActionPasses])
  | run options timing => exact (run_settles s options timing).of_none (by simp [ActionPasses])
  | tearDown => exact (tearDown_attends s).settles.of_none (by simp [ActionPasses])
  | change c =>
    intro hw
    obtain ⟨hend, hleads, hpasses⟩ := c.settles ha s.world hw
    refine ⟨hend, hleads, ?_⟩
    rintro u ⟨_, heq, hu⟩
    cases heq
    exact hpasses u hu

/-! ## Loading -/

/-- The worlds that are passed through while a script is loaded. -/
inductive LoadPasses (catalog : Catalog) (source : String) (journal : Array Event) : World → Prop
  | new : LoadPasses catalog source journal (World.new journal)
  | populating {program : Script.Program} {u : World}
    (read : ReadAs source program)
    (inner : catalog.Passes (readWorld journal program) .root u) :
    LoadPasses catalog source journal u
  | applying {program : Script.Program} {w u : World}
    (read : ReadAs source program)
    (populated : catalog.populate (readWorld journal program) .root = (w, []))
    (inner : Assembly.Passes w .root program u) : LoadPasses catalog source journal u

/-- Loading goes one way: where the catalog has been put into the world, it was for the program that
was read. -/
theorem LoadPasses.cases_of_read {catalog : Catalog} {source : String} {journal : Array Event}
    {u : World} (h : LoadPasses catalog source journal u) {program : Script.Program}
    (hread : ReadAs source program) :
    u = World.new journal ∨ catalog.Passes (readWorld journal program) .root u ∨
      ∃ w, catalog.populate (readWorld journal program) .root = (w, []) ∧
        Assembly.Passes w .root program u := by
  cases h with
  | new => exact .inl rfl
  | populating read inner =>
    cases hread.2.symm.trans read.2
    exact .inr (.inl inner)
  | applying read populated inner =>
    cases hread.2.symm.trans read.2
    exact .inr (.inr ⟨_, populated, inner⟩)

theorem LoadEnds.settles {catalog : Catalog} (hcatalog : catalog.Confined) {source : String}
    {journal : Array Event} {w : World} {result : Except LoadFailure Session}
    (h : LoadEnds catalog source journal w result) :
    Settles (LoadPasses catalog source journal) (World.new journal) w := by
  intro hnew
  have hpopulated (program : Script.Program) : Continues (fun x => x = .root)
      (catalog.Passes (readWorld journal program) .root) (World.new journal)
      (catalog.populate (readWorld journal program) .root).1 := by
    have hread := (Edit.record (World.new journal) (.scriptParsed program.statements.length)
      fun step h => by cases h).settles hnew
    have hpopulated := Catalog.populate_settles hcatalog _ .root hread.chronicle
    exact hread.trans hpopulated fun u => .inr ∘ .inr
  have happlied {program : Script.Program} {w : World} (hread : ReadAs source program)
      (h : catalog.populate (readWorld journal program) .root = (w, [])) :
      Continues (fun x => x = .root) (LoadPasses catalog source journal) (World.new journal)
        (appliedWorld w program) := by
    have hbefore := hpopulated program
    rw [h] at hbefore
    have happlied := Assembly.apply_settles w .root program hbefore.chronicle
    have hafter := (diagnosed_edits (Assembly.apply w .root program).world
      (Assembly.apply w .root program).diagnostics).settles happlied.chronicle
    refine (hbefore.trans happlied fun u hu => .inr hu).trans hafter fun u hu => ?_
    obtain rfl | hu | ⟨_, hagain, hu⟩ := hu.cases_of_read hread
    · exact .inl ((hbefore.start hnew).trans happlied.leads)
    · exact .inr (.inl (.inl hu))
    · cases h.symm.trans hagain
      exact .inr (.inl (.inr hu))
  cases h with
  | unread refused ended =>
    subst ended
    have hdiagnosed :=
      (diagnosed_edits (World.new journal) (Script.parse source).errors).settles hnew
    refine ⟨hdiagnosed.chronicle, hdiagnosed.leads, fun u hu => ?_⟩
    cases hu with
    | new => exact hdiagnosed.start hnew
    | populating read => exact absurd read (refused _)
    | applying read => exact absurd read (refused _)
  | @unpopulated program _ _ _ read refused =>
    have hbefore := hpopulated program
    rw [refused] at hbefore
    refine ⟨hbefore.chronicle, hbefore.leads, fun u hu => ?_⟩
    obtain rfl | hu | ⟨_, hagain, hu⟩ := hu.cases_of_read read
    · exact hbefore.start hnew
    · exact hbefore.precedes u hu
    · cases refused.symm.trans hagain
  | unapplied read populated => exact happlied read populated
  | loaded read populated applied =>
    have hbefore := happlied read populated
    have hrecorded := (Edit.record _ _ applied).settles hbefore.chronicle
    exact hbefore.trans hrecorded fun u hu => .inr (.inl hu)

/-! ## Whole runs -/

/-- All that happens if a script is loaded and, where this succeeds, the session is closed after
some actions. -/
def lifeJournal (catalog : Catalog) (source : String) (journal : Array Event)
    (actions : List Action) : Array Event :=
  match load catalog source journal with
  | .error failure => failure.journal
  | .ok s => (s.performAll actions).close.journal

/-- The steps in all that happens. -/
def lifeSteps (catalog : Catalog) (source : String) (journal : Array Event)
    (actions : List Action) : List LifeStep :=
  (lifeJournal catalog source journal actions).toList.filterMap Event.step?

/-- The worlds that are passed through until everything is taken down. -/
inductive Moment (catalog : Catalog) (source : String) (journal : Array Event)
    (actions : List Action) : World → Prop
  | loading {u : World} (inner : LoadPasses catalog source journal u) :
    Moment catalog source journal actions u
  | acting {s : Session} {u : World} (loaded : load catalog source journal = .ok s)
    (inner : FoldPasses (fun s a => (a.perform s).1) Session.world ActionPasses s actions u) :
    Moment catalog source journal actions u

/-- How nodes and scopes live if a script is loaded and the session is closed after some actions. -/
structure LivesOut (catalog : Catalog) (source : String) (journal : Array Event)
    (actions : List Action) : Prop where
  scopes : ScopesLived (Moment catalog source journal actions)
    (lifeSteps catalog source journal actions)
  nodes : ∀ id, Blocks id ((lifeSteps catalog source journal actions).filter (LifeStep.isOf id))
  /-- Closing first destroys the nodes of the schedule that are there, the last first, and then
  scopes only. -/
  closing : ∀ s, load catalog source journal = .ok s → ∃ farewells,
    lifeSteps catalog source journal actions = (s.performAll actions).world.steps ++
      ((s.performAll actions).order.reverse.filter (isThere (s.performAll actions).world)).map
        .nodeDestroyed ++ farewells ∧
    ∀ step ∈ farewells, ∃ x, step = .scopeDestroyed x

/-- What is destroyed where no node is set up are scopes. -/
theorem scopes_of_farewells {steps : List LifeStep} {up : List NodeId}
    (h : course [] steps = some up) (hfarewell : ∀ step ∈ steps, step.isFarewell = true) :
    ∀ step ∈ steps, ∃ x, step = .scopeDestroyed x := by
  induction steps with
  | nil => exact List.forall_mem_nil _
  | cons step steps ih =>
    obtain ⟨hstep, hsteps⟩ := List.forall_mem_cons.mp hfarewell
    cases step with
    | nodeSetUp | nodeUpdated | scopeSetUp => cases hstep
    | nodeDestroyed x =>
      rw [course_cons, LifeStep.advance, if_neg List.not_mem_nil] at h
      cases h
    | scopeDestroyed x =>
      rw [course_cons] at h
      exact List.forall_mem_cons.mpr ⟨⟨x, rfl⟩, ih h hsteps⟩

/-- Closing a session destroys the nodes that are set up, the latest first, and then its scopes. -/
theorem Sound.close_steps (h : s.Sound) : ∃ farewells, s.close.steps = s.world.steps ++
    (s.order.reverse.filter (isThere s.world)).map .nodeDestroyed ++ farewells ∧
    ∀ step ∈ farewells, ∃ x, step = .scopeDestroyed x := by
  obtain ⟨hdown, hsteps⟩ := h.tearDown
  rw [Sound, order, tearDown_schedule] at hdown
  obtain ⟨farewells, hdeparts, hfarewell⟩ := clear_departs hdown.tree
  have hclose : s.close.steps = s.tearDown.world.steps ++ farewells := hdeparts.proceeds.steps
  have hcourse := h.close
  rw [hclose, course_append, hdown.course_eq, Option.bind_some] at hcourse
  have hup : s.order.reverse.filter s.world.isUp = s.order.reverse.filter (isThere s.world) := by
    refine List.filter_congr fun x hx => Bool.eq_iff_iff.mpr ?_
    rw [h.isUp x]
    exact and_iff_right (List.mem_reverse.mp hx)
  refine ⟨farewells, by rw [hclose, hsteps, hup], scopes_of_farewells hcourse hfarewell⟩

/-- A failure keeps what happened until the world in which loading ended was taken down. -/
theorem LoadEnds.journal_eq {catalog : Catalog} {source : String} {journal : Array Event}
    {w : World} {failure : LoadFailure} (h : LoadEnds catalog source journal w (.error failure)) :
    failure.journal = w.clear.journal := by
  cases h <;> rfl

theorem LoadEnds.world_eq {catalog : Catalog} {source : String} {journal : Array Event} {w : World}
    (h : LoadEnds catalog source journal w (.ok s)) : s.world = w := by
  cases h
  rfl

/-- However it ends, there is a last world that is taken down, which all moments precede. -/
theorem exists_last {catalog : Catalog} (hcatalog : catalog.Confined) (source : String)
    {journal : Array Event} (hjournal : ∀ e ∈ journal, e.step? = none) {actions : List Action}
    (hactions : ∀ a ∈ actions, a.Confined) : ∃ w, w.Settled ∧
      (∀ u, Moment catalog source journal actions u → Precedes u w) ∧
      w.clear.steps = lifeSteps catalog source journal actions ∧
      course [] w.clear.steps = some [] := by
  obtain ⟨w, hends⟩ := load_ends catalog source journal
  have hloading := hends.settles hcatalog (new_settled hjournal)
  rw [lifeSteps, lifeJournal]
  cases hload : load catalog source journal with
  | error failure =>
    have hruns := (new_runs hjournal).edits (hends.edits hcatalog)
    rw [hload] at hends
    refine ⟨w, hloading.chronicle, fun u hu => ?_, ?_, (hruns.edits (.single (.clear w))).course_eq⟩
    · cases hu with
      | loading inner => exact hloading.precedes u inner
      | acting loaded => cases hload.symm.trans loaded
    · exact congrArg (fun journal => journal.toList.filterMap Event.step?) hends.journal_eq.symm
  | ok s =>
    rw [hload] at hends
    rw [← hends.world_eq] at hloading
    have hacting := foldl_settles (fun s a ha => perform_settles s (hactions a ha)) s
      hloading.chronicle
    -- The last world is the one without a schedule, since closing tears the schedule down first.
    have hclosing := (tearDown_attends (s.performAll actions)).settles hacting.chronicle
    have hsound := (load_sound hcatalog hjournal hload).performAll actions hactions
    refine ⟨(s.performAll actions).tearDown.world, hclosing.chronicle, fun u hu => ?_, rfl,
      hsound.close⟩
    cases hu with
    | loading inner => exact (hloading.precedes u inner).trans (hacting.leads.trans hclosing.leads)
    | acting loaded inner =>
      cases hload.symm.trans loaded
      exact (hacting.precedes u inner).trans hclosing.leads

/-- The lives of scopes in all runs, whether loading fails or the session is closed in the end. -/
theorem reached_livesOut {catalog : Catalog} (hcatalog : catalog.Confined) (source : String)
    {journal : Array Event} (hjournal : ∀ e ∈ journal, e.step? = none) {actions : List Action}
    (hactions : ∀ a ∈ actions, a.Confined) : LivesOut catalog source journal actions := by
  obtain ⟨w, hsettled, hmoments, hsteps, hcourse⟩ := exists_last hcatalog source hjournal hactions
  refine ⟨hsteps ▸ hsettled.scopesLived hmoments, fun id => ?_, fun s hload => ?_⟩
  · rw [← hsteps]
    exact ((course_inBlocks hcourse).2 id).isClosed List.not_mem_nil
  · have hsound := (load_sound hcatalog hjournal hload).performAll actions hactions
    obtain ⟨farewells, hclose, hscopes⟩ := hsound.close_steps
    refine ⟨farewells, ?_, hscopes⟩
    rw [lifeSteps, lifeJournal, hload]
    exact hclose

/-- A type of scopes that make a scope in themselves and then refuse to be set up. -/
def refusing : ScopeType :=
  ⟨"outer", [], .makeScope .here "inner" (ScopeType.plain "inner") [] fun _ => .fail "no reason",
    fun _ => []⟩

theorem refusing_confined : refusing.Confined := fun id =>
  .makeScope (Location.here_within id) (fun _ => .done) fun _ _ => .fail

/-- A frame, and then the setup of a scope is refused. The schedule is still there in the end. -/
def refusedLate : List Action :=
  [.step none ⟨fun _ => 0, 0⟩, .change (.makeScope .root "outer" refusing .root [])]

theorem reached_livesOut_refusedLate : (∀ e ∈ (#[] : Array Event), e.step? = none) ∧
    (∀ a ∈ refusedLate, a.Confined) ∧ LivesOut Window.catalog trail #[] refusedLate ∧
    lifeSteps Window.catalog trail #[] refusedLate =
      [.scopeSetUp ⟨1⟩ true, .nodeSetUp ⟨1⟩ true, .nodeSetUp ⟨0⟩ true, .nodeUpdated ⟨1⟩,
        .nodeUpdated ⟨0⟩, .scopeSetUp ⟨3⟩ true, .scopeSetUp ⟨2⟩ false, .scopeDestroyed ⟨3⟩,
        .nodeDestroyed ⟨0⟩, .nodeDestroyed ⟨1⟩, .scopeDestroyed ⟨1⟩] := by
  have hjournal : ∀ e ∈ (#[] : Array Event), e.step? = none := by simp
  have hconfined : ∀ a ∈ refusedLate, a.Confined := by
    simp [refusedLate, Action.Confined, Change.Confined, refusing_confined]
  exact ⟨hjournal, hconfined, reached_livesOut Window.catalog_confined trail hjournal hconfined,
    by decide +kernel⟩

end Session

end FrameGraph
