import FrameGraph.Proofs.Schedule.Running
import FrameGraph.Session

/-!
# The lives of nodes in a session

Whatever is done to a session until it is closed, building and running it, tearing it down and
editing its world, every node lives in blocks of steps, and all blocks are closed in the end. What
is torn down, and what is rolled back, is destroyed in the reverse of the order in which it was set
up.
-/
namespace FrameGraph

open World Schedule

/-- What can be done with a session. -/
inductive Action where
  | build
  | step (profile : Option Profile) (timing : FrameTiming)
  | run (options : RunOptions) (timing : Nat → FrameTiming)
  | tearDown
  | change (c : Change)

namespace Action

/-- The error that an outcome is, if it is one. -/
def failure? {α : Type} : Except BuildError α → Option BuildError
  | .ok _ => none
  | .error e => some e

/-- The session after an action, and the error if the action has failed. -/
def perform (s : Session) : Action → Session × Option BuildError
  | build => (s.build.1, failure? s.build.2)
  | step profile timing => ((s.step profile timing).1, failure? (s.step profile timing).2)
  | run options timing => ((s.run options timing).1, failure? (s.run options timing).2)
  | tearDown => (s.tearDown, none)
  | change c => ({ s with world := c.run s.world }, none)

/-- The setups that the action brings into the world are confined. -/
def Confined : Action → Prop
  | change c => c.Confined
  | build | step .. | run .. | tearDown => True

end Action

namespace Session

/-- The update order, if the schedule is built. -/
def order (s : Session) : List NodeId :=
  match s.schedule with
  | none => []
  | some g => g.order

/-- The nodes that are set up are those of the schedule, and all steps so far were possible. -/
def Sound (s : Session) : Prop := Runs s.world s.order

/-- The session after some actions. -/
def performAll (s : Session) (actions : List Action) : Session :=
  actions.foldl (fun s a => (a.perform s).1) s

variable {s : Session}

theorem Sound.edits (h : s.Sound) {w : World} (he : Edits s.world w) :
    Sound { s with world := w } :=
  Runs.edits h he

/-- Building leaves a schedule that runs, or it is rolled back. -/
theorem Sound.build (h : s.Sound) : s.build.1.Sound ∧
    (∀ g, s.build.2 = .ok g → s.build.1.schedule = some g) ∧
    ∀ e, s.build.2 = .error e → RollsBack s.world s.build.1.world := by
  cases hs : s.schedule with
  | some g =>
    rw [Session.build, hs]
    exact ⟨h, fun g' hg' => by cases hg'; exact hs, nofun⟩
  | none =>
    have hruns : Runs s.world [] := by rwa [Sound, order, hs] at h
    obtain ⟨hok, herror⟩ := build_runs hruns
    rw [Session.build, hs]
    generalize Schedule.build s.world = outcome at hok herror
    obtain ⟨w, result⟩ := outcome
    cases result with
    | ok g => exact ⟨hok g rfl, fun g' hg' => by cases hg'; rfl, nofun⟩
    | error e =>
      obtain ⟨hruns, hback⟩ := herror e rfl
      exact ⟨hruns, nofun, fun _ _ => hback⟩

/-- Measured or not, a frame updates the world. -/
theorem frame_eq (s : Session) (g : Schedule) (profile : Option Profile) (timing : FrameTiming) :
    (s.frame g profile timing).1 = { s with world := g.update s.world } := by
  cases profile with
  | none => rfl
  | some p => exact congrArg (fun w => { s with world := w }) (updateTimed_world g s.world p timing)

theorem Sound.frame (h : s.Sound) {g : Schedule} (hg : s.schedule = some g)
    (profile : Option Profile) (timing : FrameTiming) :
    (s.frame g profile timing).1.Sound ∧ (s.frame g profile timing).1.schedule = some g := by
  have hruns : Runs s.world g.order := by rwa [Sound, order, hg] at h
  rw [frame_eq]
  refine ⟨?_, hg⟩
  rw [Sound, order, hg]
  exact update_runs hruns

theorem Sound.runFrames {g : Schedule} (timing : Nat → FrameTiming) (frames number : Nat)
    (h : s.Sound) (hg : s.schedule = some g) (profile : Option Profile) :
    (Session.runFrames g timing frames number s profile).1.Sound := by
  induction frames generalizing s number profile with
  | zero => exact h
  | succ frames ih =>
    obtain ⟨hsound, hg'⟩ := h.frame hg profile (timing number)
    exact ih (number + 1) hsound hg' _

theorem endRun_edits (s : Session) (frames : Nat) (profile : Option Profile) :
    Edits s.world (s.endRun frames profile).1.world := by
  refine (recordAll_edits s.world fun e he step => ?_).tail (.record _ _ nofun)
  cases profile with
  | none => cases he
  | some p =>
    obtain rfl | he := List.mem_cons.mp he
    · nofun
    · obtain ⟨summary, -, rfl⟩ := List.mem_map.mp he
      nofun

theorem Sound.endRun (h : s.Sound) (frames : Nat) (profile : Option Profile) :
    (s.endRun frames profile).1.Sound :=
  h.edits (s.endRun_edits frames profile)

theorem Sound.tearDown (h : s.Sound) : s.tearDown.Sound ∧ s.tearDown.world.steps =
    s.world.steps ++ (s.order.reverse.filter s.world.isUp).map .nodeDestroyed := by
  rw [Sound, order] at h
  rw [order, Session.tearDown]
  cases hs : s.schedule with
  | none =>
    rw [hs] at h
    refine ⟨?_, (List.append_nil _).symm⟩
    rwa [Sound, order, hs]
  | some g =>
    rw [hs] at h
    exact tearDown_runs h

/-- No action makes a session unsound, and one that fails has been rolled back. -/
theorem Sound.perform (h : s.Sound) {a : Action} (ha : a.Confined) : (a.perform s).1.Sound ∧
    ∀ e, (a.perform s).2 = some e → RollsBack s.world (a.perform s).1.world := by
  have hbuild := h.build
  cases a with
  | build =>
    rw [Action.perform]
    generalize s.build = built at hbuild
    obtain ⟨s', result⟩ := built
    obtain ⟨hsound, -, hback⟩ := hbuild
    cases result with
    | ok g => exact ⟨hsound, nofun⟩
    | error e => exact ⟨hsound, fun _ _ => hback e rfl⟩
  | step profile timing =>
    rw [Action.perform, Session.step]
    generalize s.build = built at hbuild
    obtain ⟨s', result⟩ := built
    obtain ⟨hsound, hbuilt, hback⟩ := hbuild
    cases result with
    | ok g => exact ⟨(hsound.frame (hbuilt g rfl) profile timing).1, nofun⟩
    | error e => exact ⟨hsound, fun _ _ => hback e rfl⟩
  | run options timing =>
    rw [Action.perform, Session.run, Session.startRun]
    generalize s.build = built at hbuild
    obtain ⟨s', result⟩ := built
    obtain ⟨hsound, hbuilt, hback⟩ := hbuild
    cases result with
    | error e => exact ⟨hsound, fun _ _ => hback e rfl⟩
    | ok g =>
      have hready := hsound.edits (.single (.record s'.world (.scheduleReady g.size) nofun))
      dsimp only
      cases options.dryRun with
      | true =>
        rw [if_pos rfl]
        exact ⟨hready, nofun⟩
      | false =>
        rw [if_neg Bool.false_ne_true]
        have hframes := hready.runFrames timing options.frames 0 (hbuilt g rfl)
        exact ⟨(hframes _).endRun _ _, nofun⟩
  | tearDown => exact ⟨h.tearDown.1, nofun⟩
  | change c => exact ⟨h.edits (c.edits h.tree ha), nofun⟩

theorem Sound.performAll (h : s.Sound) (actions : List Action)
    (hactions : ∀ a ∈ actions, a.Confined) : (s.performAll actions).Sound := by
  induction actions generalizing s with
  | nil => exact h
  | cons a actions ih =>
    obtain ⟨ha, hrest⟩ := List.forall_mem_cons.mp hactions
    exact ih (h.perform ha).1 hrest

/-! ## Loading -/

/-- The script is read as the program, without an error. -/
def ReadAs (source : String) (program : Script.Program) : Prop :=
  (Script.parse source).errors = [] ∧ (Script.parse source).program = some program

/-- The world into which a program is put that was read from a script. -/
def readWorld (journal : Array Event) (program : Script.Program) : World :=
  (World.new journal).record (.scriptParsed program.statements.length)

/-- The world into which a program has been put, with all that there was to say about it. -/
def appliedWorld (w : World) (program : Script.Program) : World :=
  (Assembly.apply w .root program).world.recordAll
    ((Assembly.apply w .root program).diagnostics.map Event.diagnosed)

/-- How loading ends, and the world in which it does. -/
inductive LoadEnds (catalog : Catalog) (source : String) (journal : Array Event) :
    World → Except LoadFailure Session → Prop
  | unread {w : World}
    (refused : ∀ program, ¬ReadAs source program)
    (ended : w = (World.new journal).recordAll ((Script.parse source).errors.map Event.diagnosed)) :
    LoadEnds catalog source journal w (.error (w.loadFailure (.parse (Script.parse source).errors)))
  | unpopulated {program : Script.Program} {w : World} {e : WorldError} {errors : List WorldError}
    (read : ReadAs source program)
    (refused : catalog.populate (readWorld journal program) .root = (w, e :: errors)) :
    LoadEnds catalog source journal w (.error (w.loadFailure (.populate (e :: errors))))
  | unapplied {program : Script.Program} {w : World}
    (read : ReadAs source program)
    (populated : catalog.populate (readWorld journal program) .root = (w, [])) :
    LoadEnds catalog source journal (appliedWorld w program)
      (.error ((appliedWorld w program).loadFailure
        (.assembly (Assembly.apply w .root program).diagnostics)))
  | loaded {program : Script.Program} {w : World} {e : Event}
    (read : ReadAs source program)
    (populated : catalog.populate (readWorld journal program) .root = (w, []))
    (applied : ∀ step, e ≠ .life step) :
    LoadEnds catalog source journal ((appliedWorld w program).record e)
      (.ok ⟨(appliedWorld w program).record e, program, none⟩)

theorem load_ends (catalog : Catalog) (source : String) (journal : Array Event) :
    ∃ w, LoadEnds catalog source journal w (load catalog source journal) := by
  rw [load, loadInto]
  dsimp only
  split
  · rename_i program herrors hprogram
    generalize hpopulated : catalog.populate _ .root = populated
    obtain ⟨w, errors⟩ := populated
    cases errors with
    | cons e errors => exact ⟨_, .unpopulated ⟨herrors, hprogram⟩ hpopulated⟩
    | nil =>
      dsimp only
      split
      · exact ⟨_, .loaded ⟨herrors, hprogram⟩ hpopulated fun step => nofun⟩
      · exact ⟨_, .unapplied ⟨herrors, hprogram⟩ hpopulated⟩
  · rename_i hrefused
    exact ⟨_, .unread (fun program hread => hrefused program hread.1 hread.2) rfl⟩

theorem diagnosed_edits (w : World) (diagnostics : List Diagnostic) :
    Edits w (w.recordAll (diagnostics.map Event.diagnosed)) := by
  refine recordAll_edits w fun e he step => ?_
  obtain ⟨d, -, rfl⟩ := List.mem_map.mp he
  nofun

/-- Wherever loading ends, it has come there by edits of a new world. -/
theorem LoadEnds.edits {catalog : Catalog} (hcatalog : catalog.Confined) {source : String}
    {journal : Array Event} {w : World} {result : Except LoadFailure Session}
    (h : LoadEnds catalog source journal w result) : Edits (World.new journal) w := by
  have hread (program : Script.Program) : Edits (World.new journal) (readWorld journal program) :=
    .single (.record _ _ nofun)
  have hpopulated (program : Script.Program) :=
    (hread program).trans (catalog.populate_edits hcatalog _ .root)
  have happlied {program : Script.Program} {w : World}
      (h : catalog.populate (readWorld journal program) .root = (w, [])) :
      Edits (World.new journal) (appliedWorld w program) := by
    have hbefore := hpopulated program
    rw [h] at hbefore
    have htree := Edits.tree hbefore (new_tree journal)
    exact (hbefore.trans (Assembly.apply_edits htree .root program)).trans (diagnosed_edits _ _)
  cases h with
  | unread _ ended => exact ended ▸ diagnosed_edits _ _
  | @unpopulated program _ _ _ _ refused =>
    have hbefore := hpopulated program
    rwa [refused] at hbefore
  | unapplied _ populated => exact happlied populated
  | loaded _ populated applied => exact (happlied populated).tail (.record _ _ applied)

/-- What has been loaded was put together by edits of a new world, and nothing is built. -/
theorem load_edits {catalog : Catalog} (hcatalog : catalog.Confined) {source : String}
    {journal : Array Event} (h : load catalog source journal = .ok s) :
    Edits (World.new journal) s.world ∧ s.schedule = none := by
  obtain ⟨w, hends⟩ := load_ends catalog source journal
  have hedits := hends.edits hcatalog
  rw [h] at hends
  cases hends
  exact ⟨hedits, rfl⟩

/-- In a new world nothing runs. -/
theorem new_runs {journal : Array Event} (hjournal : ∀ e ∈ journal, e.step? = none) :
    Runs (World.new journal) [] := by
  refine .of_down (new_tree journal) (fun x => rfl) ?_
  have hnone : (World.new journal).steps = [] :=
    List.filterMap_eq_nil_iff.mpr fun e he => hjournal e (Array.mem_def.mpr he)
  rw [hnone]
  rfl

theorem load_sound {catalog : Catalog} (hcatalog : catalog.Confined) {source : String}
    {journal : Array Event} (hjournal : ∀ e ∈ journal, e.step? = none)
    (h : load catalog source journal = .ok s) : s.Sound := by
  obtain ⟨hedits, hschedule⟩ := load_edits hcatalog h
  have hsound := (new_runs hjournal).edits hedits
  rwa [Sound, order, hschedule]

/-! ## Closing -/

theorem tearDown_schedule (s : Session) : s.tearDown.schedule = none := by
  cases hs : s.schedule with
  | none => rw [tearDown, hs, hs]
  | some g => rw [tearDown, hs]

/-- When everything is taken down, no node is left set up. -/
theorem Sound.close (h : s.Sound) : course [] s.close.steps = some [] := by
  have hdown : Runs s.tearDown.world [] := by
    have hsound := h.tearDown.1
    rwa [Sound, order, tearDown_schedule] at hsound
  exact (hdown.edits (.single (.clear _))).course_eq

/-- How the nodes of a session live, if it is closed now. -/
structure Lived (s : Session) : Prop where
  /-- In the end the steps of each node are blocks, and all are closed. -/
  blocks : ∀ id, Blocks id (s.close.steps.filter (LifeStep.isOf id))
  /-- Only a node that is set up is ever updated or destroyed. -/
  setUp : ∀ before step after id, s.close.steps = before ++ step :: after →
    step = .nodeUpdated id ∨ step = .nodeDestroyed id →
    OpenBlock id (before.filter (LifeStep.isOf id))
  /-- Tearing down destroys what is set up, the latest first. -/
  tornDown : ∃ up, course [] s.world.steps = some up ∧ (∀ x, x ∈ up ↔ s.world.isUp x = true) ∧
    s.tearDown.world.steps = s.world.steps ++ up.map .nodeDestroyed
  /-- Whatever fails to build has been destroyed again, the latest first. -/
  rolledBack : ∀ a : Action, a.Confined → ∀ e, (a.perform s).2 = some e →
    RollsBack s.world (a.perform s).1.world

theorem Sound.lived (h : s.Sound) : s.Lived := by
  have hclose := h.close
  refine ⟨fun id => ((course_inBlocks hclose).2 id).isClosed List.not_mem_nil,
    fun before step after id hsteps hstep => ?_,
    ⟨_, h.course_eq, h.mem_course, h.tearDown.2⟩, fun a ha => (h.perform ha).2⟩
  rw [hsteps] at hclose
  obtain ⟨now, next, hnow, hadvance⟩ := advance_of_course hclose
  refine ((course_inBlocks hnow).2 id).isOpen ?_
  obtain rfl | rfl := hstep
  · exact (Option.ite_none_right_eq_some.mp hadvance).1
  · exact (Option.ite_none_right_eq_some.mp hadvance).1

/-- The lives of nodes in every session, whatever is done to it until it is closed. -/
theorem reached_lived {catalog : Catalog} (hcatalog : catalog.Confined) {source : String}
    {journal : Array Event} (hjournal : ∀ e ∈ journal, e.step? = none)
    (hload : load catalog source journal = .ok s) (actions : List Action)
    (hactions : ∀ a ∈ actions, a.Confined) : (s.performAll actions).Lived :=
  ((load_sound hcatalog hjournal hload).performAll actions hactions).lived

/-- A window that shows the trail of the pointer. -/
def trail : String :=
  "a = window(width=2, height=2)\nb = a.mouse-motion\na.display.source = b\n"

/-- A frame, and the window is taken down before the schedule is. The trail is left without it, so
that the next build fails after another node has been set up. -/
def windowless : List Action :=
  [.step none ⟨fun _ => 0, 0⟩, .change (.destroyScope ⟨1⟩), .tearDown,
    .change (.makeNode .root "late" { name := "plain" } .root []), .build]

theorem reached_lived_windowless : ∃ s, load Window.catalog trail #[] = .ok s ∧
    (∀ e ∈ (#[] : Array Event), e.step? = none) ∧ (∀ a ∈ windowless, a.Confined) ∧
    (s.performAll windowless).Lived ∧ (s.performAll windowless).close.steps =
      [.scopeSetUp ⟨1⟩ true, .nodeSetUp ⟨1⟩ true, .nodeSetUp ⟨0⟩ true, .nodeUpdated ⟨1⟩,
        .nodeUpdated ⟨0⟩, .nodeDestroyed ⟨0⟩, .scopeDestroyed ⟨1⟩, .nodeDestroyed ⟨1⟩,
        .nodeSetUp ⟨2⟩ true, .nodeSetUp ⟨1⟩ false, .nodeDestroyed ⟨2⟩] := by
  have hsteps : (load Window.catalog trail #[]).toOption.map
      (fun s => (s.performAll windowless).close.steps) = some
        [.scopeSetUp ⟨1⟩ true, .nodeSetUp ⟨1⟩ true, .nodeSetUp ⟨0⟩ true, .nodeUpdated ⟨1⟩,
          .nodeUpdated ⟨0⟩, .nodeDestroyed ⟨0⟩, .scopeDestroyed ⟨1⟩, .nodeDestroyed ⟨1⟩,
          .nodeSetUp ⟨2⟩ true, .nodeSetUp ⟨1⟩ false, .nodeDestroyed ⟨2⟩] := by
    decide +kernel
  have hjournal : ∀ e ∈ (#[] : Array Event), e.step? = none := by simp
  have hconfined : ∀ a ∈ windowless, a.Confined := by
    simp [windowless, Action.Confined, Change.Confined]
  cases hload : load Window.catalog trail #[] with
  | error e =>
    rw [hload] at hsteps
    cases hsteps
  | ok s =>
    rw [hload] at hsteps
    exact ⟨s, rfl, hjournal, hconfined,
      reached_lived Window.catalog_confined hjournal hload windowless hconfined,
      Option.some.inj hsteps⟩

end Session

end FrameGraph
