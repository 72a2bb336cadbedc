import FrameGraph.Proofs.Schedule.Validation
import FrameGraph.Proofs.Session.Lifecycle
import FrameGraph.Proofs.World.Occupancy
import Mathlib.Logic.Function.Iterate

/-!
# Adding up frames

Running some frames and then more of them comes to the same as running all of them at once, or as
stepping through them one by one. Only what runs themselves announce in the journal is different. The
schedule is built by the first call, or all calls fail in the same way. Nodes are set up and updated
once for each of their places in the order, and a node has one unless it was entered more than once.
-/
namespace FrameGraph

/-- What a run says about itself: that the schedule is ready, what was measured, and that it is over. -/
def Event.isAnnouncement : Event → Bool
  | .scheduleReady _ | .frameTiming .. | .nodeTiming _ | .runFinished _ => true
  | _ => false

theorem Event.step?_of_isAnnouncement {e : Event} (h : e.isAnnouncement = true) : e.step? = none := by
  cases e with
  | scheduleReady | frameTiming | nodeTiming | runFinished => rfl
  | _ => cases h

/-- Measuring a node leaves the statistics of whole frames alone. -/
theorem Profile.record_frame (p : Profile) (id : NodeId) (nanos : UInt64) :
    (p.record id nanos).frame = p.frame := by
  rw [record, place]
  cases p.index.lookup id <;> rfl

namespace World

variable {w w' w'' : World}

/-- What is written down, but for what runs say about themselves. -/
def happenings (w : World) : List Event := w.journal.toList.filter fun e => !e.isAnnouncement

/-- The worlds have the same nodes and scopes, and the same has happened in them. -/
structure Alike (w w' : World) : Prop where
  nodes : w'.nodes = w.nodes
  scopes : w'.scopes = w.scopes
  happenings : w'.happenings = w.happenings

namespace Alike

theorem refl (w : World) : Alike w w := ⟨rfl, rfl, rfl⟩

theorem symm (h : Alike w w') : Alike w' w := ⟨h.nodes.symm, h.scopes.symm, h.happenings.symm⟩

theorem trans (h : Alike w w') (h' : Alike w' w'') : Alike w w'' :=
  ⟨h'.nodes.trans h.nodes, h'.scopes.trans h.scopes, h'.happenings.trans h.happenings⟩

theorem record (h : Alike w w') (e : Event) : Alike (w.record e) (w'.record e) := by
  refine ⟨h.nodes, h.scopes, ?_⟩
  have hhappenings := h.happenings
  simp only [World.happenings, World.record, Array.toList_push, List.filter_append] at hhappenings ⊢
  rw [hhappenings]

theorem recordAll (h : Alike w w') (es : List Event) : Alike (w.recordAll es) (w'.recordAll es) := by
  induction es generalizing w w' with
  | nil => exact h
  | cons e es ih => exact ih (h.record e)

theorem announce {e : Event} (w : World) (he : e.isAnnouncement = true) : Alike w (w.record e) := by
  refine ⟨rfl, rfl, ?_⟩
  simp [World.happenings, World.record, he]

theorem announceAll {es : List Event} (w : World) (h : ∀ e ∈ es, e.isAnnouncement = true) :
    Alike w (w.recordAll es) := by
  induction es generalizing w with
  | nil => exact .refl w
  | cons e es ih =>
    obtain ⟨he, hes⟩ := List.forall_mem_cons.mp h
    exact (announce w he).trans (ih _ hes)

theorem setNode (h : Alike w w') (id : NodeId) (n : Option Node) :
    Alike (w.setNode id n) (w'.setNode id n) :=
  ⟨congrArg (·.setIfInBounds id.index n) h.nodes, h.scopes, h.happenings⟩

theorem steps (h : Alike w w') : w'.steps = w.steps := by
  have hsteps (w : World) : w.steps = w.happenings.filterMap Event.step? := by
    rw [World.steps, World.happenings, List.filterMap_filter]
    refine List.filterMap_congr fun e _ => ?_
    cases he : e.isAnnouncement with
    | false => rfl
    | true => rw [Event.step?_of_isAnnouncement he]; rfl
  rw [hsteps, hsteps, h.happenings]

end Alike

end World

namespace Schedule

open World

variable {w w' : World}

/-- What a node sees is not in the journal. -/
theorem view_alike (h : Alike w w') (id : NodeId) (n : Node) : view w' id n = view w id n := by
  obtain ⟨nodes, scopes, journal⟩ := w
  obtain ⟨nodes', scopes', journal'⟩ := w'
  obtain rfl := h.nodes
  obtain rfl := h.scopes
  rfl

theorem updateNode_alike (h : Alike w w') (id : NodeId) :
    Alike (updateNode w id) (updateNode w' id) := by
  have hnode : w'.node? id = w.node? id := by rw [node?, node?, h.nodes]
  rw [updateNode, updateNode, hnode]
  cases w.node? id with
  | none => exact h
  | some n =>
    simp only [view_alike h]
    exact ((h.recordAll _).setNode id _).record _

theorem update_alike (g : Schedule) (h : Alike w w') : Alike (g.update w) (g.update w') := by
  rw [update, update]
  generalize g.order = order
  induction order generalizing w w' with
  | nil => exact h
  | cons id order ih => exact ih (updateNode_alike h id)

/-- The world after so many frames. -/
def frames (g : Schedule) (count : Nat) (w : World) : World := g.update^[count] w

theorem frames_add (g : Schedule) (n m : Nat) (w : World) :
    g.frames (n + m) w = g.frames m (g.frames n w) := by
  rw [frames, Nat.add_comm, Function.iterate_add_apply]
  rfl

theorem frames_succ (g : Schedule) (count : Nat) (w : World) :
    g.frames (count + 1) w = g.frames count (g.update w) :=
  Function.iterate_succ_apply _ _ _

theorem frames_alike (g : Schedule) (count : Nat) (h : Alike w w') :
    Alike (g.frames count w) (g.frames count w') := by
  induction count generalizing w w' with
  | zero => exact h
  | succ count ih =>
    rw [frames_succ, frames_succ]
    exact ih (g.update_alike h)

theorem isThere_frames (g : Schedule) (count : Nat) (w : World) :
    isThere (g.frames count w) = isThere w := by
  induction count generalizing w with
  | zero => rfl
  | succ count ih => rw [frames_succ, ih, isThere_wiring (update_wiring w g)]

theorem isThere_alike (h : Alike w w') : isThere w' = isThere w := by
  funext x
  rw [isThere, isThere, node?, node?, h.nodes]

/-- The places of the order whose nodes are there. -/
def present (g : Schedule) (w : World) : List NodeId := g.order.filter (isThere w)

/-- The steps of so many frames, each of which updates the nodes that are there in order. -/
def frameSteps (g : Schedule) (w : World) (count : Nat) : List LifeStep :=
  (List.replicate count ((g.present w).map LifeStep.nodeUpdated)).flatten

theorem frameSteps_succ (g : Schedule) (w : World) (count : Nat) :
    g.frameSteps w (count + 1) =
      (g.present w).map LifeStep.nodeUpdated ++ g.frameSteps w count := by
  rw [frameSteps, List.replicate_succ, List.flatten_cons]
  rfl

theorem present_congr (g : Schedule) {w w' : World} (h : isThere w' = isThere w) :
    g.present w' = g.present w := by rw [present, h, present]

theorem frameSteps_congr (g : Schedule) {w w' : World} (h : isThere w' = isThere w) (count : Nat) :
    g.frameSteps w' count = g.frameSteps w count := by
  rw [frameSteps, present_congr g h, frameSteps]

/-- Frame by frame every node is updated that is there. -/
theorem frames_steps (g : Schedule) (count : Nat) (w : World) :
    (g.frames count w).steps = w.steps ++ g.frameSteps w count := by
  induction count generalizing w with
  | zero => exact (List.append_nil _).symm
  | succ count ih =>
    rw [frames_succ, ih, (update_spec w g).1,
      frameSteps_congr g (isThere_wiring (update_wiring w g)), frameSteps_succ, List.append_assoc,
      present]

/-- A node is updated in each frame once for each of its places. -/
theorem count_frameSteps (g : Schedule) {w : World} {id : NodeId} (hid : isThere w id = true)
    (count : Nat) :
    (g.frameSteps w count).count (.nodeUpdated id) = count * g.order.count id := by
  have hinjective : Function.Injective LifeStep.nodeUpdated := fun x y h => by cases h; rfl
  have hframe : ((g.present w).map LifeStep.nodeUpdated).count (.nodeUpdated id) =
      g.order.count id := by
    rw [List.count_map_of_injective _ _ hinjective, present, List.count_filter hid]
  rw [frameSteps, List.count_flatten, List.map_replicate, List.sum_replicate_nat, hframe]

end Schedule

namespace Session

open World Schedule

variable {s s' : Session} {g : Schedule}

/-! ## Frames -/

/-- The sessions have the same program and the same schedule, and their worlds are alike. -/
structure Alike (s s' : Session) : Prop where
  world : World.Alike s.world s'.world
  program : s'.program = s.program
  schedule : s'.schedule = s.schedule

theorem Alike.symm (h : Alike s s') : Alike s' s := ⟨h.world.symm, h.program.symm, h.schedule.symm⟩

theorem Alike.trans {s'' : Session} (h : Alike s s') (h' : Alike s' s'') : Alike s s'' :=
  ⟨h.world.trans h'.world, h'.program.trans h.program, h'.schedule.trans h.schedule⟩

/-- The session after so many frames of a schedule. -/
def after (s : Session) (g : Schedule) (count : Nat) : Session :=
  { s with world := g.frames count s.world }

theorem Alike.after (h : Alike s s') (g : Schedule) (count : Nat) :
    Alike (s.after g count) (s'.after g count) :=
  ⟨g.frames_alike count h.world, h.program, h.schedule⟩

theorem after_add (s : Session) (g : Schedule) (n m : Nat) :
    s.after g (n + m) = (s.after g n).after g m := by
  rw [after, frames_add]
  rfl

theorem runFrames_after (s : Session) (g : Schedule) (timing : Nat → FrameTiming)
    (frames number : Nat) (profile : Option Profile) :
    (runFrames g timing frames number s profile).1 = s.after g frames := by
  induction frames generalizing s number profile with
  | zero => rfl
  | succ frames ih =>
    rw [runFrames]
    dsimp only
    rw [ih, frame_eq, after, after, frames_succ]

/-- How many frames have been measured, if any are. -/
def measured (profile : Option Profile) : Option Nat := profile.map Profile.frames

theorem updateTimed_frames (g : Schedule) (w : World) (p : Profile) (t : FrameTiming) :
    (g.updateTimed w p t).2.frames = p.frames + 1 := by
  have hnodes (entries : List (NodeId × Nat)) (start : World × Profile) :
      (entries.foldl (fun (so : World × Profile) entry =>
        (updateNode so.1 entry.1, so.2.record entry.1 (t.node entry.2))) start).2.frame =
          start.2.frame := by
    induction entries generalizing start with
    | nil => rfl
    | cons entry entries ih => exact (ih _).trans (start.2.record_frame entry.1 _)
  have hframe := hnodes g.order.zipIdx (w, p)
  rw [updateTimed]
  exact congrArg (fun stats : Stats Float => stats.count + 1) hframe

theorem runFrames_measured (s : Session) (g : Schedule) (timing : Nat → FrameTiming)
    (frames number : Nat) (profile : Option Profile) :
    measured (runFrames g timing frames number s profile).2 = (measured profile).map (· + frames) := by
  induction frames generalizing s number profile with
  | zero => cases profile <;> rfl
  | succ frames ih =>
    have hframe : measured (s.frame g profile (timing number)).2 = (measured profile).map (· + 1) := by
      cases profile with
      | none => rfl
      | some p => exact congrArg some (updateTimed_frames g s.world p (timing number))
    rw [runFrames]
    dsimp only
    rw [ih, hframe, Option.map_map]
    congr 1
    funext count
    exact Nat.succ_add_eq_add_succ count frames

/-- Ending a run only announces something. -/
theorem endRun_alike (s : Session) (frames : Nat) (profile : Option Profile) :
    Alike s (s.endRun frames profile).1 := by
  refine ⟨?_, rfl, rfl⟩
  refine .trans (.announceAll s.world fun e he => ?_) (.announce _ rfl)
  cases profile with
  | none => cases he
  | some p =>
    obtain rfl | he := List.mem_cons.mp he
    · rfl
    · obtain ⟨summary, -, rfl⟩ := List.mem_map.mp he
      rfl

/-! ## Calls -/

/-- So many frames by `step`, which builds the schedule each time if need be. -/
def stepFrames (timing : Nat → FrameTiming) :
    Nat → Nat → Session → Option Profile → Session × Except BuildError (Option Profile)
  | 0, _, s, profile => (s, .ok profile)
  | frames + 1, number, s, profile =>
    match s.step profile (timing number) with
    | (s, .error e) => (s, .error e)
    | (s, .ok profile) => stepFrames timing frames (number + 1) s profile

/-- A run whose frames are steps of their own. -/
def runBySteps (s : Session) (options : RunOptions) (timing : Nat → FrameTiming) :
    Session × Except BuildError RunSummary :=
  match s.startRun with
  | (s, .error e) => (s, .error e)
  | (s, .ok _) =>
    if options.dryRun then (s, .ok ⟨0, none⟩)
    else
      let profile := if options.profile then some Profile.empty else none
      match stepFrames timing options.frames 0 s profile with
      | (s, .error e) => (s, .error e)
      | (s, .ok profile) =>
        let (s, summary) := s.endRun options.frames profile
        (s, .ok summary)

theorem build_of_schedule (h : s.schedule = some g) : s.build = (s, .ok g) := by rw [build, h]

/-- A session without a schedule keeps the one that is built, if one is. -/
theorem build_of_none (h : s.schedule = none) : s.build =
    ({ s with world := (Schedule.build s.world).1,
              schedule := (Schedule.build s.world).2.toOption }, (Schedule.build s.world).2) := by
  obtain ⟨w, program, schedule⟩ := s
  obtain rfl : schedule = none := h
  rw [build]
  dsimp only
  generalize Schedule.build w = built
  obtain ⟨w', result⟩ := built
  cases result <;> rfl

/-- A built session is not built again. -/
theorem step_of_schedule (h : s.schedule = some g) (profile : Option Profile) (timing : FrameTiming) :
    s.step profile timing =
      ((s.frame g profile timing).1, .ok (s.frame g profile timing).2) := by
  rw [step, build_of_schedule h]

theorem stepFrames_of_schedule (h : s.schedule = some g) (timing : Nat → FrameTiming)
    (frames number : Nat) (profile : Option Profile) :
    stepFrames timing frames number s profile =
      ((runFrames g timing frames number s profile).1,
        .ok (runFrames g timing frames number s profile).2) := by
  induction frames generalizing s number profile with
  | zero => rfl
  | succ frames ih =>
    have hkept : (s.frame g profile (timing number)).1.schedule = some g := by rw [frame_eq, h]
    rw [stepFrames, step_of_schedule h]
    exact ih hkept _ _

theorem build_schedule (h : s.build.2 = .ok g) : s.build.1.schedule = some g := by
  cases hs : s.schedule with
  | some g' =>
    rw [build_of_schedule hs] at h ⊢
    cases h
    exact hs
  | none =>
    rw [build_of_none hs] at h ⊢
    exact congrArg Except.toOption h

theorem run_eq_runBySteps (s : Session) (options : RunOptions) (timing : Nat → FrameTiming) :
    s.run options timing = s.runBySteps options timing := by
  have hkept {g : Schedule} (h : s.build.2 = .ok g) := build_schedule h
  rw [run, runBySteps, startRun]
  generalize s.build = built at hkept
  obtain ⟨s', result⟩ := built
  cases result with
  | error e => rfl
  | ok g =>
    have hready : ({ s' with world := s'.world.record (.scheduleReady g.size) } : Session).schedule =
        some g := hkept rfl
    simp only [stepFrames_of_schedule hready]

/-- One call of `step`. -/
structure StepCall where
  profile : Option Profile
  timing : FrameTiming

/-- The session after some calls of `step`. -/
def stepAll (s : Session) (calls : List StepCall) : Session :=
  calls.foldl (fun s call => (s.step call.profile call.timing).1) s

theorem stepAll_of_schedule (h : s.schedule = some g) (calls : List StepCall) :
    s.stepAll calls = s.after g calls.length := by
  induction calls generalizing s with
  | nil => rfl
  | cons call calls ih =>
    have hstep : (s.step call.profile call.timing).1 = { s with world := g.update s.world } := by
      rw [step_of_schedule h, frame_eq]
    rw [stepAll, List.foldl_cons, hstep, ← stepAll, ih (s := { s with world := g.update s.world }) h,
      after, after, List.length_cons, frames_succ]

theorem step_of_build (h : s.build = (s', .ok g)) (profile : Option Profile)
    (timing : FrameTiming) : s.step profile timing =
      ({ s' with world := g.update s'.world }, .ok (s'.frame g profile timing).2) := by
  rw [step, h, ← frame_eq s' g profile timing]

/-- The first call builds the schedule, and then it is kept. -/
theorem stepAll_of_build (h : s.build = (s', .ok g)) (call : StepCall) (calls : List StepCall) :
    s.stepAll (call :: calls) = s'.after g (calls.length + 1) := by
  have hkept : s'.schedule = some g := by
    have hkept := build_schedule (congrArg Prod.snd h)
    rwa [h] at hkept
  rw [stepAll, List.foldl_cons, step_of_build h, ← stepAll,
    stepAll_of_schedule (s := { s' with world := g.update s'.world }) hkept, after, after,
    frames_succ]

theorem build_stepAll (h : s.build = (s', .ok g)) (calls : List StepCall) :
    (s.stepAll calls).build.2 = .ok g := by
  cases calls with
  | nil =>
    rw [stepAll, List.foldl_nil, h]
  | cons call calls =>
    have hkept := build_schedule (congrArg Prod.snd h)
    rw [h] at hkept
    rw [stepAll_of_build h, build_of_schedule (s := s'.after g _) hkept]

/-- The run has reported so many frames, and if it was to measure them, it has measured as many. -/
def Reports (result : Except BuildError RunSummary) (frames : Nat) (profile : Bool) : Prop :=
  ∃ report, result = .ok ⟨frames, report⟩ ∧
    report.map ProfileReport.frames = if profile then some frames else none

/-- A run comes to its frames, and reports them. -/
theorem run_of_build (h : s.build = (s', .ok g)) (profile : Bool) (frames : Nat)
    (timing : Nat → FrameTiming) :
    Alike (s'.after g frames) (s.run ⟨false, profile, frames⟩ timing).1 ∧
      Reports (s.run ⟨false, profile, frames⟩ timing).2 frames profile := by
  let ready : Session := { s' with world := s'.world.record (.scheduleReady g.size) }
  let start : Option Profile := if profile then some Profile.empty else none
  have hrun : s.run ⟨false, profile, frames⟩ timing =
      (((runFrames g timing frames 0 ready start).1.endRun frames
          (runFrames g timing frames 0 ready start).2).1,
        .ok ((runFrames g timing frames 0 ready start).1.endRun frames
          (runFrames g timing frames 0 ready start).2).2) := by
    rw [run, startRun, h]
    rfl
  have hready : Alike s' ready := ⟨.announce _ rfl, rfl, rfl⟩
  have hmeasured := runFrames_measured ready g timing frames 0 start
  have hframes := runFrames_after ready g timing frames 0 start
  rw [hrun]
  generalize runFrames g timing frames 0 ready start = ran at hmeasured hframes ⊢
  obtain ⟨last, measured⟩ := ran
  refine ⟨(hready.after g frames).trans ?_, _, rfl, ?_⟩
  · rw [← hframes]
    exact endRun_alike last frames measured
  · have hcount : measured.map Profile.frames = start.map fun p => p.frames + frames := by
      rw [Session.measured, Session.measured, Option.map_map] at hmeasured
      exact hmeasured
    rw [Option.map_map]
    refine hcount.trans ?_
    cases profile with
    | false => rfl
    | true => exact congrArg some (Nat.zero_add frames)

theorem run_steps (h : s.build = (s', .ok g)) (profile : Bool) (frames : Nat)
    (timing : Nat → FrameTiming) : (s.run ⟨false, profile, frames⟩ timing).1.world.steps =
      s'.world.steps ++ g.frameSteps s'.world frames := by
  obtain ⟨halike, -⟩ := run_of_build h profile frames timing
  rw [halike.world.steps]
  exact frames_steps g frames s'.world

theorem dryRun_of_build (h : s.build = (s', .ok g)) (profile : Bool) (frames : Nat)
    (timing : Nat → FrameTiming) : s.run ⟨true, profile, frames⟩ timing =
      ({ s' with world := s'.world.record (.scheduleReady g.size) }, .ok ⟨0, none⟩) := by
  rw [run, startRun, h]
  rfl

/-! ## Sessions that are not built -/

/-- How runs add up, if the schedule can be built. -/
structure RunsAdd (s : Session) (g : Schedule) : Prop where
  /-- Two runs come to one, setups are run once, and each run updates all nodes as often as it
  reports. -/
  runs : ∀ (n m : Nat) (p q r : Bool) (t u v : Nat → FrameTiming),
    let first := s.run ⟨false, p, n⟩ t
    let second := first.1.run ⟨false, q, m⟩ u
    let whole := s.run ⟨false, r, n + m⟩ v
    Alike second.1 whole.1 ∧ whole.1.schedule = some g ∧
      Reports first.2 n p ∧ Reports second.2 m q ∧ Reports whole.2 (n + m) r ∧
      first.1.world.steps = s.world.steps ++ (g.present s.world).map (.nodeSetUp · true) ++
        g.frameSteps s.world n ∧
      second.1.world.steps = first.1.world.steps ++ g.frameSteps s.world m
  /-- A run comes to as many calls of `step`, if there are any, and these succeed. -/
  calls : ∀ (calls : List StepCall), calls ≠ [] → ∀ (r : Bool) (v : Nat → FrameTiming),
    Alike (s.stepAll calls) (s.run ⟨false, r, calls.length⟩ v).1 ∧
      ∀ before call after, calls = before ++ call :: after →
        ((s.stepAll before).step call.profile call.timing).2.isOk = true
  /-- A dry run only builds. -/
  dry : ∀ (p : Bool) (n : Nat) (t : Nat → FrameTiming),
    let dry := s.run ⟨true, p, n⟩ t
    Alike s.build.1 dry.1 ∧ dry.2 = .ok ⟨0, none⟩ ∧
      dry.1.world.steps = s.world.steps ++ (g.present s.world).map (.nodeSetUp · true)
  /-- A node is updated as often as it is in the order, in each frame. -/
  updates : ∀ id, isThere s.world id = true → ∀ n,
    (g.frameSteps s.world n).count (.nodeUpdated id) = n * g.order.count id
  /-- Nodes that are gathered once have one place each. -/
  distinct : s.world.gather.Nodup → g.order.Nodup

/-- How all calls fail, if the schedule cannot be built. -/
structure RunsFail (s : Session) (e : BuildError) : Prop where
  run : ∀ options timing, s.run options timing = (s.build.1, .error e)
  step : ∀ profile timing, s.step profile timing = (s.build.1, .error e)
  /-- No node is updated. -/
  quiet : ∃ done, s.build.1.world.steps = s.world.steps ++ done ∧ ∀ id, .nodeUpdated id ∉ done

/-- Building sets up what is there, once for each of its places. -/
theorem build_steps_of_none (hnone : s.schedule = none) (h : s.build.2 = .ok g) :
    isThere s.build.1.world = isThere s.world ∧ s.build.1.world.steps =
      s.world.steps ++ (g.present s.world).map (.nodeSetUp · true) := by
  rw [build_of_none hnone] at h ⊢
  obtain ⟨-, -, hfaultless, hworld⟩ := build_ok h
  refine ⟨isThere_wiring (build_wiring s.world), ?_⟩
  show (Schedule.build s.world).1.steps = _
  rw [hworld, steps_record _ rfl, (setUpEach_spec hfaultless).1, present]

/-- What is gathered once is in the order once. -/
theorem order_perm (hnone : s.schedule = none) (h : s.build.2 = .ok g)
    (hgather : s.world.gather.Nodup) : g.order.Perm s.world.gather := by
  rw [build_of_none hnone] at h
  exact perm_of_sort hgather (build_ok h).1

theorem runsAdd (hnone : s.schedule = none) (h : s.build.2 = .ok g) : s.RunsAdd g := by
  have hbuild : s.build = (s.build.1, .ok g) := Prod.ext rfl h
  have hkept : s.build.1.schedule = some g := build_schedule h
  obtain ⟨hthere, hsteps⟩ := build_steps_of_none hnone h
  refine ⟨fun n m p q r t u v => ?_, fun calls hcalls r v => ?_, fun p n t => ?_,
    fun id hid n => g.count_frameSteps hid n, fun hgather => ?_⟩
  · obtain ⟨hfirst, hreports⟩ := run_of_build hbuild p n t
    obtain ⟨hwhole, hreports''⟩ := run_of_build hbuild r (n + m) v
    have hfront := run_steps hbuild p n t
    dsimp only
    generalize s.run ⟨false, p, n⟩ t = first at hfirst hreports hfront ⊢
    -- The second run finds the schedule that the first has left, and the same nodes.
    have hagain : first.1.build = (first.1, .ok g) :=
      build_of_schedule (hfirst.schedule.trans hkept)
    have hstill : isThere first.1.world = isThere s.world := by
      rw [isThere_alike hfirst.world, after, isThere_frames, hthere]
    obtain ⟨hsecond, hreports'⟩ := run_of_build hagain q m u
    refine ⟨hsecond.symm.trans ((hfirst.after g m).symm.trans ?_), hwhole.schedule.trans hkept,
      hreports, hreports', hreports'', ?_, ?_⟩
    · rwa [← after_add]
    · rw [hfront, hsteps, frameSteps_congr g hthere]
    · rw [run_steps hagain q m u, frameSteps_congr g hstill]
  · obtain ⟨hwhole, -⟩ := run_of_build hbuild r calls.length v
    refine ⟨?_, fun before call after _ => ?_⟩
    · cases calls with
      | nil => exact absurd rfl hcalls
      | cons call calls =>
        rw [stepAll_of_build hbuild]
        exact hwhole
    · have hbuilt : (s.stepAll before).build = ((s.stepAll before).build.1, .ok g) :=
        Prod.ext rfl (build_stepAll hbuild before)
      rw [step_of_build hbuilt]
      rfl
  · rw [dryRun_of_build hbuild]
    exact ⟨⟨.announce _ rfl, rfl, rfl⟩, rfl, (steps_record _ rfl).trans hsteps⟩
  · exact (order_perm hnone h hgather).nodup_iff.mpr hgather

/-- What cannot be built is not run. -/
theorem runsFail {e : BuildError} (h : s.build.2 = .error e) : s.RunsFail e := by
  have hbuild : s.build = (s.build.1, .error e) := Prod.ext rfl h
  refine ⟨fun options timing => ?_, fun profile timing => ?_, ?_⟩
  · rw [run, startRun, hbuild]
  · rw [step, hbuild]
  · have hnone : s.schedule = none := by
      cases hs : s.schedule with
      | none => rfl
      | some g =>
        rw [build_of_schedule hs] at h
        cases h
    rw [build_of_none hnone]
    obtain hnothing | ⟨order, -, ⟨-, hsteps⟩ | ⟨before, a, after, _, ran, destroyed, -, -, -, hsteps⟩⟩ :=
      build_steps s.world
    · exact ⟨[], by rw [hnothing, List.append_nil], fun _ => List.not_mem_nil⟩
    · exact ⟨_, hsteps, fun id hid => by simp at hid⟩
    · exact ⟨_, hsteps, fun id hid => by simp at hid⟩

/-! ## Loaded sessions -/

theorem load_equipped {catalog : Catalog} {source : String} {journal : Array Event}
    (h : load catalog source journal = .ok s) : s.world.Equipped ∧ s.schedule = none := by
  have hall (es : List Event) {w : World} (hw : w.Equipped) : (w.recordAll es).Equipped :=
    List.foldlRecOn (motive := World.Equipped) es _ hw fun _ hw e _ => hw.record e
  obtain ⟨w, hends⟩ := load_ends catalog source journal
  rw [h] at hends
  cases hends with
  | @loaded program w e read populated applied =>
    have hread : (readWorld journal program).Equipped := (Reachable.new journal).equipped.record _
    have hpopulated := catalog.populate_equipped hread .root
    rw [populated] at hpopulated
    exact ⟨(hall _ (Assembly.apply_equipped hpopulated .root program)).record e, rfl⟩

/-- All nodes of the schedule are there, and each has one place. -/
structure InPlace (s : Session) (g : Schedule) : Prop where
  distinct : g.order.Nodup
  there : g.present s.world = g.order
  updates : ∀ id ∈ g.order, ∀ n, (g.frameSteps s.world n).count (.nodeUpdated id) = n

theorem inPlace_of_equipped (hw : s.world.Equipped) (hnone : s.schedule = none)
    (h : s.build.2 = .ok g) : s.InPlace g := by
  have hranked := hw.orderly.ranked
  have hgather : s.world.gather.Nodup := hranked.nodesWithin_nodup hw.orderly.once _ _
  have hperm := order_perm hnone h hgather
  have hdistinct : g.order.Nodup := hperm.nodup_iff.mpr hgather
  have hthere : ∀ x ∈ g.order, isThere s.world x = true := by
    intro x hx
    cases hranked.mem_gather.mp (hperm.mem_iff.mp hx) with
    | entry _ hheld =>
      obtain ⟨n, hn⟩ := hw.occupied _ _ x hheld
      rw [isThere, hn]
      rfl
  refine ⟨hdistinct, List.filter_eq_self.mpr hthere, fun id hid n => ?_⟩
  rw [g.count_frameSteps (hthere id hid), List.count_eq_one_of_mem hdistinct hid, Nat.mul_one]

/-- Runs of every session that is not built yet, as after loading, add up in their frames, whether
they are profiled or not, or all calls fail as the build does; the frames of a run are steps, each of
which might build. This holds in any world. A node that has several places in the order is set up and
updated once for each; if a session was loaded with setups that enter only what they make, each node
has one place. -/
theorem unbuilt_runsAdd (hnone : s.schedule = none) :
    (∀ g, s.build.2 = .ok g → s.RunsAdd g) ∧ (∀ e, s.build.2 = .error e → s.RunsFail e) ∧
      (∀ options timing, s.run options timing = s.runBySteps options timing) ∧
      ∀ catalog source journal, load catalog source journal = .ok s →
        ∀ g, s.build.2 = .ok g → s.InPlace g := by
  refine ⟨fun g hg => runsAdd hnone hg, fun e he => runsFail he, s.run_eq_runBySteps,
    fun catalog source journal hload g hg => ?_⟩
  obtain ⟨hequipped, -⟩ := load_equipped hload
  exact inPlace_of_equipped hequipped hnone hg

/-- A window that shows nothing, so that the schedule cannot be built. -/
def blank : String := "a = window(width=2, height=2)\n"

theorem unbuilt_runsAdd_trail :
    (∃ s g, load Window.catalog trail #[] = .ok s ∧ s.schedule = none ∧ s.build.2 = .ok g ∧
      g.order = [⟨1⟩, ⟨0⟩] ∧ s.RunsAdd g ∧ s.InPlace g) ∧
    ∃ s e, load Window.catalog blank #[] = .ok s ∧ s.schedule = none ∧ s.build.2 = .error e ∧
      s.RunsFail e := by
  have horder : (load Window.catalog trail #[]).toOption.map
      (fun s => s.build.2.toOption.map Schedule.order) = some (some [⟨1⟩, ⟨0⟩]) := by
    decide +kernel
  have hfails : (load Window.catalog blank #[]).toOption.map (fun s => s.build.2.isOk) =
      some false := by
    decide +kernel
  constructor
  · cases hload : load Window.catalog trail #[] with
    | error e =>
      rw [hload] at horder
      cases horder
    | ok s =>
      rw [hload] at horder
      obtain ⟨-, hnone⟩ := load_equipped hload
      obtain ⟨adds, -, -, once⟩ := unbuilt_runsAdd hnone
      replace horder : s.build.2.toOption.map Schedule.order = some [⟨1⟩, ⟨0⟩] :=
        Option.some.inj horder
      cases hbuild : s.build.2 with
      | error e =>
        rw [hbuild] at horder
        cases horder
      | ok g =>
        rw [hbuild] at horder
        exact ⟨s, g, rfl, hnone, hbuild, Option.some.inj horder, adds g hbuild,
          once _ _ _ hload g hbuild⟩
  · cases hload : load Window.catalog blank #[] with
    | error e =>
      rw [hload] at hfails
      cases hfails
    | ok s =>
      rw [hload] at hfails
      obtain ⟨-, hnone⟩ := load_equipped hload
      obtain ⟨-, fails, -⟩ := unbuilt_runsAdd hnone
      replace hfails : s.build.2.isOk = false := Option.some.inj hfails
      cases hbuild : s.build.2 with
      | error e => exact ⟨s, e, rfl, hnone, hbuild, fails e hbuild⟩
      | ok g =>
        rw [hbuild] at hfails
        cases hfails

/-- Populates a world as a setup could that may do anything to it: with a counter under two names. -/
def enterTwice (w : World) : World × List WorldError :=
  let (w, _) := w.makeNode .root "counter" counter .root []
  ((w.insertMember .root "again" (.node ⟨0⟩)).toOption.getD w, [])

/-- In the run of a loaded session a node may be set up twice, and updated twice in one frame. -/
theorem run_enteredTwice :
    (loadInto enterTwice "" #[]).toOption.map (fun s =>
      (s.build.2.toOption.map Schedule.order,
        (s.run ⟨false, false, 1⟩ fun _ => ⟨fun _ => 0, 0⟩).1.world.steps)) =
      some (some [⟨0⟩, ⟨0⟩], [.nodeSetUp ⟨0⟩ true, .nodeSetUp ⟨0⟩ true, .nodeUpdated ⟨0⟩,
        .nodeUpdated ⟨0⟩]) := by
  decide +kernel

end Session

end FrameGraph
