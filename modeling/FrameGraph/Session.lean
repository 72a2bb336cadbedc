import FrameGraph.Assembly.Basic
import FrameGraph.Catalog
import FrameGraph.Schedule.Frame
import FrameGraph.Script.Parse

/-!
# Sessions

A session is a script that has been loaded: its program, the world it was put together in, and the
schedule once it is built. Running it builds the schedule first and then computes frames. Closing it
takes down the nodes of the schedule and then the world.
-/
namespace FrameGraph

inductive SessionError where
  | io (path reason : String)
  | parse (errors : List Diagnostic)
  | assembly (errors : List Diagnostic)
  | populate (errors : List WorldError)
  | build (error : BuildError)
  | catalog (error : CatalogError)
  deriving DecidableEq

namespace SessionError

def message : SessionError → String
  | io path reason => s!"{path}: {reason}"
  | parse errors => s!"script has {errors.length} parse error(s)"
  | assembly errors => s!"script has {errors.length} error(s)"
  | populate errors => s!"{errors.length} delegate(s) could not be registered"
  | build e => e.message
  | catalog e => e.message

/-- The exit code of a program that ends with the error: 2 if a file was the reason. -/
def exitCode : SessionError → Nat
  | io .. => 2
  | _ => 1

def diagnostics : SessionError → List Diagnostic
  | parse errors | assembly errors => errors
  | _ => []

end SessionError

structure RunOptions where
  /-- Build the schedule only. -/
  dryRun : Bool
  /-- Measure nodes and frames. -/
  profile : Bool
  /-- How many frames. -/
  frames : Nat

structure RunSummary where
  frames : Nat
  report : Option ProfileReport
  deriving DecidableEq

structure Session where
  world : World
  program : Script.Program
  schedule : Option Schedule

/-- Why a script could not be loaded, and all that happened. -/
structure LoadFailure where
  error : SessionError
  journal : Array Event

/-- The failure of loading into a world, which is taken down. -/
def World.loadFailure (w : World) (error : SessionError) : LoadFailure :=
  ⟨error, w.clear.journal⟩

namespace Session

/-- Loads a script into a fresh world, once that has been populated. The journal goes on from the
given events. -/
def loadInto (populate : World → World × List WorldError) (source : String)
    (journal : Array Event) : Except LoadFailure Session :=
  let parsed := Script.parse source
  let w := World.new journal
  match parsed.errors, parsed.program with
  | [], some program =>
    let w := w.record (.scriptParsed program.statements.length)
    match populate w with
    | (w, []) =>
      let a := Assembly.apply w .root program
      let w := a.world.recordAll (a.diagnostics.map Event.diagnosed)
      if a.isOk then
        let w := w.record (.scriptApplied a.nodes a.scopes a.connections)
        .ok ⟨w, program, none⟩
      else .error (w.loadFailure (.assembly a.diagnostics))
    | (w, errors) => .error (w.loadFailure (.populate errors))
  | errors, _ => .error ((w.recordAll (errors.map Event.diagnosed)).loadFailure (.parse errors))

/-- Loads a script with the types of a catalog. -/
def load (catalog : Catalog) (source : String) (journal : Array Event) :
    Except LoadFailure Session :=
  loadInto (fun w => catalog.populate w .root) source journal

def build (s : Session) : Session × Except BuildError Schedule :=
  match s.schedule with
  | some schedule => (s, .ok schedule)
  | none =>
    match Schedule.build s.world with
    | (world, .ok schedule) => ({ s with world, schedule := some schedule }, .ok schedule)
    | (world, .error e) => ({ s with world }, .error e)

/-- One frame of a schedule, measured if there is a profile. -/
def frame (s : Session) (schedule : Schedule) (profile : Option Profile) (timing : FrameTiming) :
    Session × Option Profile :=
  match profile with
  | none => ({ s with world := schedule.update s.world }, none)
  | some p =>
    let (world, p) := schedule.updateTimed s.world p timing
    ({ s with world }, some p)

/-- One frame; the schedule is built if need be. -/
def step (s : Session) (profile : Option Profile) (timing : FrameTiming) :
    Session × Except BuildError (Option Profile) :=
  match s.build with
  | (s, .error e) => (s, .error e)
  | (s, .ok schedule) =>
    let (s, profile) := s.frame schedule profile timing
    (s, .ok profile)

/-- What a run starts with: the schedule is built, and its size is written down. -/
def startRun (s : Session) : Session × Except BuildError Schedule :=
  match s.build with
  | (s, .error e) => (s, .error e)
  | (s, .ok schedule) =>
    ({ s with world := s.world.record (.scheduleReady schedule.size) }, .ok schedule)

/-- What a run ends with: the measurements are written down, and the count of frames. -/
def endRun (s : Session) (frames : Nat) (profile : Option Profile) : Session × RunSummary :=
  let report := profile.map fun p => p.report s.world.nodePath
  let timings := match report with
    | none => []
    | some r => .frameTiming r.frames r.frame :: r.nodes.map Event.nodeTiming
  let world := (s.world.recordAll timings).record (.runFinished frames)
  ({ s with world }, ⟨frames, report⟩)

/-- So many frames of a schedule, the first with the given number. -/
def runFrames (schedule : Schedule) (timing : Nat → FrameTiming) :
    Nat → Nat → Session → Option Profile → Session × Option Profile
  | 0, _, s, profile => (s, profile)
  | frames + 1, number, s, profile =>
    let (s, profile) := s.frame schedule profile (timing number)
    runFrames schedule timing frames (number + 1) s profile

/-- Runs a session; `timing` says how long each frame takes. -/
def run (s : Session) (options : RunOptions) (timing : Nat → FrameTiming) :
    Session × Except BuildError RunSummary :=
  match s.startRun with
  | (s, .error e) => (s, .error e)
  | (s, .ok schedule) =>
    if options.dryRun then (s, .ok ⟨0, none⟩)
    else
      let profile := if options.profile then some Profile.empty else none
      let (s, profile) := runFrames schedule timing options.frames 0 s profile
      let (s, summary) := s.endRun options.frames profile
      (s, .ok summary)

/-- Takes down the nodes of the schedule, if there is one, and forgets it. -/
def tearDown (s : Session) : Session :=
  match s.schedule with
  | none => s
  | some schedule => { s with world := schedule.tearDown s.world, schedule := none }

def close (s : Session) : World := s.tearDown.world.clear

def listing (s : Session) : Option (List String) :=
  s.schedule.map fun schedule => schedule.describe s.world

end Session

end FrameGraph
