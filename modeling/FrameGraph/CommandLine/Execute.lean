import FrameGraph.CommandLine.Options
import FrameGraph.Diagram
import FrameGraph.Session
import FrameGraph.Window.Scope

/-!
# Carrying out a request

The program reads one file, perhaps runs frames, writes to its two outputs, and perhaps writes one
file. What it does in between is a value: before the first frame a request has either come to its
outcome or is running, a running request takes frames one at a time, and then it has an outcome.
-/
namespace FrameGraph.CommandLine

def versionText : String := "lumen 0.3.1\n"

def helpText : String :=
  "Lumen — runs dataflow scripts as live, per-frame evaluated node graphs\n\n" ++
    "Usage: lumen [OPTIONS] <SCRIPT>\n\n" ++
    "Arguments:\n" ++
    "  <SCRIPT>  Input .lum script\n\n" ++
    "Options:\n" ++
    "      --dry-run                    Build and set up the graph without running frames\n" ++
    "      --profile                    Time every node and frame; summary is logged at exit\n" ++
    "      --fps <FPS>                  Target frame rate (0 runs unpaced) [default: 60]\n" ++
    "      --frames <FRAMES>            Stop after this many frames\n" ++
    "      --emit <EMIT>                Output stage [default: run] " ++
    "[possible values: run, ast, graph, dot]\n" ++
    "      --profile-out <PROFILE_OUT>  Write the profile report as JSON (implies --profile)\n" ++
    "  -v, --verbose                    Log lifecycle events\n" ++
    "  -h, --help                       Print help\n" ++
    "  -V, --version                    Print version\n"

/-- What the program shows and does in the end. -/
structure Outcome where
  output : String
  journal : Array Event
  error : Option SessionError
  /-- A file to write, with the report that goes into it. -/
  file : Option (String × ProfileReport)

namespace Outcome

def exitCode (o : Outcome) : Nat :=
  match o.error with
  | none => 0
  | some e => e.exitCode

/-- The line that the program ends with if it fails. -/
def failure? (o : Outcome) : Option String := o.error.map fun e => s!"lumen: error: {e.message}"

def unwritten (o : Outcome) (path reason : String) : Outcome :=
  { o with error := some (.io path reason), file := none }

end Outcome

/-- The lines of the log that are shown. -/
def shownLines (verbose : Bool) (events : List Event) : List String :=
  ((events.flatMap Event.logLines).filter fun l => verbose || l.level ≠ .debug).map LogLine.render

/-- A request that takes frames. -/
structure Running where
  options : Options
  session : Session
  schedule : Schedule
  profile : Option Profile
  /-- How many frames have been taken. -/
  frames : Nat

namespace Running

def isFinished (r : Running) : Bool :=
  match r.options.frames with
  | none => false
  | some limit => limit ≤ r.frames

def step (r : Running) (timing : FrameTiming) : Running :=
  let (session, profile) := r.session.frame r.schedule r.profile timing
  { r with session, profile, frames := r.frames + 1 }

def run (timing : Nat → FrameTiming) : Nat → Running → Running
  | 0, r => r
  | frames + 1, r => run timing frames (r.step (timing r.frames))

def finish (r : Running) : Outcome :=
  let (session, summary) := r.session.endRun r.frames r.profile
  { output := ""
    journal := session.close.journal
    error := none
    file := do return (← r.options.profileOut, ← summary.report) }

end Running

/-- How far a request has come before the first frame. -/
inductive Progress where
  | finished (outcome : Outcome)
  | running (r : Running)

/-- The program that fails before it has a session. -/
def Outcome.failed (journal : Array Event) (error : SessionError) : Outcome :=
  ⟨"", journal, some error, none⟩

/-- The program that ends with a session. -/
def Outcome.closed (s : Session) (output : String) (error : Option SessionError) : Outcome :=
  ⟨output, s.close.journal, error, none⟩

def printProgram (source : String) : Outcome :=
  let parsed := Script.parse source
  match parsed.errors, parsed.program with
  | [], some program => ⟨program.text, #[], none, none⟩
  | errors, _ => .failed (errors.map Event.diagnosed).toArray (.parse errors)

/-- The number of a line of a listing, at least three characters wide. -/
def lineNumber (n : Nat) : String :=
  let digits := toString n
  String.ofList (List.replicate (3 - digits.length) ' ') ++ digits

def printSchedule (s : Session) : Outcome :=
  match s.build with
  | (s, .error e) => .closed s "" (some (.build e))
  | (s, .ok schedule) =>
    let lines := (schedule.describe s.world).zipIdx.map fun (path, i) =>
      s!"{lineNumber i}  {path}\n"
    .closed s (String.join lines) none

def startRun (o : Options) (s : Session) : Progress :=
  match s.startRun with
  | (s, .error e) => .finished (.closed s "" (some (.build e)))
  | (session, .ok schedule) =>
    if o.dryRun then .finished (.closed session "" none)
    else
      let profile := if o.profile then some Profile.empty else none
      .running ⟨o, session, schedule, profile, 0⟩

def registrations : Array Event :=
  (Window.catalog.entries.map CatalogEntry.registration).toArray

/-- Begins to carry out the options, given the text of the script, or why it could not be read. -/
def start (o : Options) (script : Except String String) : Progress :=
  match o.stage, script with
  | .program, .error reason => .finished (.failed #[] (.io o.script reason))
  | .program, .ok source => .finished (printProgram source)
  | _, .error reason => .finished (.failed registrations (.io o.script reason))
  | stage, .ok source =>
    match Session.load Window.catalog source (registrations.push (.loading o.script)) with
    | .error failure => .finished (.failed failure.journal failure.error)
    | .ok s =>
      match stage with
      | .diagram => .finished (.closed s (Diagram.text s.world) none)
      | .schedule => .finished (printSchedule s)
      | _ => startRun o s

/-- Carries out the options to the end; without a number of frames none is taken. -/
def execute (o : Options) (script : Except String String) (timing : Nat → FrameTiming) : Outcome :=
  match start o script with
  | .finished outcome => outcome
  | .running r => (Running.run timing (o.frames.getD 0) r).finish

end FrameGraph.CommandLine
