import FrameGraph.CommandLine.Execute

/-!
# The program

Reads the script, takes frames at the rate that is asked for, measures them, and writes what there
is to show.
-/
namespace FrameGraph.CommandLine

/-- A failure in the words of the operating system, with its number. -/
def systemReason : IO.Error → String
  | .noFileOrDirectory _ code details | .interrupted _ code details
  | .alreadyExists _ code details | .invalidArgument _ code details
  | .permissionDenied _ code details | .resourceExhausted _ code details
  | .inappropriateType _ code details | .noSuchThing _ code details
  | .otherError code details | .resourceBusy code details | .resourceVanished code details
  | .unsupportedOperation code details | .hardwareFault code details
  | .unsatisfiedConstraints code details | .illegalOperation code details
  | .protocolError code details | .timeExpired code details => s!"{details} (os error {code})"
  | e => toString e

def readScript (path : String) : IO (Except String String) := do
  try
    return Text.decode (← IO.FS.readBinFile path)
  catch e => return .error (systemReason e)

/-- Writes the lines of the log that have come since `shown` events. -/
def showLog (verbose : Bool) (journal : Array Event) (shown : Nat) : IO Nat := do
  for line in shownLines verbose (journal.toList.drop shown) do
    IO.eprintln line
  return journal.size

/-- One frame with the clock running. -/
def timedFrame (r : Running) : IO Running := do
  match r.profile with
  | none => return r.step ⟨fun _ => 0, 0⟩
  | some profile =>
    let began ← IO.monoNanosNow
    let mut world := r.session.world
    let mut profile := profile
    for id in r.schedule.order do
      let before ← IO.monoNanosNow
      world := Schedule.updateNode world id
      let after ← IO.monoNanosNow
      profile := profile.record id (after - before).toUInt64
    let ended ← IO.monoNanosNow
    profile := profile.recordFrame (ended - began).toUInt64
    return { r with
      session := { r.session with world }
      profile := some profile
      frames := r.frames + 1 }

/-- The time of a frame in nanoseconds, if frames are paced. -/
def framePeriod (fps : Float) : Option Nat :=
  if 0 < fps && fps.isFinite then some (1e9 / fps).toUInt64.toNat else none

partial def takeFrames (r : Running) (shown : Nat) : IO (Running × Nat) := do
  if r.isFinished then return (r, shown)
  let began ← IO.monoNanosNow
  let r ← timedFrame r
  let shown ← showLog r.options.verbose r.session.world.journal shown
  if let some period := framePeriod r.options.fps then
    let elapsed := (← IO.monoNanosNow) - began
    IO.sleep ((period - elapsed) / 1000000).toUInt32
  takeFrames r shown

def writeFile (o : Outcome) : IO Outcome := do
  match o.file with
  | none => return o
  | some (path, report) =>
    try
      IO.FS.writeFile path report.json
      return o
    catch e => return o.unwritten path (systemReason e)

def carryOut (o : Options) : IO UInt32 := do
  let (outcome, shown) ← match start o (← readScript o.script) with
    | .finished outcome => pure (outcome, 0)
    | .running r => do
      let shown ← showLog o.verbose r.session.world.journal 0
      let (r, shown) ← takeFrames r shown
      pure (r.finish, shown)
  let outcome ← writeFile outcome
  discard <| showLog o.verbose outcome.journal shown
  IO.print outcome.output
  if let some message := outcome.failure? then IO.eprintln message
  return outcome.exitCode.toUInt32

end FrameGraph.CommandLine

open FrameGraph.CommandLine in
/-- Reads the arguments and does what they ask for. -/
def main (arguments : List String) : IO UInt32 := do
  match Request.ofArguments arguments with
  | .execute options => carryOut options
  | .help => IO.print helpText; return 0
  | .version => IO.print versionText; return 0
  | .misuse =>
    IO.eprintln "error: invalid arguments\n\nUsage: lumen [OPTIONS] <SCRIPT>"
    return 2
