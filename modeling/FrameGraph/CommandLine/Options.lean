import FrameGraph.CommandLine.Number

/-!
# Command line options

The arguments are read from left to right, and the first that makes no sense ends the reading. No
option and no flag may be given twice. A value stands behind an equals sign or is the next argument,
which then must not look like an option. Behind a lone `--` nothing is an option any more.
-/
namespace FrameGraph.CommandLine

inductive Stage where
  | run
  | program
  | schedule
  | diagram
  deriving DecidableEq, Repr

def Stage.ofName? : String → Option Stage
  | "run" => some run
  | "ast" => some program
  | "graph" => some schedule
  | "dot" => some diagram
  | _ => none

structure Arguments where
  script : Option String := none
  dryRun : Bool := false
  profile : Bool := false
  fps : Option Float := none
  frames : Option Nat := none
  stage : Option Stage := none
  profileOut : Option String := none
  verbose : Bool := false

structure Options where
  script : String
  dryRun : Bool
  profile : Bool
  /-- Frames per second; nothing above zero means as fast as possible. -/
  fps : Float
  /-- How many frames; without end if there is no number. -/
  frames : Option Nat
  stage : Stage
  profileOut : Option String
  verbose : Bool

inductive Request where
  | execute (options : Options)
  | help
  | version
  | misuse

inductive ValueOption where
  | fps
  | frames
  | stage
  | profileOut
  deriving DecidableEq

inductive Flag where
  | dryRun
  | profile
  | verbose
  | help
  | version
  deriving DecidableEq

def ValueOption.ofName? : String → Option ValueOption
  | "fps" => some fps
  | "frames" => some frames
  | "emit" => some stage
  | "profile-out" => some profileOut
  | _ => none

def Flag.ofName? : String → Option Flag
  | "dry-run" => some dryRun
  | "profile" => some profile
  | "verbose" => some verbose
  | "help" => some help
  | "version" => some version
  | _ => none

def Flag.ofChar? : Char → Option Flag
  | 'v' => some verbose
  | 'h' => some help
  | 'V' => some version
  | _ => none

/-- Sets what has not been set before. -/
def setOnce {α : Type} (old : Option α) (new : Option α) : Option (Option α) :=
  match old, new with
  | none, some a => some (some a)
  | _, _ => none

/-- Raises a flag that has not been raised before. -/
def raiseOnce (old : Bool) : Option Bool := if old then none else some true

/-- A path, which is not empty. -/
def nonEmpty? (text : String) : Option String := if text.isEmpty then none else some text

namespace Arguments

/-- Gives an option its value, unless it has one or the value makes no sense. -/
def give (a : Arguments) (option : ValueOption) (value : String) : Option Arguments :=
  match option with
  | .fps => (setOnce a.fps (readReal? value)).map fun fps => { a with fps }
  | .frames => (setOnce a.frames (readCount? value)).map fun frames => { a with frames }
  | .stage => (setOnce a.stage (Stage.ofName? value)).map fun stage => { a with stage }
  | .profileOut =>
    (setOnce a.profileOut (nonEmpty? value)).map fun profileOut => { a with profileOut }

/-- Raises a flag. Help and version are answered at once. -/
def raise (a : Arguments) (flag : Flag) : Except Request Arguments :=
  match flag with
  | .dryRun => (raiseOnce a.dryRun).elim (.error .misuse) fun dryRun => .ok { a with dryRun }
  | .profile => (raiseOnce a.profile).elim (.error .misuse) fun profile => .ok { a with profile }
  | .verbose => (raiseOnce a.verbose).elim (.error .misuse) fun verbose => .ok { a with verbose }
  | .help => .error .help
  | .version => .error .version

/-- Takes an argument that is no option: the script. -/
def position (a : Arguments) (value : String) : Except Request Arguments :=
  match setOnce a.script (nonEmpty? value) with
  | some script => .ok { a with script }
  | none => .error .misuse

def raiseAll (a : Arguments) : List Char → Except Request Arguments
  | [] => .ok a
  | c :: rest =>
    match Flag.ofChar? c with
    | none => .error .misuse
    | some flag =>
      match a.raise flag with
      | .ok a => a.raiseAll rest
      | .error r => .error r

def finish (a : Arguments) : Request :=
  match a.script with
  | none => .misuse
  | some script =>
    .execute
      { script
        dryRun := a.dryRun
        profile := a.profile || a.profileOut.isSome
        fps := a.fps.getD 60
        frames := a.frames
        stage := a.stage.getD .run
        profileOut := a.profileOut
        verbose := a.verbose }

end Arguments

inductive Shape where
  | escape
  | long (name : String) (value : Option String)
  | short (names : List Char)
  | plain

/-- An argument by its first characters. A lone hyphen is no option. -/
def shapeOf (argument : String) : Shape :=
  match argument.toList with
  | ['-', '-'] => .escape
  | '-' :: '-' :: rest =>
    let name := String.ofList (rest.takeWhile (· ≠ '='))
    match rest.dropWhile (· ≠ '=') with
    | [] => .long name none
    | _ :: value => .long name (some (String.ofList value))
  | '-' :: c :: rest => .short (c :: rest)
  | _ => .plain

/-- The argument can be the value of the option before it. -/
def isValue (argument : String) : Bool :=
  match shapeOf argument with
  | .plain => true
  | _ => false

def readPositions (a : Arguments) : List String → Request
  | [] => a.finish
  | argument :: rest =>
    match a.position argument with
    | .ok a => readPositions a rest
    | .error r => r

def readArguments (a : Arguments) : List String → Request
  | [] => a.finish
  | argument :: rest =>
    match shapeOf argument with
    | .escape => readPositions a rest
    | .plain =>
      match a.position argument with
      | .ok a => readArguments a rest
      | .error r => r
    | .short names =>
      match a.raiseAll names with
      | .ok a => readArguments a rest
      | .error r => r
    | .long name value =>
      match ValueOption.ofName? name, value with
      | some option, some value =>
        match a.give option value with
        | some a => readArguments a rest
        | none => .misuse
      | some option, none =>
        match rest with
        | [] => .misuse
        | value :: rest =>
          if isValue value then
            match a.give option value with
            | some a => readArguments a rest
            | none => .misuse
          else .misuse
      | none, none =>
        match Flag.ofName? name with
        | none => .misuse
        | some flag =>
          match a.raise flag with
          | .ok a => readArguments a rest
          | .error r => r
      | none, some _ => .misuse

def Request.ofArguments (arguments : List String) : Request := readArguments {} arguments

end FrameGraph.CommandLine
