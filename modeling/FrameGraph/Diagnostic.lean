import FrameGraph.Source

/-!
# Diagnostics

What is wrong with a script, as a value: a stable code, a place, a message, and sometimes a hint or
further places that explain the first.
-/
namespace FrameGraph

/-- A stable code. No code is ever given a second meaning. -/
abbrev Code := String

namespace Code

/-- Some text of the script is no token. -/
def lexical : Code := "E0001"

/-- A token that cannot continue its statement. -/
def unexpectedToken : Code := "E0100"

/-- So many statements are malformed that reading was given up. -/
def tooManyErrors : Code := "E0101"

/-- A path that names nothing. -/
def unresolved : Code := "E0200"

def alreadyDefined : Code := "E0201"

/-- A member that is not a type. -/
def notInstantiable : Code := "E0202"

def unknownParameter : Code := "E0203"

def duplicateParameter : Code := "E0204"

def typeMismatch : Code := "E0205"

def unknownInput : Code := "E0206"

def notANode : Code := "E0207"

/-- A source whose output the input does not accept. -/
def incompatible : Code := "E0208"

/-- A scope that could not be set up. -/
def setupFailed : Code := "E0209"

/-- A target that is not inside a scope, or a source that is no single name. -/
def invalidPath : Code := "E0210"

end Code

inductive Severity where
  | error
  | warning
  deriving DecidableEq, Repr

def Severity.name : Severity → String
  | error => "error"
  | warning => "warning"

structure Related where
  span : Span
  label : String
  deriving DecidableEq

structure Diagnostic where
  code : Option Code
  severity : Severity
  span : Span
  line : Option Nat
  message : String
  hint : Option String
  related : List Related
  deriving DecidableEq

namespace Diagnostic

def error (code : Code) (span : Span) (line : Nat) (message : String) : Diagnostic :=
  ⟨some code, .error, span, some line, message, none, []⟩

def relate (d : Diagnostic) (span : Span) (label : String) : Diagnostic :=
  { d with related := d.related ++ [⟨span, label⟩] }

def isError (d : Diagnostic) : Bool := d.severity = .error

/-- The diagnostic as it is shown: line, severity and code, message, and the hint on a line of its
own. -/
def text (d : Diagnostic) : String :=
  let line := match d.line with
    | some n => s!"line {n}: "
    | none => ""
  let code := match d.code with
    | some c => s!"[{c}]"
    | none => ""
  let hint := match d.hint with
    | some h => "\n  hint: " ++ h
    | none => ""
  s!"{line}{d.severity.name}{code}: {d.message}{hint}"

end Diagnostic

def errorCount (ds : List Diagnostic) : Nat := ds.countP Diagnostic.isError

end FrameGraph
