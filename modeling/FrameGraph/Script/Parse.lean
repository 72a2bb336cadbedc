import FrameGraph.Diagnostic
import FrameGraph.Script.Grammar
import FrameGraph.Script.Lexemes
import FrameGraph.Script.Region

/-!
# Reading a script

A script that does not lex has no program. Otherwise every region is read on its own and gives
either a statement or a diagnostic, and the program holds the statements. Too many malformed
regions are taken for something that is not a script at all: then there is no program either, and
the first diagnostics are followed by one that counts them.
-/
namespace FrameGraph.Script

def maxErrors : Nat := 16

structure Parsed where
  program : Option Program
  errors : List Diagnostic
  deriving DecidableEq

namespace Parsed

def isOk (p : Parsed) : Bool := p.errors.isEmpty && p.program.isSome

end Parsed

def LexicalError.diagnostic (e : LexicalError) : Diagnostic :=
  .error Code.lexical e.span e.line e.reason

/-- The diagnostic of a region that is no statement; `stop` is where the region ends. -/
def Mismatch.diagnostic (lines : LineIndex) (stop : Nat) (m : Mismatch) : Diagnostic :=
  let span := match m.found with
    | some l => l.span
    | none => .point stop
  .error Code.unexpectedToken span (lines.line span.start) m.message

/-- Where the regions end: each at the start of the next, the last at the end of the source. -/
def withStops (sourceStop : Nat) : List (List Lexeme) → List (List Lexeme × Nat)
  | [] => []
  | region :: later =>
    let stop := match later with
      | (l :: _) :: _ => l.span.start
      | _ => sourceStop
    (region, stop) :: withStops sourceStop later

/-- The statement or the diagnostic of every region. -/
def readRegions (lines : LineIndex) (sourceStop : Nat) (lexemes : List Lexeme) :
    List (Except Diagnostic Statement) :=
  (withStops sourceStop (regions lexemes)).map fun (region, stop) =>
    (readStatement region).mapError (Mismatch.diagnostic lines stop)

/-- The diagnostic that ends a list of too many, at the first that is left out. -/
def givingUp (lines : LineIndex) (total : Nat) (next : Diagnostic) : Diagnostic :=
  .error Code.tooManyErrors next.span (lines.line next.span.start)
    s!"too many errors ({total}), giving up"

/-- The program of what the regions gave, or the diagnostics alone if there are too many. -/
def collect (lines : LineIndex) (sourceStop : Nat) (results : List (Except Diagnostic Statement)) :
    Parsed :=
  let errors := results.filterMap fun
    | .error d => some d
    | .ok _ => none
  let statements := results.filterMap fun
    | .ok s => some s
    | .error _ => none
  match errors.drop maxErrors with
  | [] => ⟨some ⟨statements, ⟨0, sourceStop⟩⟩, errors⟩
  | next :: _ => ⟨none, errors.take maxErrors ++ [givingUp lines errors.length next]⟩

def parse (source : String) : Parsed :=
  let lines := LineIndex.ofSource source
  match lex source with
  | .error e => ⟨none, [e.diagnostic]⟩
  | .ok lexemes =>
    let stop := source.utf8ByteSize
    collect lines stop (readRegions lines stop lexemes)

end FrameGraph.Script
