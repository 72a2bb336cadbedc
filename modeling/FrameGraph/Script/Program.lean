import FrameGraph.Script.Token

/-!
# Programs

The statements of a script. A statement gives its target path a source path; with arguments it
makes something of a type, and without them it connects two nodes, unless its target is a single
name.

A program is written canonically with one statement a line. Written so, it reads back as the same
statements.
-/
namespace FrameGraph.Script

structure Identifier where
  name : String
  span : Span
  deriving DecidableEq

/-- Names joined by dots; at least one. -/
structure Path where
  head : Identifier
  tail : List Identifier
  deriving DecidableEq

namespace Path

def segments (p : Path) : List Identifier := p.head :: p.tail

def names (p : Path) : List String := p.segments.map Identifier.name

def last (p : Path) : Identifier := p.tail.getLastD p.head

def leading (p : Path) : List String := p.names.dropLast

def span (p : Path) : Span := p.head.span.through p.last.span

def isSimple (p : Path) : Bool := p.tail.isEmpty

/-- The names with dots between them. -/
def chars (p : Path) : List Char :=
  ['.'].intercalate (p.names.map String.toList)

def text (p : Path) : String := String.ofList p.chars

end Path

structure Literal where
  value : Value
  span : Span
  deriving DecidableEq

structure Assignment where
  parameter : Identifier
  literal : Literal
  deriving DecidableEq

namespace Assignment

def span (a : Assignment) : Span := a.parameter.span.through a.literal.span

/-- The name and the literal with an equals sign between them. -/
def chars (a : Assignment) : List Char :=
  a.parameter.name.toList ++ '=' :: (literalText a.literal.value).toList

end Assignment

structure Statement where
  target : Path
  source : Path
  /-- The assignments between parentheses, if there are parentheses. -/
  arguments : Option (List Assignment)
  /-- Where the statement ends. -/
  stop : Nat
  line : Nat
  deriving DecidableEq

namespace Statement

def span (s : Statement) : Span := ⟨s.target.span.start, s.stop⟩

/-- The statement makes something: it has arguments, or its target is a single name. -/
def instantiates (s : Statement) : Bool := s.arguments.isSome || s.target.isSimple

def assignments (s : Statement) : List Assignment := s.arguments.getD []

/-- The statement in canonical form. -/
def chars (s : Statement) : List Char :=
  let arguments := match s.arguments with
    | none => []
    | some as => '(' :: [',', ' '].intercalate (as.map Assignment.chars) ++ [')']
  s.target.chars ++ ' ' :: '=' :: ' ' :: s.source.chars ++ arguments

def text (s : Statement) : String := String.ofList s.chars

end Statement

structure Program where
  statements : List Statement
  span : Span
  deriving DecidableEq

namespace Program

/-- The program in canonical form, one statement a line. -/
def chars (p : Program) : List Char :=
  p.statements.flatMap fun s => s.chars ++ ['\n']

def text (p : Program) : String := String.ofList p.chars

end Program

end FrameGraph.Script
