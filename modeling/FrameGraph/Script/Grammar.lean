import FrameGraph.Script.Program

/-!
# The grammar of statements

    statement   = path "=" path [ "(" [ assignment { "," assignment } ] ")" ]
    assignment  = identifier "=" literal
    path        = identifier { "." identifier }

One token decides at every point how a statement goes on, so reading never goes back, and the first
token that cannot be accepted is the one to report, with all tokens that could stand there.
-/
namespace FrameGraph.Script

inductive Expected where
  | identifier
  | dot
  | equals
  | openParen
  | closeParen
  | comma
  | literal
  | endOfInput
  deriving DecidableEq, Repr

def Expected.text : Expected → String
  | identifier => "'<ident>'"
  | dot => "'.'"
  | equals => "'='"
  | openParen => "'('"
  | closeParen => "')'"
  | comma => "','"
  | literal => "something else"
  | endOfInput => "end of input"

def alternatives (items : List String) : String :=
  match items with
  | [] => ""
  | [item] => item
  | items => ", ".intercalate items.dropLast ++ ", or " ++ items.getLastD ""

/-- The first lexeme that cannot be accepted, none at the end of the region, and what could stand
there. -/
structure Mismatch where
  found : Option Lexeme
  expected : List Expected
  deriving DecidableEq

def Mismatch.message (m : Mismatch) : String :=
  let found := match m.found with
    | some l => s!"'{l.token.text}'"
    | none => "end of input"
  s!"found {found} expected {alternatives (m.expected.map Expected.text)}"

def refuse {α : Type} (lexemes : List Lexeme) (expected : List Expected) : Except Mismatch α :=
  .error ⟨lexemes.head?, expected⟩

/-- The names of a path behind its first. -/
def readTail : List Lexeme → Except Mismatch (List Identifier × List Lexeme)
  | ⟨.dot, _, _⟩ :: ⟨.identifier name, span, _⟩ :: rest => do
    let (later, rest) ← readTail rest
    return (⟨name, span⟩ :: later, rest)
  | ⟨.dot, _, _⟩ :: rest => refuse rest [.identifier]
  | rest => .ok ([], rest)

def readPath : List Lexeme → Except Mismatch (Path × List Lexeme)
  | ⟨.identifier name, span, _⟩ :: rest => do
    let (tail, rest) ← readTail rest
    return (⟨⟨name, span⟩, tail⟩, rest)
  | rest => refuse rest [.identifier]

/-- Assignments up to the closing parenthesis, with the offset behind it. -/
def readAssignments : List Lexeme → Except Mismatch ((List Assignment × Nat) × List Lexeme)
  | ⟨.identifier name, nameSpan, _⟩ :: ⟨.equals, _, _⟩ :: ⟨.literal value, span, _⟩ ::
      ⟨.comma, _, _⟩ :: rest => do
    let ((later, stop), rest) ← readAssignments rest
    return ((⟨⟨name, nameSpan⟩, ⟨value, span⟩⟩ :: later, stop), rest)
  | ⟨.identifier name, nameSpan, _⟩ :: ⟨.equals, _, _⟩ :: ⟨.literal value, span, _⟩ ::
      ⟨.closeParen, close, _⟩ :: rest =>
    .ok (([⟨⟨name, nameSpan⟩, ⟨value, span⟩⟩], close.stop), rest)
  | ⟨.identifier _, _, _⟩ :: ⟨.equals, _, _⟩ :: ⟨.literal _, _, _⟩ :: rest =>
    refuse rest [.comma, .closeParen]
  | ⟨.identifier _, _, _⟩ :: ⟨.equals, _, _⟩ :: rest => refuse rest [.literal]
  | ⟨.identifier _, _, _⟩ :: rest => refuse rest [.equals]
  | rest => refuse rest [.identifier]

/-- Arguments behind the opening parenthesis, with the offset behind the closing one. -/
def readArguments : List Lexeme → Except Mismatch ((List Assignment × Nat) × List Lexeme)
  | ⟨.closeParen, close, _⟩ :: rest => .ok (([], close.stop), rest)
  | ⟨.identifier name, span, line⟩ :: rest =>
    readAssignments (⟨.identifier name, span, line⟩ :: rest)
  | rest => refuse rest [.identifier, .closeParen]

/-- What may follow the source path: arguments, or nothing. Gives the offset behind all of it. -/
def readEnding (source : Path) : List Lexeme → Except Mismatch (Option (List Assignment) × Nat)
  | [] => .ok (none, source.span.stop)
  | ⟨.openParen, _, _⟩ :: rest => do
    let ((assignments, stop), rest) ← readArguments rest
    match rest with
    | [] => return (some assignments, stop)
    | l :: _ => .error ⟨some l, [.endOfInput]⟩
  | l :: _ => .error ⟨some l, [.dot, .openParen, .endOfInput]⟩

def readStatement (lexemes : List Lexeme) : Except Mismatch Statement := do
  let (target, rest) ← readPath lexemes
  match rest with
  | ⟨.equals, _, _⟩ :: rest =>
    let (source, rest) ← readPath rest
    let (arguments, stop) ← readEnding source rest
    let line := match lexemes with
      | l :: _ => l.line
      | [] => 0
    return { target, source, arguments, stop, line }
  | rest => .error ⟨rest.head?, [.dot, .equals]⟩

end FrameGraph.Script
