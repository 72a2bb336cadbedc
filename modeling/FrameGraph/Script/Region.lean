import FrameGraph.Script.Token

/-!
# Regions

The lexemes of a script are divided into regions before any statement is read, so that a malformed
statement never takes a part of its neighbours. A region begins where an assignment begins: at a
path with an equals sign behind it that does not itself continue a path. Between parentheses a name
with an equals sign is an argument, so there only an assignment whose value is a path begins a
region.

No lexeme is lost: the regions, one after the other, are the lexemes.
-/
namespace FrameGraph.Script

def assigned? : List Lexeme → Option (List Lexeme)
  | ⟨.equals, _, _⟩ :: rest => some rest
  | ⟨.dot, _, _⟩ :: ⟨.identifier _, _, _⟩ :: rest => assigned? rest
  | _ => none

def Lexeme.isIdentifier (l : Lexeme) : Bool :=
  match l.token with
  | .identifier _ => true
  | _ => false

/-- A region begins with these lexemes, between `depth` parentheses and behind a dot or not. -/
def beginsRegion (depth : Nat) (afterDot : Bool) (lexemes : List Lexeme) : Bool :=
  match lexemes with
  | ⟨.identifier _, _, _⟩ :: rest =>
    match assigned? rest with
    | some value => !afterDot && (depth = 0 || value.head?.any Lexeme.isIdentifier)
    | none => false
  | _ => false

/-- How many parentheses are open behind a token. -/
def depthAfter (depth : Nat) : Token → Nat
  | .openParen => depth + 1
  | .closeParen => depth - 1
  | _ => depth

/-- The lexemes up to where the next region begins, and the regions from there on. -/
def divide (depth : Nat) (afterDot : Bool) : List Lexeme → List Lexeme × List (List Lexeme)
  | [] => ([], [])
  | l :: rest =>
    if beginsRegion depth afterDot (l :: rest) then
      let (body, later) := divide 0 false rest
      ([], (l :: body) :: later)
    else
      let (body, later) := divide (depthAfter depth l.token) (l.token = .dot) rest
      (l :: body, later)

/-- The regions of a script. What comes before the first assignment is a region too. -/
def regions (lexemes : List Lexeme) : List (List Lexeme) :=
  match divide 0 false lexemes with
  | ([], later) => later
  | (body, later) => body :: later

theorem divide_flatten (depth : Nat) (afterDot : Bool) (lexemes : List Lexeme) :
    (divide depth afterDot lexemes).1 ++ (divide depth afterDot lexemes).2.flatten = lexemes := by
  fun_induction divide depth afterDot lexemes <;> simp_all

theorem flatten_regions (lexemes : List Lexeme) : (regions lexemes).flatten = lexemes := by
  have h := divide_flatten 0 false lexemes
  unfold regions
  split <;> simp_all

end FrameGraph.Script
