import FrameGraph.Value
import FrameGraph.Decimal.Layout

/-!
# Literals

How a value is written in a script. A real always has a fraction, so that it never reads as an
integer; a string escapes the quote, the backslash and the line feed, and nothing else.
-/
namespace FrameGraph.Script

/-- What stands for a character in a string literal. -/
def escapeChar (c : Char) : List Char :=
  match c with
  | '\n' => ['\\', 'n']
  | '\\' => ['\\', '\\']
  | '"' => ['\\', '"']
  | c => [c]

def escapeChars (s : List Char) : List Char := s.flatMap escapeChar

def escape (s : String) : String := String.ofList (escapeChars s.toList)

/-- What an escape stands for, by the character behind the backslash. -/
def unescapeChar : Char → Option Char
  | 'n' => some '\n'
  | '"' => some '"'
  | '\\' => some '\\'
  | _ => none

/-- The body of a string literal read back; nothing if an escape is none of the three. -/
def unescapeChars : List Char → Option (List Char)
  | [] => some []
  | ['\\'] => none
  | '\\' :: e :: rest => do return (← unescapeChar e) :: (← unescapeChars rest)
  | c :: rest => do return c :: (← unescapeChars rest)

def realText (x : Float) : String :=
  let text := Decimal.plain.real x
  if text.contains '.' then text else text ++ ".0"

def literalText : Value → String
  | .bool b => if b then "true" else "false"
  | .integer n => toString n.toInt
  | .real x => realText x
  | .string s => "\"" ++ escape s ++ "\""

@[simp] theorem escapeChars_nil : escapeChars [] = [] := rfl

@[simp] theorem escapeChars_cons (c : Char) (s : List Char) :
    escapeChars (c :: s) = escapeChar c ++ escapeChars s := rfl

theorem unescapeChars_cons {c : Char} (h : c ≠ '\\') (s : List Char) :
    unescapeChars (c :: s) = (unescapeChars s).map (c :: ·) := by
  rw [unescapeChars.eq_4 c s (fun hc _ => h hc) (fun _ _ hc _ => h hc)]
  cases unescapeChars s <;> rfl

/-- Escaping loses nothing. -/
theorem unescapeChars_escapeChars (s : List Char) : unescapeChars (escapeChars s) = some s := by
  induction s with
  | nil => rfl
  | cons c s ih =>
    rw [escapeChars_cons]
    unfold escapeChar
    split
    · simp [unescapeChars, unescapeChar, ih]
    · simp [unescapeChars, unescapeChar, ih]
    · simp [unescapeChars, unescapeChar, ih]
    · rename_i h _
      simp [unescapeChars_cons h, ih]

end FrameGraph.Script
