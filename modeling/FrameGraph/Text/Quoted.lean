import FrameGraph.Text.Printable

/-!
# Quoted texts

Messages and log lines show a foreign text between quotes, so that nothing in it can be taken for
the message itself: the quote and the backslash are escaped, the common controls have names, and
every other character that draws nothing or joins its neighbour is spelled by its number.
-/
namespace FrameGraph.Text

/-- A character spelled by its code point in lower-case hexadecimal. -/
def spelled (c : Char) : List Char :=
  "\\u\x7b".toList ++ Nat.toDigits 16 c.toNat ++ ['\x7d']

def quotedChar (c : Char) : List Char :=
  match c with
  | '\x00' => ['\\', '0']
  | '\t' => ['\\', 't']
  | '\n' => ['\\', 'n']
  | '\r' => ['\\', 'r']
  | '\\' => ['\\', '\\']
  | '"' => ['\\', '"']
  | c => if isExtending c || !isPrintable c then spelled c else [c]

def quoted (s : String) : String :=
  String.ofList ('"' :: s.toList.flatMap quotedChar ++ ['"'])

/-- A list in brackets, its items separated by commas. -/
def bracketed (items : List String) : String :=
  "[" ++ ", ".intercalate items ++ "]"

def optional : Option String → String
  | none => "None"
  | some s => "Some(" ++ s ++ ")"

end FrameGraph.Text
