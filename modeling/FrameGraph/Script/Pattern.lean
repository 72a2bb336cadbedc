import FrameGraph.Script.Token

/-!
# Lexical patterns

The patterns that lexemes have, and which of them the text at a position has: always the longest
one. The first character decides between the patterns, except that a number may go on as a
hexadecimal or as a real, and a word may be a truth value.
-/
namespace FrameGraph.Script

inductive Pattern where
  | symbol
  | keyword
  | decimal
  | hexadecimal
  | real
  | string
  | openString
  | openComment
  | identifier
  | stray
  deriving DecidableEq, Repr

/-- A lexeme's text at the head of the input, and what follows it. -/
structure Match where
  pattern : Pattern
  text : List Char
  rest : List Char

def isHexDigit (c : Char) : Bool :=
  c.isDigit || ('a' ≤ c && c ≤ 'f') || ('A' ≤ c && c ≤ 'F')

def startsName (c : Char) : Bool := c.isAlpha || c = '_'

def continuesName (c : Char) : Bool := c.isAlphanum || c = '_' || c = '-'

def isBlank (c : Char) : Bool :=
  c = ' ' || c = '\t' || c = '\r' || c = '\n' || c = '\x0c'

/-- What follows an opening quote: the text up to the closing quote and whether there is one. A
backslash and the character after it belong together; a last backslash stays outside. -/
def stringBody : List Char → List Char × Bool × List Char
  | [] => ([], false, [])
  | '"' :: rest => ([], true, rest)
  | ['\\'] => ([], false, ['\\'])
  | '\\' :: c :: rest =>
    let (body, closed, rest) := stringBody rest
    ('\\' :: c :: body, closed, rest)
  | c :: rest =>
    let (body, closed, rest) := stringBody rest
    (c :: body, closed, rest)

def matchString (afterQuote : List Char) : Match :=
  let (body, closed, rest) := stringBody afterQuote
  if closed then ⟨.string, '"' :: body ++ ['"'], rest⟩ else ⟨.openString, '"' :: body, rest⟩

/-- The number that starts with these digits and goes on with `rest`. -/
def matchDigits (digits rest : List Char) : Match :=
  match rest with
  | '.' :: d :: rest =>
    if d.isDigit then
      ⟨.real, digits ++ '.' :: d :: rest.takeWhile Char.isDigit, rest.dropWhile Char.isDigit⟩
    else ⟨.decimal, digits, '.' :: d :: rest⟩
  | rest => ⟨.decimal, digits, rest⟩

/-- The number that starts with digit `d` and goes on with `rest`. -/
def matchNumber (d : Char) (rest : List Char) : Match :=
  match rest with
  | x :: h :: more =>
    if d = '0' && (x = 'x' || x = 'X') && isHexDigit h then
      ⟨.hexadecimal, d :: x :: h :: more.takeWhile isHexDigit, more.dropWhile isHexDigit⟩
    else matchDigits (d :: rest.takeWhile Char.isDigit) (rest.dropWhile Char.isDigit)
  | rest => matchDigits (d :: rest.takeWhile Char.isDigit) (rest.dropWhile Char.isDigit)

def matchWord (c : Char) (rest : List Char) : Match :=
  let word := c :: rest.takeWhile continuesName
  let pattern := if word = "true".toList || word = "false".toList then Pattern.keyword
    else Pattern.identifier
  ⟨pattern, word, rest.dropWhile continuesName⟩

/-- The lexeme at the head of the text `c :: rest`, which does not start with a blank or with a
closed comment. -/
def longestMatch (c : Char) (rest : List Char) : Match :=
  if c = '(' || c = ')' || c = ',' || c = '.' || c = '=' then ⟨.symbol, [c], rest⟩
  else if c = '"' then matchString rest
  else if c = '/' && rest.head? = some '*' then ⟨.openComment, c :: rest, []⟩
  else if c.isDigit then matchNumber c rest
  else if startsName c then matchWord c rest
  else ⟨.stray, [c], rest⟩

def hexValue (digits : List Char) : Nat :=
  digits.foldl (fun value d =>
    let digit :=
      if d.isDigit then d.toNat - '0'.toNat
      else if d.toNat < 'a'.toNat then d.toNat - 'A'.toNat + 10
      else d.toNat - 'a'.toNat + 10
    value * 16 + digit) 0

def readDecimal (digits : List Char) : Except LexicalFault Token :=
  if 1 < digits.length && digits.head? = some '0' then .error .malformedNumber
  else
    let value := Decimal.digitsValue digits
    if (value : Int) ≤ Int64.maxValue.toInt then .ok (.literal (.integer (Int64.ofNat value)))
    else .error .integerOverflow

def readHexadecimal (digits : List Char) : Except LexicalFault Token :=
  let value := hexValue digits
  if value < UInt32.size then .ok (.literal (.integer (Int64.ofNat value))) else .error .hexOverflow

def readReal (text : List Char) : Token :=
  let whole := text.takeWhile Char.isDigit
  let fraction := (text.dropWhile Char.isDigit).drop 1
  .literal (.real (Decimal.read whole fraction))

def readString (body : List Char) : Except LexicalFault Token :=
  match unescapeChars body with
  | some s => .ok (.literal (.string (String.ofList s)))
  | none => .error .invalidEscape

def readSymbol (text : List Char) : Token :=
  match text with
  | ['('] => .openParen
  | [')'] => .closeParen
  | [','] => .comma
  | ['.'] => .dot
  | _ => .equals

/-- The token of a text with the pattern. Length comes before every other property; symbols, truth
values and what has no end are exempt from it. -/
def Pattern.read (pattern : Pattern) (text : List Char) : Except LexicalFault Token :=
  let limited (token : Except LexicalFault Token) : Except LexicalFault Token :=
    if maxLexemeLength < Text.byteLength text then .error .tokenTooLong else token
  match pattern with
  | .symbol => .ok (readSymbol text)
  | .keyword => .ok (.literal (.bool (text = "true".toList)))
  | .decimal => limited (readDecimal text)
  | .hexadecimal => limited (readHexadecimal (text.drop 2))
  | .real => limited (.ok (readReal text))
  | .string => limited (readString (text.drop 1).dropLast)
  | .identifier => limited (.ok (.identifier (String.ofList text)))
  | .openString => .error .unterminatedString
  | .openComment => .error .unterminatedComment
  | .stray => .error .unexpectedCharacter

theorem stringBody_rest_length (s : List Char) : (stringBody s).2.2.length ≤ s.length := by
  fun_induction stringBody s <;> simp_all <;> omega

theorem matchString_rest_length (s : List Char) : (matchString s).rest.length ≤ s.length := by
  unfold matchString
  have := stringBody_rest_length s
  split
  split <;> simp_all

theorem dropWhile_length (p : Char → Bool) (s : List Char) :
    (s.dropWhile p).length ≤ s.length :=
  (List.dropWhile_sublist p).length_le

theorem matchDigits_rest_length (digits s : List Char) :
    (matchDigits digits s).rest.length ≤ s.length := by
  unfold matchDigits
  split
  · rename_i d rest
    have := dropWhile_length Char.isDigit rest
    split <;> simp_all; omega
  · exact Nat.le_refl _

theorem matchNumber_rest_length (d : Char) (s : List Char) :
    (matchNumber d s).rest.length ≤ s.length := by
  have digits (s : List Char) :
      (matchDigits (d :: s.takeWhile Char.isDigit) (s.dropWhile Char.isDigit)).rest.length
        ≤ s.length :=
    Nat.le_trans (matchDigits_rest_length _ _) (dropWhile_length _ _)
  unfold matchNumber
  split
  · rename_i x h more
    split
    · have := dropWhile_length isHexDigit more
      simp; omega
    · exact digits _
  · exact digits _

/-- A match is not empty, so what follows it is shorter. -/
theorem longestMatch_rest_length (c : Char) (s : List Char) :
    (longestMatch c s).rest.length ≤ s.length := by
  unfold longestMatch
  split
  · exact Nat.le_refl _
  · split
    · exact matchString_rest_length s
    · split
      · exact Nat.zero_le _
      · split
        · exact matchNumber_rest_length c s
        · split
          · exact dropWhile_length _ _
          · exact Nat.le_refl _

end FrameGraph.Script
