import FrameGraph.Script.Literal
import FrameGraph.Source

/-!
# Tokens and lexemes

A token is what a piece of a script means; a lexeme is a token together with its place.
-/
namespace FrameGraph.Script

def maxLexemeLength : Nat := 256

/-- What a lexeme means. -/
inductive Token where
  | openParen
  | closeParen
  | comma
  | dot
  | equals
  | literal (value : Value)
  | identifier (name : String)
  deriving DecidableEq

def Token.text : Token → String
  | openParen => "("
  | closeParen => ")"
  | comma => ","
  | dot => "."
  | equals => "="
  | literal value => literalText value
  | identifier _ => "<ident>"

structure Lexeme where
  token : Token
  span : Span
  line : Nat
  deriving DecidableEq

/-- Why a lexeme is no token. -/
inductive LexicalFault where
  | unexpectedCharacter
  | tokenTooLong
  | malformedNumber
  | integerOverflow
  | hexOverflow
  | invalidEscape
  | unterminatedString
  | unterminatedComment
  deriving DecidableEq, Repr

def LexicalFault.message : LexicalFault → String
  | unexpectedCharacter => "unexpected character"
  | tokenTooLong => s!"token exceeds {maxLexemeLength} bytes"
  | malformedNumber => "malformed number"
  | integerOverflow => "integer literal out of range"
  | hexOverflow => "hexadecimal literal exceeds 32 bits"
  | invalidEscape => "invalid escape sequence in string"
  | unterminatedString => "unterminated string"
  | unterminatedComment => "unterminated block comment"

end FrameGraph.Script
