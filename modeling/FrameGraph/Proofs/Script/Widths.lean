import FrameGraph.Proofs.Script.Numerals
import FrameGraph.Proofs.Decimal.Shortness

/-!
# Widths of printed literals

A literal of a source fits into a lexeme there, but not always when it is printed. The line feeds of
a string are escaped then, and one real is rounded up to a digit more than it was written with.
Every other literal fits again.
-/
namespace FrameGraph.Script

open Text

/-! ## Reals -/

theorem byteLength_of_isReal {text whole fraction : List Char}
    (h : Decimal.IsReal text whole fraction) : byteLength text = text.length := by
  have hpoint : '.'.utf8Size = 1 := rfl
  rw [h.text, byteLength_append, byteLength_cons, byteLength_of_isDigit h.whole_digits,
    byteLength_of_isDigit h.fraction_digits, hpoint, List.length_append, List.length_cons]
  omega

/-- A text is that of one real only. -/
theorem read_unique {text whole fraction whole' fraction' : List Char}
    (h : Decimal.IsReal text whole fraction) (h' : Decimal.IsReal text whole' fraction') :
    Decimal.read whole fraction = Decimal.read whole' fraction' := by
  have hread := (readReal_of_isReal h).symm.trans (readReal_of_isReal h')
  simpa using hread

/-- A one and zeros, as many as were digits before a point. -/
def powerText (n : Nat) : List Char := '1' :: List.replicate n '0' ++ ['.', '0']

theorem powerText_isReal (n : Nat) :
    Decimal.IsReal (powerText n) ('1' :: List.replicate n '0') ['0'] :=
  ⟨rfl, by simp, by simp, List.forall_mem_cons.mpr ⟨rfl, Decimal.isDigit_replicate n⟩, by simp⟩

/-- The pattern of 10²⁵⁴, whose text is the longest that a real of a source can have. -/
def widest : Nat := 0x74ab4781ead1989e

theorem widest_lt : widest < Decimal.infinite := by decide

/-- Both 10²⁵⁴ and the nines before it are rounded to this pattern, and this is its text. -/
theorem widest_rounded :
    Decimal.nearest (1 * Nat.pow 10 254 * Decimal.one) 1 = widest ∧
    Decimal.nearest (Decimal.digitsValue (List.replicate 254 '9' ++ ['0']) * Decimal.one)
      (Nat.pow 10 1) = widest ∧
    Decimal.withFraction (Decimal.plain.magnitude widest) = powerText 254 := by
  decide +kernel

theorem ofScientific_widest :
    Decimal.ofScientific 1 254 = Float.ofBits widest.toUInt64 := by
  have hplaces : (254 : Int).natAbs = 254 := rfl
  rw [Decimal.ofScientific, if_neg (by decide), hplaces, Decimal.ofRatio, widest_rounded.1]

theorem realText_widest : (realText (Decimal.ofScientific 1 254)).toList = powerText 254 := by
  rw [ofScientific_widest, Decimal.realText_toList widest_lt, widest_rounded.2.2]

/-- Only one real has a text so long. -/
theorem eq_widest {p : Nat} (hp : p < Decimal.infinite)
    (h : (realText (Float.ofBits p.toUInt64)).toList = powerText 254) :
    Float.ofBits p.toUInt64 = Decimal.ofScientific 1 254 := by
  obtain ⟨whole, fraction, hreal, hread⟩ := Decimal.realText_reads hp
  obtain ⟨whole', fraction', hreal', hread'⟩ := Decimal.realText_reads widest_lt
  rw [h] at hreal
  rw [← ofScientific_widest, realText_widest] at hreal'
  rw [← hread, ofScientific_widest, ← hread', read_unique hreal hreal']

theorem byteLength_powerText (n : Nat) : byteLength (powerText n) = n + 3 := by
  rw [byteLength_of_isReal (powerText_isReal n), powerText]
  simp

/-- A real that fits where it is written is printed with one byte more than fits at most, and this
is so for one real only. -/
theorem realText_width {text whole fraction : List Char} (h : Decimal.IsReal text whole fraction)
    (hfits : byteLength text ≤ maxLexemeLength) :
    (maxLexemeLength < byteLength (realText (Decimal.read whole fraction)).toList ↔
      Decimal.read whole fraction = Decimal.ofScientific 1 254) ∧
    byteLength (realText (Decimal.read whole fraction)).toList ≤ maxLexemeLength + 1 := by
  have hlimit : maxLexemeLength = 256 := rfl
  have hfraction := List.length_pos_of_ne_nil h.fraction_ne_nil
  rw [byteLength_of_isReal h] at hfits
  have hlength := congrArg List.length h.text
  rw [List.length_append, List.length_cons] at hlength
  have hdigits : (whole ++ fraction).length ≤ 256 := by
    rw [List.length_append]
    omega
  obtain ⟨p, hp, hread⟩ := Decimal.read_finite h.whole_digits h.fraction_digits hdigits
  have hprinted : byteLength (realText (Decimal.read whole fraction)).toList =
      (realText (Decimal.read whole fraction)).toList.length := by
    rw [hread]
    obtain ⟨_, _, hreal, -⟩ := Decimal.realText_reads hp
    exact byteLength_of_isReal hreal
  have hwidest : Decimal.read whole fraction = Decimal.ofScientific 1 254 →
      byteLength (realText (Decimal.read whole fraction)).toList = 257 := fun heq => by
    rw [heq, realText_widest, byteLength_powerText]
  rcases Decimal.realText_length h hdigits with hshort | hpower
  · have hle : byteLength (realText (Decimal.read whole fraction)).toList ≤ maxLexemeLength := by
      rw [hprinted]
      exact hshort.trans hfits
    refine ⟨⟨fun hlong => absurd hle (Nat.not_le_of_lt hlong), fun heq => ?_⟩,
      hle.trans (Nat.le_succ _)⟩
    rw [hwidest heq] at hle
    exact absurd hle (by decide)
  · have hwidth :
        byteLength (realText (Decimal.read whole fraction)).toList = whole.length + 3 := by
      rw [hpower]
      exact byteLength_powerText whole.length
    have hle : whole.length ≤ 254 := by omega
    refine ⟨⟨fun hlong => ?_, fun heq => ?_⟩, ?_⟩
    · have hW : whole.length = 254 := by omega
      rw [hread]
      refine eq_widest hp ?_
      rw [← hread, hpower, hW]
      rfl
    · rw [hwidest heq]
      decide
    · omega

/-! ## All literals -/

/-- A string is printed with one byte more for each raw line feed. -/
theorem stringText_width {text body : List Char} {s : String}
    (hquoted : text = '"' :: body ++ ['"']) (hbody : IsBody body)
    (hmeans : unescapeChars body = some s.toList) :
    byteLength (literalText (.string s)).toList = byteLength text + text.count '\n' ∧
      text.count '\n' + 2 ≤ byteLength text := by
  have hquote : '"'.utf8Size = 1 := rfl
  have hescape : byteLength (escapeChars s.toList) = byteLength body + body.count '\n' := by
    rw [escapeChars_of_unescapeChars hbody hmeans, byteLength_escapeFeeds]
  have htext : byteLength text = byteLength body + 2 := by
    rw [hquoted]
    simp [hquote]
    omega
  have hfeeds : text.count '\n' = body.count '\n' := by
    rw [hquoted]
    simp [List.count_append]
  have hfew : body.count '\n' ≤ byteLength body :=
    List.count_le_length.trans (length_le_byteLength body)
  rw [byteLength_stringText, ← byteLength_escapeChars, hescape, htext, hfeeds]
  omega

/-- A literal with this text in a source does not fit into a lexeme when it is printed. -/
def Outgrows (text : String) : Value → Prop
  | .bool _ => False
  | .integer _ => False
  | .real x => x = Decimal.ofScientific 1 254
  | .string _ => maxLexemeLength < text.utf8ByteSize + text.toList.count '\n'

/-- Only some literals do not fit when they are printed: one real, and the strings that do not fit
once each of their raw line feeds takes two bytes. Nothing is longer than a string of line feeds
alone. -/
theorem literalText_width {source : String} {l : Lexeme} {v : Value}
    (hl : l ∈ (lexing source).lexemes) (hv : l.token = .literal v) :
    (maxLexemeLength < (literalText v).utf8ByteSize ↔ Outgrows (sourceText source l.span) v) ∧
      (literalText v).utf8ByteSize ≤ 2 * maxLexemeLength - 2 := by
  have hlimit : maxLexemeLength = 256 := rfl
  rw [← byteLength_toList]
  have hreadable := lexFrom_readable _ _ l hl
  rw [hv] at hreadable
  cases denotes_of_mem hl hv with
  | bool b =>
    have hwidth : byteLength (literalText (.bool b)).toList ≤ 5 := by cases b <;> decide
    simp only [Outgrows, iff_false]
    omega
  | integer n =>
    have hwidth := byteLength_integerText hreadable
    simp only [Outgrows, iff_false]
    omega
  | real parts fits =>
    obtain ⟨hwidest, hle⟩ := realText_width parts fits
    exact ⟨hwidest, by rw [literalText]; omega⟩
  | @string body s quoted isBody means fits =>
    obtain ⟨hwidth, hfeeds⟩ := stringText_width quoted isBody means
    rw [Outgrows, ← byteLength_toList (sourceText source l.span), hwidth]
    exact ⟨Iff.rfl, by omega⟩

/-- A string with 128 raw line feeds. -/
def feeds : String := "\"" ++ String.ofList (List.replicate 128 '\n') ++ "\""

/-- A real with 254 nines before the point. -/
def nines : String := String.ofList (List.replicate 254 '9' ++ ['.', '0'])

theorem nines_isReal : Decimal.IsReal nines.toList (List.replicate 254 '9') ['0'] where
  text := String.toList_ofList
  whole_ne_nil := List.cons_ne_nil '9' (List.replicate 253 '9')
  fraction_ne_nil := by simp
  whole_digits := fun c hc => by rw [List.eq_of_mem_replicate hc]; rfl
  fraction_digits := by simp

theorem read_nines :
    Decimal.read (List.replicate 254 '9') ['0'] = Decimal.ofScientific 1 254 := by
  rw [ofScientific_widest, Decimal.read, Decimal.ofRatio, List.length_singleton,
    widest_rounded.2.1]

/-- What the nines are rounded to does not fit; an integer in another notation does. -/
theorem literalText_width_nines :
    (∃ l ∈ (lexing nines).lexemes, ∃ v, l.token = .literal v ∧
      maxLexemeLength < (literalText v).utf8ByteSize) ∧
    ∃ l ∈ (lexing "0x1F").lexemes, ∃ v, l.token = .literal v ∧
      ¬maxLexemeLength < (literalText v).utf8ByteSize := by
  constructor
  · have hfits : byteLength nines.toList ≤ maxLexemeLength := by
      rw [byteLength_of_isReal nines_isReal, nines_isReal.text]
      decide +kernel
    have hlexing := lexing_of_reads (reads_isReal nines_isReal (by simp)) hfits
    have hmem : ⟨.literal (.real (Decimal.read (List.replicate 254 '9') ['0'])),
        ⟨0, byteLength nines.toList⟩, 1⟩ ∈ (lexing nines).lexemes := by
      rw [hlexing]
      exact List.mem_singleton_self _
    exact ⟨_, hmem, _, rfl, (literalText_width hmem rfl).1.mpr read_nines⟩
  · have hmem : ⟨.literal (.integer 31), ⟨0, 4⟩, 1⟩ ∈ (lexing "0x1F").lexemes := by decide +kernel
    exact ⟨_, hmem, _, rfl, (literalText_width hmem rfl).1.not.mpr not_false⟩

/-- A string that fits in a source may not fit when it is printed. -/
theorem literalText_width_feeds :
    ¬∀ source ls, lex source = .ok ls → ∀ l ∈ ls, ∀ v, l.token = .literal v →
      (literalText v).utf8ByteSize ≤ maxLexemeLength := by
  intro h
  have hlex : lex feeds = .ok (lexing feeds).lexemes := by
    have hfailure : (lexing feeds).failure = none := by decide +kernel
    simp only [lex, hfailure]
  have hmem : ⟨.literal (.string (String.ofList (List.replicate 128 '\n'))), ⟨0, 130⟩, 1⟩ ∈
      (lexing feeds).lexemes := by
    decide +kernel
  have hwide : ¬(literalText (.string (String.ofList (List.replicate 128 '\n')))).utf8ByteSize ≤
      maxLexemeLength := by
    decide +kernel
  exact hwide (h _ _ hlex _ hmem _ rfl)

end FrameGraph.Script
