import FrameGraph.Proofs.Decimal.Reading
import FrameGraph.Script.Lexemes
import Mathlib.Data.List.TakeWhile

/-!
# Patterns

What the texts of the lexical patterns look like. A match has the text of its pattern, and so the
tokens of a script are known to be such that they can be written down again: names are names, and
no literal has a sign.
-/
namespace FrameGraph.Script

/-- A letter or an underscore, and then letters, digits, underscores and hyphens. -/
inductive IsWord : List Char → Prop where
  | word {c : Char} {rest : List Char} (starts : startsName c = true)
      (continues : ∀ d ∈ rest, continuesName d = true) : IsWord (c :: rest)

/-- A word that is no truth value. -/
structure IsName (s : List Char) : Prop where
  word : IsWord s
  ne_true : s ≠ "true".toList
  ne_false : s ≠ "false".toList

/-- What stands between the quotes of a string: no quote but behind a backslash. -/
inductive IsBody : List Char → Prop where
  | nil : IsBody []
  | plain {c : Char} {rest : List Char} (quote : c ≠ '"') (backslash : c ≠ '\\')
      (later : IsBody rest) : IsBody (c :: rest)
  | escape (c : Char) {rest : List Char} (later : IsBody rest) : IsBody ('\\' :: c :: rest)

/-- The texts of a pattern. -/
inductive HasPattern : Pattern → List Char → Prop where
  | symbol {c : Char} (h : c ∈ ['(', ')', ',', '.', '=']) : HasPattern .symbol [c]
  | keyword {s : List Char} (h : s = "true".toList ∨ s = "false".toList) : HasPattern .keyword s
  | decimal {digits : List Char} (ne_nil : digits ≠ [])
      (digit : ∀ c ∈ digits, c.isDigit = true) : HasPattern .decimal digits
  | hexadecimal {x : Char} {digits : List Char} (mark : x = 'x' ∨ x = 'X') (ne_nil : digits ≠ [])
      (digit : ∀ c ∈ digits, isHexDigit c = true) : HasPattern .hexadecimal ('0' :: x :: digits)
  | real {text whole fraction : List Char} (h : Decimal.IsReal text whole fraction) :
      HasPattern .real text
  | string {body : List Char} (h : IsBody body) : HasPattern .string ('"' :: body ++ ['"'])
  | openString {body : List Char} (h : IsBody body) : HasPattern .openString ('"' :: body)
  | openComment (rest : List Char) : HasPattern .openComment ('/' :: '*' :: rest)
  | identifier {s : List Char} (h : IsName s) : HasPattern .identifier s
  | stray (c : Char) : HasPattern .stray [c]

theorem stringBody_isBody (s : List Char) : IsBody (stringBody s).1 := by
  fun_induction stringBody s with
  | case1 => exact .nil
  | case2 rest => exact .nil
  | case3 => exact .nil
  | case4 c rest body closed after hbody ih =>
    rw [hbody] at ih
    exact .escape c ih
  | case5 c rest hquote hlast hescape body closed after hbody ih =>
    rw [hbody] at ih
    refine .plain hquote ?_ ih
    intro hbackslash
    cases rest with
    | nil => exact hlast hbackslash rfl
    | cons d rest => exact hescape d rest hbackslash rfl

theorem matchString_hasPattern (s : List Char) :
    HasPattern (matchString s).pattern (matchString s).text := by
  have hbody := stringBody_isBody s
  unfold matchString
  generalize stringBody s = result at hbody
  obtain ⟨body, closed, rest⟩ := result
  cases closed with
  | true => exact .string hbody
  | false => exact .openString hbody

theorem digits_takeWhile (s : List Char) : ∀ c ∈ s.takeWhile Char.isDigit, c.isDigit = true :=
  fun _ hc => List.mem_takeWhile_imp hc

theorem matchDigits_hasPattern {digits : List Char} (rest : List Char) (hne : digits ≠ [])
    (hdigits : ∀ c ∈ digits, c.isDigit = true) :
    HasPattern (matchDigits digits rest).pattern (matchDigits digits rest).text := by
  unfold matchDigits
  split
  · rename_i d rest
    split
    · rename_i hd
      refine .real ⟨rfl, hne, List.cons_ne_nil _ _, hdigits, ?_⟩
      exact List.forall_mem_cons.mpr ⟨hd, digits_takeWhile rest⟩
    · exact .decimal hne hdigits
  · exact .decimal hne hdigits

theorem matchNumber_hasPattern {d : Char} (rest : List Char) (hd : d.isDigit = true) :
    HasPattern (matchNumber d rest).pattern (matchNumber d rest).text := by
  have hdecimal := matchDigits_hasPattern (rest.dropWhile Char.isDigit)
    (List.cons_ne_nil d _) (List.forall_mem_cons.mpr ⟨hd, digits_takeWhile rest⟩)
  unfold matchNumber
  split
  · rename_i x h more
    split
    · rename_i hmark
      simp only [Bool.and_eq_true, Bool.or_eq_true, decide_eq_true_eq] at hmark
      obtain ⟨⟨rfl, hx⟩, hh⟩ := hmark
      refine .hexadecimal hx (List.cons_ne_nil _ _) (List.forall_mem_cons.mpr ⟨hh, ?_⟩)
      exact fun _ hc => List.mem_takeWhile_imp hc
    · exact hdecimal
  · exact hdecimal

theorem matchWord_hasPattern {c : Char} (rest : List Char) (hc : startsName c = true) :
    HasPattern (matchWord c rest).pattern (matchWord c rest).text := by
  simp only [matchWord]
  split
  · rename_i hword
    simp only [Bool.or_eq_true, decide_eq_true_eq] at hword
    exact .keyword hword
  · rename_i hword
    simp only [Bool.or_eq_true, decide_eq_true_eq, not_or] at hword
    exact .identifier ⟨.word hc fun _ hd => List.mem_takeWhile_imp hd, hword.1, hword.2⟩

/-- A match has the text of its pattern. -/
theorem longestMatch_hasPattern (c : Char) (rest : List Char) :
    HasPattern (longestMatch c rest).pattern (longestMatch c rest).text := by
  unfold longestMatch
  split
  · rename_i h
    exact .symbol (by simpa [or_assoc] using h)
  split
  · exact matchString_hasPattern rest
  split
  · rename_i h
    simp only [Bool.and_eq_true, decide_eq_true_eq] at h
    obtain ⟨rfl, hstar⟩ := h
    cases rest with
    | nil => cases hstar
    | cons d rest =>
      cases hstar
      exact .openComment rest
  split
  · exact matchNumber_hasPattern rest ‹_›
  split
  · exact matchWord_hasPattern rest ‹_›
  · exact .stray c

/-- A value that a literal can have. -/
def Value.Readable : Value → Prop
  | .bool _ => True
  | .integer n => 0 ≤ n.toInt
  | .real x => ∃ p < Decimal.infinite, x = Float.ofBits p.toUInt64
  | .string _ => True

/-- A token that a text can mean. -/
def Token.Readable : Token → Prop
  | .literal v => Value.Readable v
  | .identifier n => IsName n.toList ∧ Text.byteLength n.toList ≤ maxLexemeLength
  | _ => True

theorem limited_eq_ok {text : List Char} {read : Except LexicalFault Token} {t : Token}
    (h : (if maxLexemeLength < Text.byteLength text then .error .tokenTooLong else read) = .ok t) :
    Text.byteLength text ≤ maxLexemeLength ∧ read = .ok t := by
  split at h
  · cases h
  · exact ⟨by omega, h⟩

theorem readable_ofNat {n : Nat} (h : n < 2 ^ 63) :
    (Token.literal (.integer (Int64.ofNat n))).Readable := by
  have hn := Int64.toInt_ofNat_of_lt h
  show 0 ≤ (Int64.ofNat n).toInt
  omega

theorem readDecimal_readable {digits : List Char} {t : Token} (h : readDecimal digits = .ok t) :
    t.Readable := by
  simp only [readDecimal] at h
  split at h
  · cases h
  split at h
  · rename_i hvalue
    cases h
    have hmax : Int64.maxValue.toInt = 2 ^ 63 - 1 := rfl
    exact readable_ofNat (by omega)
  · cases h

theorem readHexadecimal_readable {digits : List Char} {t : Token}
    (h : readHexadecimal digits = .ok t) : t.Readable := by
  simp only [readHexadecimal] at h
  split at h
  · rename_i hvalue
    cases h
    have hsize : UInt32.size = 2 ^ 32 := rfl
    exact readable_ofNat (by omega)
  · cases h

theorem length_le_byteLength (s : List Char) : s.length ≤ Text.byteLength s := by
  induction s with
  | nil => exact Nat.le_refl _
  | cons c s ih =>
    have hc := c.utf8Size_pos
    rw [List.length_cons, Text.byteLength_cons]
    omega

theorem readReal_of_isReal {text whole fraction : List Char}
    (h : Decimal.IsReal text whole fraction) :
    readReal text = .literal (.real (Decimal.read whole fraction)) := by
  have htake : (whole ++ '.' :: fraction).takeWhile Char.isDigit = whole := by
    rw [List.takeWhile_append_of_pos h.whole_digits, List.takeWhile_cons_of_neg (by decide),
      List.append_nil]
  have hdrop : (whole ++ '.' :: fraction).dropWhile Char.isDigit = '.' :: fraction := by
    rw [List.dropWhile_append_of_pos h.whole_digits, List.dropWhile_cons_of_neg (by decide)]
  simp only [readReal, h.text, htake, hdrop, List.drop_succ_cons, List.drop_zero]

theorem readReal_readable {text whole fraction : List Char}
    (h : Decimal.IsReal text whole fraction) (hfits : Text.byteLength text ≤ maxLexemeLength) :
    (readReal text).Readable := by
  have hlength : (whole ++ fraction).length ≤ 256 := by
    have hle := Nat.le_trans (length_le_byteLength text) hfits
    rw [h.text] at hle
    simp only [maxLexemeLength, List.length_append, List.length_cons] at hle
    rw [List.length_append]
    omega
  rw [readReal_of_isReal h]
  exact Decimal.read_finite h.whole_digits h.fraction_digits hlength

theorem readString_readable {body : List Char} {t : Token} (h : readString body = .ok t) :
    t.Readable := by
  unfold readString at h
  split at h
  · cases h
    trivial
  · cases h

/-- What a text of a pattern is read as can be written down again. -/
theorem read_readable {pattern : Pattern} {text : List Char} {t : Token}
    (hpattern : HasPattern pattern text) (h : pattern.read text = .ok t) : t.Readable := by
  cases hpattern with
  | symbol hsymbol =>
    cases h
    unfold readSymbol
    split <;> trivial
  | keyword hkeyword =>
    cases h
    trivial
  | decimal =>
    obtain ⟨-, h⟩ := limited_eq_ok h
    exact readDecimal_readable h
  | hexadecimal =>
    obtain ⟨-, h⟩ := limited_eq_ok h
    exact readHexadecimal_readable h
  | real hreal =>
    obtain ⟨hfits, h⟩ := limited_eq_ok h
    cases h
    exact readReal_readable hreal hfits
  | string hbody =>
    obtain ⟨-, h⟩ := limited_eq_ok h
    exact readString_readable h
  | identifier hname =>
    obtain ⟨hfits, h⟩ := limited_eq_ok h
    cases h
    exact ⟨by rwa [String.toList_ofList], by rwa [String.toList_ofList]⟩
  | openString => cases h
  | openComment => cases h
  | stray => cases h

theorem readLexeme_readable {lines : LineIndex} {offset : Nat} {c : Char} {rest : List Char}
    {l : Lexeme} (h : readLexeme lines offset (longestMatch c rest) = .ok l) :
    l.token.Readable := by
  simp only [readLexeme] at h
  split at h
  · rename_i t ht
    cases h
    exact read_readable (longestMatch_hasPattern c rest) ht
  · cases h

theorem lexFrom_readable (lines : LineIndex) (place : Place) :
    ∀ l ∈ (lexFrom lines place).lexemes, l.token.Readable := by
  fun_induction lexFrom lines place with
  | case1 => simp
  | case2 => simp
  | case3 place l next hnext later ih =>
    refine List.forall_mem_cons.mpr ⟨?_, ih⟩
    unfold nextLexeme at hnext
    split at hnext
    · cases hnext
    · rename_i offset c rest _
      simp only at hnext
      split at hnext
      · cases hnext
      · rename_i hread
        cases hnext
        exact readLexeme_readable hread

/-- The tokens of a source can be written down again. -/
theorem lex_readable {source : String} {ls : List Lexeme} (h : lex source = .ok ls) :
    ∀ l ∈ ls, l.token.Readable := by
  simp only [lex] at h
  split at h
  · cases h
    exact lexFrom_readable _ _
  · cases h

end FrameGraph.Script
