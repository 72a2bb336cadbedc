import FrameGraph.Proofs.Script.Literals
import Mathlib.Data.Nat.Digits.Defs

/-!
# Numerals

Every text of decimal digits, and every one of hexadecimal digits behind its mark, is one lexeme or
one error. An integer has the value of its digits by their positions, however many zeros lead them,
and what is beyond the limit of its notation is an error and never another integer.
-/
namespace FrameGraph.Script

open Text

def decimalDigits : List Char := ['0', '1', '2', '3', '4', '5', '6', '7', '8', '9']

/-- A letter is a digit in either case. -/
def hexDigits : List Char :=
  decimalDigits ++ ['a', 'b', 'c', 'd', 'e', 'f', 'A', 'B', 'C', 'D', 'E', 'F']

/-- What a digit is worth at the last position. -/
def digitOf (c : Char) : Nat := hexDigits.idxOf c.toLower

/-- The number that digits stand for by their positions. -/
def positional (base : Nat) (digits : List Char) : Nat :=
  Nat.ofDigits base (digits.map digitOf).reverse

theorem positional_concat (base : Nat) (digits : List Char) (d : Char) :
    positional base (digits ++ [d]) = positional base digits * base + digitOf d := by
  rw [positional, List.map_append, List.map_singleton, List.reverse_append, List.reverse_singleton,
    List.singleton_append, Nat.ofDigits_cons, positional, Nat.mul_comm, Nat.add_comm]

theorem mem_decimalDigits {c : Char} : c ∈ decimalDigits ↔ c.isDigit = true := by
  constructor
  · revert c
    simp [decimalDigits]
  · intro h
    obtain ⟨hlow, hhigh⟩ := Decimal.isDigit_range h
    rw [← Char.ofNat_toNat c]
    interval_cases c.toNat <;> simp [decimalDigits]

/-- Reading digits one after the other, each time moving up what is there, gives their number. -/
theorem foldl_eq_positional {base : Nat} {digits : List Char} {f : Char → Nat}
    (h : ∀ d ∈ digits, f d = digitOf d) :
    digits.foldl (fun value d => value * base + f d) 0 = positional base digits := by
  induction digits using List.reverseRecOn with
  | nil => rfl
  | append_singleton digits d ih =>
    rw [List.foldl_append, List.foldl_cons, List.foldl_nil, positional_concat, h d (by simp),
      ih fun e he => h e (List.mem_append_left _ he)]

theorem digitsValue_eq_positional {digits : List Char} (h : digits ⊆ decimalDigits) :
    Decimal.digitsValue digits = positional 10 digits := by
  have hdigit : ∀ d ∈ decimalDigits, d.toNat - '0'.toNat = digitOf d := by
    simp [digitOf, hexDigits, decimalDigits]
  exact foldl_eq_positional fun d hd => hdigit d (h hd)

theorem hexValue_eq_positional {digits : List Char} (h : digits ⊆ hexDigits) :
    hexValue digits = positional 16 digits := by
  have hdigit : ∀ d ∈ hexDigits,
      (if d.isDigit then d.toNat - '0'.toNat
        else if d.toNat < 'a'.toNat then d.toNat - 'A'.toNat + 10
        else d.toNat - 'a'.toNat + 10) = digitOf d := by
    simp [digitOf, hexDigits, decimalDigits]
  exact foldl_eq_positional fun d hd => hdigit d (h hd)

/-! ## Whole texts -/

theorem lexing_decimal {source : String} (hne : source ≠ "")
    (hdigits : source.toList ⊆ decimalDigits) :
    lexing source = .sole source.toList (Pattern.decimal.read source.toList) := by
  obtain ⟨d, digits, hsource⟩ :=
    List.exists_cons_of_ne_nil fun h => hne (String.toList_eq_nil_iff.mp h)
  have hall : ∀ c ∈ d :: digits, c.isDigit = true :=
    fun c hc => mem_decimalDigits.mp (hdigits (hsource ▸ hc))
  obtain ⟨hd, hlater⟩ := List.forall_mem_cons.mp hall
  have hmatch : matchNumber d (digits ++ []) = matchDigits (d :: digits) [] :=
    matchNumber_digits hlater (by simp)
  rw [List.append_nil, matchDigits_of_head (by simp)] at hmatch
  refine lexing_sole (fun offset => ?_) ⟨d, digits, hsource, ?_⟩
  · rw [hsource, skip_of_isDigit hd]
  · rw [longestMatch_of_isDigit hd, hmatch, hsource]

theorem lexing_hexadecimal {source : String} {x : Char} {digits : List Char}
    (hsource : source.toList = '0' :: x :: digits) (hmark : x = 'x' ∨ x = 'X') (hne : digits ≠ [])
    (hdigits : digits ⊆ hexDigits) :
    lexing source = .sole source.toList (Pattern.hexadecimal.read source.toList) := by
  have hdigit : ∀ c ∈ hexDigits, isHexDigit c = true := by
    simp [hexDigits, decimalDigits, isHexDigit]
  obtain ⟨h, digits, rfl⟩ := List.exists_cons_of_ne_nil hne
  have hall : ∀ c ∈ h :: digits, isHexDigit c = true := fun c hc => hdigit c (hdigits hc)
  obtain ⟨hh, hlater⟩ := List.forall_mem_cons.mp hall
  have htake : digits.takeWhile isHexDigit = digits := List.takeWhile_eq_self_iff.mpr hlater
  have hdrop : digits.dropWhile isHexDigit = [] := List.dropWhile_eq_nil_iff.mpr hlater
  refine lexing_sole (fun offset => ?_) ⟨'0', x :: h :: digits, hsource, ?_⟩
  · rw [hsource, skip_of_isDigit rfl]
  · rw [longestMatch_of_isDigit rfl, matchNumber_hexadecimal hmark hh, htake, hdrop, hsource]

/-! ## Printed integers -/

theorem byteLength_of_isDigit {s : List Char} (h : ∀ c ∈ s, c.isDigit = true) :
    byteLength s = s.length := by
  induction s with
  | nil => rfl
  | cons c s ih =>
    obtain ⟨hc, hs⟩ := List.forall_mem_cons.mp h
    have hrange := Decimal.isDigit_range hc
    have hsize : c.utf8Size = 1 := Char.utf8Size_eq_one_iff.mpr (UInt32.le_iff_toNat_le.mpr (by
      show c.toNat ≤ 127
      omega))
    rw [byteLength_cons, hsize, ih hs, List.length_cons, Nat.add_comm]

/-- A printed integer has nineteen digits at most. -/
theorem byteLength_integerText {n : Int64} (h : 0 ≤ n.toInt) :
    byteLength (literalText (.integer n)).toList ≤ 19 := by
  have hmax := n.toInt_lt
  rw [integerText h, byteLength_of_isDigit (Decimal.isDigit_toDigits _),
    Nat.length_toDigits_le_iff (by decide) (by decide)]
  omega

theorem lexing_integerText {n : Int64} (h : 0 ≤ n.toInt) :
    lexing (literalText (.integer n)) =
      .sole (literalText (.integer n)).toList (.ok (.literal (.integer n))) :=
  lexing_of_reads (reads_integer h (by simp)) ((byteLength_integerText h).trans (by decide))

/-! ## Values -/

theorem toInt_ofNat {n : Nat} (h : (n : Int) ≤ Int64.maxValue.toInt) :
    (Int64.ofNat n).toInt = n := by
  have hmax : Int64.maxValue.toInt = 2 ^ 63 - 1 := rfl
  exact Int64.toInt_ofNat_of_lt (by omega)

/-- A zero leads a number if it is not the whole number. -/
theorem leads_iff (source : String) :
    1 < source.toList.length ∧ source.toList.head? = some '0' ↔
      source ≠ "0" ∧ source.toList.head? = some '0' := by
  refine and_congr_left fun hzero => ?_
  rw [Ne, ← String.toList_inj]
  generalize source.toList = digits at hzero
  cases digits with
  | nil => cases hzero
  | cons d digits =>
    cases hzero
    simp [List.length_pos_iff]

/-- A text of decimal digits is one integer or one error, and so is one of hexadecimal digits behind
its mark; of several errors the first one is told. An integer has the value of its digits. Every
integer in a source is non-negative, and it reads as itself when it is printed. -/
theorem lexing_numeral :
    (∀ source : String, source ≠ "" → source.toList ⊆ decimalDigits →
      if maxLexemeLength < source.utf8ByteSize then
        lexing source = .sole source.toList (.error .tokenTooLong)
      else if source ≠ "0" ∧ source.toList.head? = some '0' then
        lexing source = .sole source.toList (.error .malformedNumber)
      else if Int64.maxValue.toInt < positional 10 source.toList then
        lexing source = .sole source.toList (.error .integerOverflow)
      else ∃ n : Int64, n.toInt = positional 10 source.toList ∧
        lexing source = .sole source.toList (.ok (.literal (.integer n)))) ∧
    (∀ (source : String) (x : Char) (digits : List Char), source.toList = '0' :: x :: digits →
      (x = 'x' ∨ x = 'X') → digits ≠ [] → digits ⊆ hexDigits →
      if maxLexemeLength < source.utf8ByteSize then
        lexing source = .sole source.toList (.error .tokenTooLong)
      else if 2 ^ 32 ≤ positional 16 digits then
        lexing source = .sole source.toList (.error .hexOverflow)
      else ∃ n : Int64, n.toInt = positional 16 digits ∧
        lexing source = .sole source.toList (.ok (.literal (.integer n)))) ∧
    ∀ (source : String), ∀ l ∈ (lexing source).lexemes, ∀ n, l.token = .literal (.integer n) →
      0 ≤ n.toInt ∧ n.toInt ≤ Int64.maxValue.toInt ∧
        (literalText (.integer n)).toList ⊆ decimalDigits ∧
        positional 10 (literalText (.integer n)).toList = n.toInt ∧
        lexing (literalText (.integer n)) =
          .sole (literalText (.integer n)).toList (.ok (.literal (.integer n))) := by
  refine ⟨fun source hne hdigits => ?_, fun source x digits hsource hmark hne hdigits => ?_,
    fun source l hl n hn => ?_⟩
  · rw [lexing_decimal hne hdigits]
    simp only [Pattern.read, byteLength_toList, readDecimal, digitsValue_eq_positional hdigits,
      Bool.and_eq_true, decide_eq_true_eq, leads_iff]
    split
    · rfl
    split
    · rfl
    split
    · rw [if_neg (by omega)]
    · rw [if_pos (by omega)]
      exact ⟨_, toInt_ofNat (by omega), rfl⟩
  · rw [lexing_hexadecimal hsource hmark hne hdigits]
    have hdrop : source.toList.drop 2 = digits := by rw [hsource]; rfl
    simp only [Pattern.read, byteLength_toList, readHexadecimal, hdrop,
      hexValue_eq_positional hdigits]
    have hsize : UInt32.size = 2 ^ 32 := rfl
    have hmax : Int64.maxValue.toInt = 2 ^ 63 - 1 := rfl
    split
    · rfl
    split
    · rw [if_neg (by omega)]
    · rw [if_pos (by omega)]
      exact ⟨_, toInt_ofNat (by omega), rfl⟩
  · have hpositive : 0 ≤ n.toInt := by
      have hreadable := lexFrom_readable _ _ l hl
      rwa [hn] at hreadable
    have hdigits : (literalText (.integer n)).toList ⊆ decimalDigits := by
      rw [integerText hpositive]
      exact fun c hc => mem_decimalDigits.mpr (Decimal.isDigit_toDigits _ c hc)
    have hvalue : positional 10 (literalText (.integer n)).toList = n.toInt := by
      rw [← digitsValue_eq_positional hdigits, integerText hpositive, Decimal.digitsValue_toDigits,
        Int.toNat_of_nonneg hpositive]
    exact ⟨hpositive, n.toInt_le, hdigits, hvalue, lexing_integerText hpositive⟩

/-- The largest integer and the next one, and the largest hexadecimal behind leading zeros. -/
theorem lexing_numeral_limits :
    lexing "9223372036854775807" =
      .sole "9223372036854775807".toList (.ok (.literal (.integer Int64.maxValue))) ∧
    lexing "9223372036854775808" = .sole "9223372036854775808".toList (.error .integerOverflow) ∧
    lexing "0X0000000000fFfFfFfF" =
      .sole "0X0000000000fFfFfFfF".toList (.ok (.literal (.integer 4294967295))) ∧
    ∃ l ∈ (lexing "a = b(x=0x1F)").lexemes, l.token = .literal (.integer 31) ∧
      lexing "31" = .sole "31".toList (.ok (.literal (.integer 31))) := by
  obtain ⟨hdecimal, hhexadecimal, hinteger⟩ := lexing_numeral
  refine ⟨?_, ?_, ?_, ?_⟩
  · have hlexing := hdecimal "9223372036854775807" (by decide) (by decide +kernel)
    rw [if_neg (by decide +kernel), if_neg (by decide +kernel), if_neg (by decide +kernel)]
      at hlexing
    obtain ⟨n, hn, hlexing⟩ := hlexing
    obtain rfl : n = Int64.maxValue := Int64.toInt_inj.mp (hn.trans (by decide +kernel))
    exact hlexing
  · have hlexing := hdecimal "9223372036854775808" (by decide) (by decide +kernel)
    rwa [if_neg (by decide +kernel), if_neg (by decide +kernel), if_pos (by decide +kernel)]
      at hlexing
  · have hlexing := hhexadecimal "0X0000000000fFfFfFfF" 'X' "0000000000fFfFfFfF".toList rfl
      (.inr rfl) (by decide) (by decide +kernel)
    rw [if_neg (by decide +kernel), if_neg (by decide +kernel)] at hlexing
    obtain ⟨n, hn, hlexing⟩ := hlexing
    obtain rfl : n = 4294967295 := Int64.toInt_inj.mp (hn.trans (by decide +kernel))
    exact hlexing
  · have hmem : ⟨.literal (.integer 31), ⟨8, 12⟩, 1⟩ ∈ (lexing "a = b(x=0x1F)").lexemes := by
      decide +kernel
    obtain ⟨-, -, -, -, hlexing⟩ := hinteger _ _ hmem 31 rfl
    exact ⟨_, hmem, rfl, hlexing⟩

end FrameGraph.Script
