import FrameGraph.Proofs.Decimal.Bits
import FrameGraph.Script.Literal
import Mathlib.Data.List.Induction

/-!
# Reading written reals

The digits that are written for a double lie in the interval of the numbers that read as it, and
the places of the point and of the filling zeros keep their value. So the text of a real reads back
as the same double, bit by bit.
-/
namespace FrameGraph.Decimal

theorem unitPlaces_succ : unitPlaces + 1 = 1075 := rfl

-- Powers with this exponent are never to be computed.
attribute [local irreducible] unitPlaces

/-- The numbers of an interval, in units of 10⁻¹⁰⁷⁵. -/
theorem contains_iff (i : Interval) (n : Nat) :
    i.contains n = true ↔
      if i.closed then i.low ≤ n ∧ n ≤ i.high else i.low < n ∧ n < i.high := by
  unfold Interval.contains
  split <;> simp

/-- How many units of 10⁻¹⁰⁷⁵ half a unit of 2⁻¹⁰⁷⁴ is. -/
def half : Nat := Nat.pow 5 (unitPlaces + 1)

theorem half_pos : 0 < half := Nat.pow_pos (by decide)

theorem ten_pow_eq : 10 ^ (unitPlaces + 1) = 2 * one * half := by
  have hone : one = 2 ^ unitPlaces := rfl
  have hhalf : half = 5 ^ (unitPlaces + 1) := rfl
  rw [hone, hhalf, show (10 : Nat) = 2 * 5 from rfl, Nat.mul_pow, Nat.pow_succ 2]
  ring

theorem ofPattern_contains_iff (p n : Nat) :
    (Interval.ofPattern p).contains n = true ↔
      if p % 2 = 0 then (units (p - 1) + units p) * half ≤ n ∧ n ≤ (units p + units (p + 1)) * half
      else (units (p - 1) + units p) * half < n ∧ n < (units p + units (p + 1)) * half := by
  rw [contains_iff]
  simp only [Interval.ofPattern, half, decide_eq_true_eq]

theorem contains_value {p : Nat} (hp : 0 < p) :
    (Interval.ofPattern p).contains (Interval.ofPattern p).value = true := by
  obtain ⟨q, rfl⟩ := Nat.exists_eq_succ_of_ne_zero hp.ne'
  have hbelow := units_lt_succ q
  have habove := units_lt_succ (q + 1)
  have hvalue : (Interval.ofPattern (q + 1)).value = 2 * units (q + 1) * half := rfl
  have hlow : (units (q + 1 - 1) + units (q + 1)) * half < 2 * units (q + 1) * half :=
    Nat.mul_lt_mul_of_pos_right (by simp only [Nat.add_sub_cancel]; omega) half_pos
  have hhigh : 2 * units (q + 1) * half < (units (q + 1) + units (q + 1 + 1)) * half :=
    Nat.mul_lt_mul_of_pos_right (by omega) half_pos
  rw [ofPattern_contains_iff, hvalue]
  split
  · exact ⟨hlow.le, hhigh.le⟩
  · exact ⟨hlow, hhigh⟩

theorem multiple?_contains {i : Interval} {tie : Tie} {scale n : Nat}
    (h : i.multiple? tie scale = some n) : i.contains (n * scale) = true := by
  simp only [Interval.multiple?] at h
  split_ifs at h with hbelow hboth habove
  · obtain rfl := Option.some.inj h
    simp only [Bool.and_eq_true] at hboth
    exact hboth.1
  · obtain rfl := Option.some.inj h
    exact hbelow
  · obtain rfl := Option.some.inj h
    exact habove

theorem coarsest_contains {i : Interval} (tie : Tie) (h : i.contains i.value = true)
    (power : Nat) :
    ∃ k : Nat, (i.coarsest tie power).exponent = (k : Int) - 1075 ∧
      i.contains ((i.coarsest tie power).coefficient * 10 ^ k) = true := by
  induction power with
  | zero => exact ⟨0, by simp [Interval.coarsest], by simpa [Interval.coarsest] using h⟩
  | succ power ih =>
    simp only [Interval.coarsest]
    split
    · rename_i n hn
      exact ⟨power + 1, by simp, multiple?_contains hn⟩
    · exact ih

/-- The shortest decimal is one of those that read as the double. -/
theorem shortest_contains (tie : Tie) {p : Nat} (hp : 0 < p) :
    ∃ k : Nat, (shortest tie p).exponent = (k : Int) - 1075 ∧
      (Interval.ofPattern p).contains ((shortest tie p).coefficient * 10 ^ k) = true :=
  coarsest_contains tie (contains_value hp) _

/-- A number, written with a denominator, lies between the midpoints just if it is in the
interval. -/
theorem rounds_iff_contains {p n num den : Nat} (hden : 0 < den)
    (hvalue : num * 10 ^ (unitPlaces + 1) = n * den) :
    Rounds (num * one) den p ↔ (Interval.ofPattern p).contains n = true := by
  have hscale : 2 * (num * one) * half = n * den := by
    rw [← hvalue, ten_pow_eq]
    ring
  have hswap (a : Nat) : a * den * half = a * half * den := by ring
  have hle (a : Nat) : a * den ≤ 2 * (num * one) ↔ a * half ≤ n := by
    rw [← Nat.mul_le_mul_right_iff half_pos, hscale, hswap, Nat.mul_le_mul_right_iff hden]
  have hge (a : Nat) : 2 * (num * one) ≤ a * den ↔ n ≤ a * half := by
    rw [← Nat.mul_le_mul_right_iff half_pos, hscale, hswap, Nat.mul_le_mul_right_iff hden]
  rw [ofPattern_contains_iff]
  unfold Rounds
  split
  · exact and_congr (hle _) (hge _)
  · exact and_congr (lt_iff_lt_of_le_iff_le (hge _)) (lt_iff_lt_of_le_iff_le (hle _))

theorem digitsValue_eq (digits : List Char) :
    digitsValue digits = Nat.ofDigitChars 10 digits 0 := by
  rw [Nat.ofDigitChars_eq_foldl, digitsValue]
  congr 1
  funext value d
  rw [Nat.mul_comm]

theorem digitsValue_replicate_append (k : Nat) (digits : List Char) :
    digitsValue (List.replicate k '0' ++ digits) = digitsValue digits := by
  rw [digitsValue_eq, digitsValue_eq, Nat.ofDigitChars_append, Nat.ofDigitChars_replicate_zero,
    Nat.mul_zero]

theorem digitsValue_append_replicate (digits : List Char) (k : Nat) :
    digitsValue (digits ++ List.replicate k '0') = digitsValue digits * 10 ^ k := by
  rw [digitsValue_eq, digitsValue_eq, Nat.ofDigitChars_append, Nat.ofDigitChars_replicate_zero,
    Nat.mul_comm]

theorem digitsValue_toDigits (n : Nat) : digitsValue (Nat.toDigits 10 n) = n := by
  rw [digitsValue_eq, Nat.ofDigitChars_ten_toDigits]

theorem isDigit_toDigits (n : Nat) : ∀ c ∈ Nat.toDigits 10 n, c.isDigit = true :=
  fun _ hc => Nat.isDigit_of_mem_toDigits (by decide) (by decide) hc

/-- A text is that of a real: digits around a point. -/
structure IsReal (text whole fraction : List Char) : Prop where
  text : text = whole ++ '.' :: fraction
  whole_ne_nil : whole ≠ []
  fraction_ne_nil : fraction ≠ []
  whole_digits : ∀ c ∈ whole, c.isDigit = true
  fraction_digits : ∀ c ∈ fraction, c.isDigit = true

/-- The text of a real, with a fraction if it has none. -/
def withFraction (text : List Char) : List Char :=
  if '.' ∈ text then text else text ++ ['.', '0']

theorem withFraction_of_digits {whole : List Char} (h : ∀ c ∈ whole, c.isDigit = true) :
    withFraction whole = whole ++ ['.', '0'] := by
  unfold withFraction
  rw [if_neg]
  intro hpoint
  exact absurd (h '.' hpoint) (by decide)

/-- The point is at or before the first digit. -/
theorem inPlace_before (digits : List Char) {point : Int} (h : point ≤ 0) :
    withFraction (inPlace digits point false) =
      ['0'] ++ '.' :: (List.replicate (-point).toNat '0' ++ digits) := by
  simp [inPlace, h, withFraction]

/-- The point is among the digits. -/
theorem inPlace_among {digits : List Char} {point : Int} (hpos : 0 < point)
    (h : point.toNat < digits.length) :
    withFraction (inPlace digits point false) =
      digits.take point.toNat ++ '.' :: digits.drop point.toNat := by
  have hfilling : point.toNat - digits.length = 0 := by omega
  obtain ⟨d, fraction, hfraction⟩ :=
    List.exists_cons_of_ne_nil (List.drop_eq_nil_iff.not.mpr (Nat.not_le_of_lt h))
  have hplace : inPlace digits point false =
      digits.take point.toNat ++ '.' :: digits.drop point.toNat := by
    simp [inPlace, Int.not_le.mpr hpos, hfilling, hfraction]
  rw [hplace, withFraction, if_pos (by simp)]

theorem isDigit_replicate (n : Nat) : ∀ c ∈ List.replicate n '0', c.isDigit = true := by
  intro c hc
  rw [List.eq_of_mem_replicate hc]
  decide

/-- The point is behind the last digit, so there is no fraction yet. -/
theorem inPlace_behind {digits : List Char} {point : Int}
    (hdigits : ∀ c ∈ digits, c.isDigit = true) (hpos : 0 < point)
    (h : digits.length ≤ point.toNat) :
    withFraction (inPlace digits point false) =
      digits ++ List.replicate (point.toNat - digits.length) '0' ++ '.' :: ['0'] := by
  have hplace : inPlace digits point false =
      digits ++ List.replicate (point.toNat - digits.length) '0' := by
    simp [inPlace, Int.not_le.mpr hpos, List.drop_eq_nil_of_le h, List.take_of_length_le h]
  rw [hplace, withFraction_of_digits (List.forall_mem_append.mpr ⟨hdigits, isDigit_replicate _⟩)]

/-- Digits in place keep their value: `n` times a power of ten, above and below the point. -/
theorem inPlace_isReal {digits : List Char} {k : Nat} {point : Int} (hne : digits ≠ [])
    (hdigits : ∀ c ∈ digits, c.isDigit = true)
    (hpoint : point = digits.length + ((k : Int) - 1075)) :
    ∃ whole fraction, IsReal (withFraction (inPlace digits point false)) whole fraction ∧
      digitsValue (whole ++ fraction) * 10 ^ (unitPlaces + 1) =
        digitsValue digits * 10 ^ k * 10 ^ fraction.length := by
  have hplaces := unitPlaces_succ
  by_cases hle : point ≤ 0
  · refine ⟨_, _, ⟨inPlace_before digits hle, by simp, by simp [hne], by simp,
      List.forall_mem_append.mpr ⟨isDigit_replicate _, hdigits⟩⟩, ?_⟩
    have hvalue : digitsValue (['0'] ++ (List.replicate (-point).toNat '0' ++ digits)) =
        digitsValue digits := by
      rw [← digitsValue_replicate_append ((-point).toNat + 1) digits, List.replicate_succ]
      rfl
    have hlength : unitPlaces + 1 =
        k + (List.replicate (-point).toNat '0' ++ digits).length := by
      rw [List.length_append, List.length_replicate]
      omega
    rw [hvalue, hlength, Nat.pow_add, Nat.mul_assoc]
  · have hpos : 0 < point := Int.not_le.mp hle
    by_cases hend : digits.length ≤ point.toNat
    · refine ⟨_, _, ⟨inPlace_behind hdigits hpos hend, by simp [hne], by simp,
        List.forall_mem_append.mpr ⟨hdigits, isDigit_replicate _⟩, by simp⟩, ?_⟩
      obtain ⟨j, hj⟩ : ∃ j, k = unitPlaces + 1 + j := ⟨k - (unitPlaces + 1), by omega⟩
      have hmore : point.toNat - digits.length = j := by omega
      have hvalue : digitsValue (digits ++ List.replicate j '0' ++ ['0']) =
          digitsValue digits * 10 ^ (j + 1) := by
        rw [← digitsValue_append_replicate, List.replicate_succ', List.append_assoc]
      rw [hmore, hvalue, hj, Nat.pow_add, Nat.pow_add]
      simp only [List.length_singleton]
      ring
    · refine ⟨_, _, ⟨inPlace_among hpos (by omega), ?_, ?_,
        fun c hc => hdigits c (List.mem_of_mem_take hc),
        fun c hc => hdigits c (List.mem_of_mem_drop hc)⟩, ?_⟩
      · rw [Ne, List.take_eq_nil_iff]
        simp only [hne, or_false]
        omega
      · exact List.drop_eq_nil_iff.not.mpr hend
      · have hlength : unitPlaces + 1 = k + (digits.drop point.toNat).length := by
          rw [List.length_drop]
          omega
        rw [List.take_append_drop, hlength, Nat.pow_add, Nat.mul_assoc]

theorem plain_real {p : Nat} (hp : p < infinite) :
    plain.real (Float.ofBits p.toUInt64) = String.ofList (plain.magnitude p) := by
  have hnumber : ¬infinite < p := by omega
  have hfinite : p ≠ infinite := by omega
  simp only [Layout.real, pattern_ofBits hp, isNegative_ofBits hp, if_neg hnumber, if_neg hfinite,
    Bool.false_eq_true, if_false, List.nil_append]

theorem realText_toList {p : Nat} (hp : p < infinite) :
    (Script.realText (Float.ofBits p.toUInt64)).toList = withFraction (plain.magnitude p) := by
  simp only [Script.realText, plain_real hp, String.contains_char_eq, String.toList_ofList,
    decide_eq_true_eq, withFraction]
  split
  · rw [String.toList_ofList]
  · rw [String.toList_append, String.toList_ofList]
    rfl

theorem plain_magnitude {p : Nat} (hp : 0 < p) : plain.magnitude p =
    inPlace (Nat.toDigits 10 (shortest .upper p).coefficient)
      ((Nat.toDigits 10 (shortest .upper p).coefficient).length + (shortest .upper p).exponent)
      false := by
  simp [Layout.magnitude, Layout.decimal, plain, hp.ne']

theorem read_of_rounds {whole fraction : List Char} {p : Nat} (hp : p < infinite)
    (h : Rounds (digitsValue (whole ++ fraction) * one) (10 ^ fraction.length) p) :
    Decimal.read whole fraction = Float.ofBits p.toUInt64 := by
  have hden : 0 < 10 ^ fraction.length := Nat.pow_pos (by decide)
  rw [Decimal.read, ofRatio, Nat.pow_eq, nearest_of_rounds hden hp h]

/-- The text of a finite double without a sign has a point among digits, and reads as the double. -/
theorem realText_reads {p : Nat} (hp : p < infinite) :
    ∃ whole fraction,
      IsReal (Script.realText (Float.ofBits p.toUInt64)).toList whole fraction ∧
        Decimal.read whole fraction = Float.ofBits p.toUInt64 := by
  rw [realText_toList hp]
  by_cases hzero : p = 0
  · subst hzero
    refine ⟨['0'], ['0'], ⟨rfl, by simp, by simp, by simp, by simp⟩, read_of_rounds hp ?_⟩
    have hvalue : digitsValue (['0'] ++ ['0']) = 0 := rfl
    rw [hvalue]
    simp [Rounds, units_zero]
  · have hpos : 0 < p := Nat.pos_of_ne_zero hzero
    obtain ⟨k, hexponent, hcontains⟩ := shortest_contains .upper hpos
    rw [plain_magnitude hpos, hexponent]
    obtain ⟨whole, fraction, hreal, hvalue⟩ :=
      inPlace_isReal (k := k) Nat.toDigits_ne_nil (isDigit_toDigits _) rfl
    rw [digitsValue_toDigits] at hvalue
    have hden : 0 < 10 ^ fraction.length := Nat.pow_pos (by decide)
    exact ⟨whole, fraction, hreal,
      read_of_rounds hp ((rounds_iff_contains hden hvalue).mpr hcontains)⟩

theorem isDigit_range {c : Char} (h : c.isDigit = true) : 48 ≤ c.toNat ∧ c.toNat ≤ 57 := by
  simp only [Char.isDigit, Bool.and_eq_true, decide_eq_true_eq, UInt32.le_iff_toNat_le] at h
  exact h

theorem digitsValue_lt {digits : List Char} (h : ∀ c ∈ digits, c.isDigit = true) :
    digitsValue digits < 10 ^ digits.length := by
  induction digits using List.reverseRecOn with
  | nil => decide
  | append_singleton digits d ih =>
    have hfirst := ih fun c hc => h c (List.mem_append_left _ hc)
    have hd : d.toNat - '0'.toNat < 10 := by
      have hrange := isDigit_range (h d (by simp))
      have hzero : '0'.toNat = 48 := rfl
      omega
    have hlast : digitsValue (digits ++ [d]) = digitsValue digits * 10 + (d.toNat - '0'.toNat) := by
      simp [digitsValue]
    rw [hlast, List.length_append, List.length_singleton, Nat.pow_succ]
    omega

/-- What a lexeme can hold is below infinity. -/
theorem largest_lt : 10 ^ 256 * one < units (infinite - 1) := by
  decide +kernel

/-- So many digits are nearest to a finite double. -/
theorem nearest_finite {whole fraction : List Char} (hwhole : ∀ c ∈ whole, c.isDigit = true)
    (hfraction : ∀ c ∈ fraction, c.isDigit = true) (hlength : (whole ++ fraction).length ≤ 256) :
    nearest (digitsValue (whole ++ fraction) * one) (10 ^ fraction.length) < infinite := by
  apply nearest_lt_infinite
  have hbound : digitsValue (whole ++ fraction) < 10 ^ 256 :=
    (digitsValue_lt (List.forall_mem_append.mpr ⟨hwhole, hfraction⟩)).trans_le
      (Nat.pow_le_pow_right (by decide) hlength)
  have hden : 0 < 10 ^ fraction.length := Nat.pow_pos (by decide)
  calc digitsValue (whole ++ fraction) * one ≤ 10 ^ 256 * one := Nat.mul_le_mul_right _ hbound.le
    _ < units (infinite - 1) := largest_lt
    _ ≤ units (infinite - 1) * 10 ^ fraction.length := Nat.le_mul_of_pos_right _ hden

/-- So many digits read as a finite double without a sign. -/
theorem read_finite {whole fraction : List Char} (hwhole : ∀ c ∈ whole, c.isDigit = true)
    (hfraction : ∀ c ∈ fraction, c.isDigit = true) (hlength : (whole ++ fraction).length ≤ 256) :
    ∃ p < infinite, Decimal.read whole fraction = Float.ofBits p.toUInt64 :=
  ⟨_, nearest_finite hwhole hfraction hlength, rfl⟩

end FrameGraph.Decimal
