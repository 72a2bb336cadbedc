import FrameGraph.Proofs.Decimal.Reading

/-!
# Shortness

The decimal that is printed for a double is on the coarsest grid that has a point among the numbers
that read as the double. So it has no more digits behind the point than any of these numbers. If it
has more digits before the point, a power of ten lies between, and then it is that power.
-/
namespace FrameGraph.Decimal

-- Powers with this exponent are never to be computed.
attribute [local irreducible] unitPlaces

/-! ## Grids -/

/-- An interval has no gaps. -/
theorem contains_of_between {i : Interval} {a b n : Nat} (ha : i.contains a = true)
    (hb : i.contains b = true) (hfrom : a ≤ n) (hupto : n ≤ b) : i.contains n = true := by
  rw [contains_iff] at ha hb ⊢
  by_cases hclosed : i.closed = true
  · rw [if_pos hclosed] at ha hb ⊢
    exact ⟨ha.1.trans hfrom, hupto.trans hb.2⟩
  · rw [if_neg hclosed] at ha hb ⊢
    exact ⟨ha.1.trans_le hfrom, hupto.trans_lt hb.2⟩

/-- If the interval has a multiple of the scale at all, it has one beside its value. -/
theorem multiple?_isSome {i : Interval} (tie : Tie) {scale n : Nat} (hscale : 0 < scale)
    (hvalue : i.contains i.value = true) (hn : i.contains (n * scale) = true) :
    (i.multiple? tie scale).isSome = true := by
  have hbelow : i.value / scale * scale ≤ i.value := Nat.div_mul_le_self _ _
  have habove : i.value ≤ (i.value / scale + 1) * scale := by
    have := Nat.lt_mul_div_succ i.value hscale
    rw [Nat.mul_comm] at this
    exact this.le
  simp only [Interval.multiple?]
  split_ifs with hdown hup hup
  · rfl
  · rfl
  · rfl
  · rcases Nat.lt_or_ge (i.value / scale) n with hlt | hge
    · exact absurd (contains_of_between hvalue hn habove (Nat.mul_le_mul_right _ hlt)) hup
    · exact absurd (contains_of_between hn hvalue (Nat.mul_le_mul_right _ hge) hbelow) hdown

/-- No grid that was tried and has a point in the interval is coarser than the one that is taken. -/
theorem le_coarsest {i : Interval} (tie : Tie) {k n power : Nat}
    (hvalue : i.contains i.value = true) (hn : i.contains (n * 10 ^ k) = true) (hk : k ≤ power) :
    (k : Int) - 1075 ≤ (i.coarsest tie power).exponent := by
  induction power with
  | zero =>
    obtain rfl : k = 0 := by omega
    simp [Interval.coarsest]
  | succ power ih =>
    simp only [Interval.coarsest]
    split
    · simp only
      omega
    · rename_i hnone
      refine ih ?_
      by_contra hlast
      obtain rfl : k = power + 1 := by omega
      have hsome := multiple?_isSome tie (Nat.pow_pos (by decide)) hvalue hn
      rw [← Nat.pow_eq, hnone] at hsome
      cases hsome

/-! ## Sizes -/

theorem lt_pow_digitCount (n : Nat) : n < 10 ^ digitCount n := by
  have hlt := digitsValue_lt (isDigit_toDigits n)
  rwa [digitsValue_toDigits] at hlt

theorem pow_le_of_lt_digitCount {n k : Nat} (hn : 0 < n) (hk : k < digitCount n) : 10 ^ k ≤ n := by
  rcases Nat.eq_zero_or_pos k with rfl | hpos
  · exact hn
  · by_contra hlt
    have hfew := (Nat.length_toDigits_le_iff (by decide) hpos).mpr (Nat.lt_of_not_le hlt)
    exact absurd hk (Nat.not_lt_of_le hfew)

/-- What reads as a double lies between the midpoints, the midpoints included. -/
theorem contains_range {p n : Nat} (hn : (Interval.ofPattern p).contains n = true) :
    (units (p - 1) + units p) * half ≤ n ∧ n ≤ (units p + units (p + 1)) * half := by
  rw [ofPattern_contains_iff] at hn
  split at hn
  · exact hn
  · exact ⟨hn.1.le, hn.2.le⟩

theorem pos_of_contains {p n : Nat} (hp : 0 < p) (hn : (Interval.ofPattern p).contains n = true) :
    0 < n := by
  have hunits : 0 < units p := units_strictMono hp
  exact (Nat.mul_pos (by omega) half_pos).trans_le (contains_range hn).1

/-- No number that reads as a double is on a coarser grid than its shortest decimal. -/
theorem le_shortest (tie : Tie) {p k n : Nat} (hp : 0 < p)
    (hn : (Interval.ofPattern p).contains (n * 10 ^ k) = true) :
    (k : Int) - 1075 ≤ (shortest tie p).exponent := by
  refine le_coarsest tie (contains_value hp) hn ?_
  have hvalue : (Interval.ofPattern p).value = 2 * units p * half := rfl
  have hupto : n * 10 ^ k ≤ 2 * (2 * units p * half) := by
    refine (contains_range hn).2.trans ?_
    rw [← Nat.mul_assoc]
    have := units_succ_le hp
    exact Nat.mul_le_mul_right half (by omega)
  have hdigits := lt_pow_digitCount (Interval.ofPattern p).value
  rw [← hvalue] at hupto
  by_contra hk
  have hpow : 10 ^ (digitCount (Interval.ofPattern p).value + 1) ≤ 10 ^ k :=
    Nat.pow_le_pow_right (by decide) (by omega)
  have hn' : 10 ^ k ≤ n * 10 ^ k :=
    Nat.le_mul_of_pos_left _ (Nat.pos_of_mul_pos_right (pos_of_contains hp hn))
  rw [Nat.pow_succ] at hpow
  omega

/-- From the second step on no number that reads as a double is more than twice another. -/
theorem contains_le_double {p m n : Nat} (hp : 1 < p)
    (hm : (Interval.ofPattern p).contains m = true)
    (hn : (Interval.ofPattern p).contains n = true) : n ≤ 2 * m := by
  obtain ⟨q, rfl⟩ := Nat.exists_eq_succ_of_ne_zero (show p ≠ 0 by omega)
  have hbelow : units (q + 1) ≤ 2 * units q := units_succ_le (by omega)
  have habove : units (q + 1 + 1) ≤ 2 * units (q + 1) := units_succ_le (by omega)
  calc n ≤ (units (q + 1) + units (q + 1 + 1)) * half := (contains_range hn).2
    _ ≤ 2 * (units q + units (q + 1)) * half := Nat.mul_le_mul_right half (by omega)
    _ = 2 * ((units q + units (q + 1)) * half) := Nat.mul_assoc _ _ _
    _ ≤ 2 * m := Nat.mul_le_mul_left 2 (contains_range hm).1

/-- What reads as the first step is less than one. -/
theorem contains_one_lt {n : Nat} (hn : (Interval.ofPattern 1).contains n = true) :
    n < 10 ^ (unitPlaces + 1) := by
  have hplaces := unitPlaces_succ
  have hone : 2 ^ 1 ≤ one := Nat.pow_le_pow_right (by decide) (by omega)
  have hunits : units 1 + units (1 + 1) = 3 := rfl
  rw [ten_pow_eq]
  refine (contains_range hn).2.trans_lt (Nat.mul_lt_mul_of_pos_right ?_ half_pos)
  omega

/-- A number with `W` digits before the point and `F` behind it that reads as a double: the shortest
decimal has no more of either, unless it is the power of ten above the digits before the point. -/
theorem shortest_of_contains (tie : Tie) {p n W F : Nat} (hp : 0 < p) (hF : F ≤ 1075)
    (hsize : n < 10 ^ (W + F))
    (hn : (Interval.ofPattern p).contains (n * 10 ^ (1075 - F)) = true) :
    -(F : Int) ≤ (shortest tie p).exponent ∧
      (digitCount (shortest tie p).coefficient + (shortest tie p).exponent ≤ W ∨
        (shortest tie p).coefficient = 1 ∧ (shortest tie p).exponent = W) := by
  have hfraction := le_shortest tie hp hn
  obtain ⟨k, hexponent, hcontains⟩ := shortest_contains tie hp
  refine ⟨by omega, ?_⟩
  by_cases hwide : digitCount (shortest tie p).coefficient + (shortest tie p).exponent ≤ W
  · exact .inl hwide
  -- A power of ten lies between the number and the shortest decimal.
  have hbelow : n * 10 ^ (1075 - F) < 10 ^ (W + 1075) := by
    have hplaces : W + 1075 = W + F + (1075 - F) := by omega
    rw [hplaces, Nat.pow_add _ (W + F)]
    exact Nat.mul_lt_mul_of_pos_right hsize (Nat.pow_pos (by decide))
  have habove : 10 ^ (W + 1075) ≤ (shortest tie p).coefficient * 10 ^ k := by
    have hcoefficient := Nat.pos_of_mul_pos_right (pos_of_contains hp hcontains)
    have hcount : 0 < digitCount (shortest tie p).coefficient :=
      List.length_pos_of_ne_nil Nat.toDigits_ne_nil
    calc 10 ^ (W + 1075) ≤ 10 ^ (digitCount (shortest tie p).coefficient - 1 + k) :=
          Nat.pow_le_pow_right (by decide) (by omega)
      _ = 10 ^ (digitCount (shortest tie p).coefficient - 1) * 10 ^ k := Nat.pow_add _ _ _
      _ ≤ (shortest tie p).coefficient * 10 ^ k :=
          Nat.mul_le_mul_right _ (pow_le_of_lt_digitCount hcoefficient (by omega))
  have hpower : (Interval.ofPattern p).contains (1 * 10 ^ (W + 1075)) = true := by
    rw [Nat.one_mul]
    exact contains_of_between hn hcontains hbelow.le habove
  have hgrid := le_shortest tie hp hpower
  have hk : 10 ^ (W + 1075) ≤ 10 ^ k := Nat.pow_le_pow_right (by decide) (by omega)
  have hlarge : 1 < p := by
    refine Nat.lt_of_le_of_ne hp fun hone => ?_
    subst hone
    have hlt := contains_one_lt hpower
    have hle : 10 ^ (unitPlaces + 1) ≤ 1 * 10 ^ (W + 1075) := by
      have hplaces := unitPlaces_succ
      rw [Nat.one_mul]
      exact Nat.pow_le_pow_right (by decide) (by omega)
    exact absurd hlt (Nat.not_lt_of_le hle)
  -- The shortest decimal is less than twice that power, on a grid that is no finer.
  have hdouble := contains_le_double hlarge hn hcontains
  have hcoefficient : (shortest tie p).coefficient = 1 := by
    have hlt : (shortest tie p).coefficient * 10 ^ k < 2 * 10 ^ k := by omega
    have := Nat.lt_of_mul_lt_mul_right hlt
    have := Nat.pos_of_mul_pos_right (pos_of_contains hp hcontains)
    omega
  have hplace : k = W + 1075 := by
    by_contra hne
    have hten : 10 ^ (W + 1075 + 1) ≤ 10 ^ k := Nat.pow_le_pow_right (by decide) (by omega)
    rw [Nat.pow_succ] at hten
    rw [hcoefficient, Nat.one_mul] at hdouble
    omega
  exact .inr ⟨hcoefficient, by omega⟩

/-! ## Lengths -/

/-- A decimal in place has a digit at least on either side of the point, and as many more as it
needs. -/
theorem length_inPlace {digits : List Char} (exponent : Int) (hne : digits ≠ [])
    (hdigits : ∀ c ∈ digits, c.isDigit = true) :
    ((withFraction (inPlace digits (digits.length + exponent) false)).length : Int) =
      max 1 (digits.length + exponent) + 1 + max 1 (-exponent) := by
  have hlength := List.length_pos_of_ne_nil hne
  by_cases hle : digits.length + exponent ≤ 0
  · rw [inPlace_before digits hle]
    simp only [List.length_append, List.length_cons, List.length_nil, List.length_replicate]
    omega
  · by_cases hend : digits.length ≤ (digits.length + exponent).toNat
    · rw [inPlace_behind hdigits (by omega) hend]
      simp only [List.length_append, List.length_cons, List.length_nil, List.length_replicate]
      omega
    · rw [inPlace_among (by omega) (by omega)]
      simp only [List.length_append, List.length_cons, List.length_take, List.length_drop]
      omega

theorem length_magnitude {p W F : Nat} (hp : 0 < p) (hW : 0 < W) (hF : 0 < F)
    (hbehind : -(F : Int) ≤ (shortest .upper p).exponent)
    (hbefore : digitCount (shortest .upper p).coefficient + (shortest .upper p).exponent ≤ W) :
    (withFraction (plain.magnitude p)).length ≤ W + 1 + F := by
  have hlength := length_inPlace (shortest .upper p).exponent Nat.toDigits_ne_nil
    (isDigit_toDigits (shortest .upper p).coefficient)
  rw [plain_magnitude hp]
  rw [digitCount] at hbefore
  omega

theorem magnitude_of_power {p W : Nat} (hp : 0 < p)
    (hcoefficient : (shortest .upper p).coefficient = 1)
    (hexponent : (shortest .upper p).exponent = W) :
    withFraction (plain.magnitude p) = '1' :: List.replicate W '0' ++ ['.', '0'] := by
  have hone : Nat.toDigits 10 1 = ['1'] := by decide
  have hpoint : ((['1'].length : Nat) + (W : Int)).toNat = W + 1 := by
    rw [List.length_singleton]
    omega
  rw [plain_magnitude hp, hcoefficient, hexponent, hone,
    inPlace_behind (by simp) (by simp; omega) (by rw [hpoint]; simp), hpoint,
    List.length_singleton, Nat.add_sub_cancel]
  rfl

theorem contains_of_rounds {n F p : Nat} (hF : F ≤ 1075) (h : Rounds (n * one) (10 ^ F) p) :
    (Interval.ofPattern p).contains (n * 10 ^ (1075 - F)) = true := by
  refine (rounds_iff_contains (Nat.pow_pos (by decide)) ?_).mp h
  have hplaces : unitPlaces + 1 = 1075 - F + F := by
    have := unitPlaces_succ
    omega
  rw [hplaces, Nat.pow_add, Nat.mul_assoc]

/-- A real is not longer when it is printed than when it was read, unless it is printed as a one
with as many zeros as there were digits before the point. -/
theorem realText_length {text whole fraction : List Char} (h : IsReal text whole fraction)
    (hfits : (whole ++ fraction).length ≤ 256) :
    (Script.realText (Decimal.read whole fraction)).toList.length ≤ text.length ∨
      (Script.realText (Decimal.read whole fraction)).toList =
        '1' :: List.replicate whole.length '0' ++ ['.', '0'] := by
  have hwhole := List.length_pos_of_ne_nil h.whole_ne_nil
  have hfraction := List.length_pos_of_ne_nil h.fraction_ne_nil
  have hlength : text.length = whole.length + 1 + fraction.length := by
    rw [h.text, List.length_append, List.length_cons]
    omega
  have hplaces : fraction.length ≤ 1075 := by
    rw [List.length_append] at hfits
    omega
  have hsize : digitsValue (whole ++ fraction) < 10 ^ (whole.length + fraction.length) := by
    rw [← List.length_append]
    exact digitsValue_lt (List.forall_mem_append.mpr ⟨h.whole_digits, h.fraction_digits⟩)
  have hfinite := nearest_finite h.whole_digits h.fraction_digits hfits
  obtain ⟨p, hnearest⟩ :
      ∃ p, nearest (digitsValue (whole ++ fraction) * one) (10 ^ fraction.length) = p := ⟨_, rfl⟩
  have hread : Decimal.read whole fraction = Float.ofBits p.toUInt64 := by
    rw [Decimal.read, ofRatio, Nat.pow_eq, hnearest]
  rw [hnearest] at hfinite
  rw [hread, realText_toList hfinite, hlength]
  rcases Nat.eq_zero_or_pos p with hzero | hp
  · left
    have hthree : (withFraction (plain.magnitude 0)).length = 3 := rfl
    rw [hzero, hthree]
    exact Nat.add_le_add (Nat.succ_le_succ hwhole) hfraction
  · have hrounds := rounds_of_nearest (Nat.pow_pos (by decide)) hfinite hnearest
    obtain ⟨hbehind, hbefore | ⟨hcoefficient, hexponent⟩⟩ :=
      shortest_of_contains .upper hp hplaces hsize (contains_of_rounds hplaces hrounds)
    · exact .inl (length_magnitude hp hwhole hfraction hbehind hbefore)
    · exact .inr (magnitude_of_power hp hcoefficient hexponent)

end FrameGraph.Decimal
