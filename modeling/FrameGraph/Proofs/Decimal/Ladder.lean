import FrameGraph.Decimal.Shortest
import Mathlib.Order.Monotone.Basic
import Mathlib.Tactic.Ring
import Mathlib.Tactic.Linarith

/-!
# The ladder of doubles

The units of the steps increase without pause, also where a binade ends, so the search on the
ladder finds the highest step that is not above a number, and every number between the midpoints
around a step is nearest to that step.
-/
namespace FrameGraph.Decimal

/-- A step by its exponent and its fraction. -/
theorem units_mul_add (e f : Nat) (hf : f < 2 ^ fractionBits) :
    units (2 ^ fractionBits * e + f) =
      if e = 0 then f else (2 ^ fractionBits + f) * 2 ^ (e - 1) := by
  have hexponent : (2 ^ fractionBits * e + f) / 2 ^ fractionBits = e := by
    rw [Nat.mul_add_div (Nat.two_pow_pos _), Nat.div_eq_of_lt hf, Nat.add_zero]
  have hfraction : (2 ^ fractionBits * e + f) % 2 ^ fractionBits = f := by
    rw [Nat.mul_add_mod, Nat.mod_eq_of_lt hf]
  simp only [units, Nat.pow_eq, hexponent, hfraction]

/-- The next step is one unit of the binade higher. -/
theorem units_succ (p : Nat) : units (p + 1) = units p + 2 ^ (p / 2 ^ fractionBits - 1) := by
  have hB : 0 < 2 ^ fractionBits := Nat.two_pow_pos _
  obtain ⟨e, f, hf, rfl⟩ : ∃ e f, f < 2 ^ fractionBits ∧ p = 2 ^ fractionBits * e + f :=
    ⟨p / 2 ^ fractionBits, p % 2 ^ fractionBits, Nat.mod_lt _ hB, (Nat.div_add_mod _ _).symm⟩
  have hexponent : (2 ^ fractionBits * e + f) / 2 ^ fractionBits = e := by
    rw [Nat.mul_add_div hB, Nat.div_eq_of_lt hf, Nat.add_zero]
  rw [hexponent, units_mul_add e f hf]
  by_cases hlast : f + 1 < 2 ^ fractionBits
  · rw [Nat.add_assoc, units_mul_add e (f + 1) hlast]
    by_cases he : e = 0
    · simp [he]
    · simp only [he, if_false]
      ring
  -- The last step of a binade is followed by the first of the next one.
  · have hnext : 2 ^ fractionBits * e + f + 1 = 2 ^ fractionBits * (e + 1) + 0 := by
      rw [Nat.mul_add]; omega
    have hwhole : 2 ^ fractionBits = f + 1 := by omega
    rw [hnext, units_mul_add (e + 1) 0 hB, hwhole]
    by_cases he : e = 0
    · simp [he]
    · obtain ⟨k, rfl⟩ := Nat.exists_eq_succ_of_ne_zero he
      simp only [Nat.succ_ne_zero, if_false, Nat.succ_eq_add_one, Nat.add_sub_cancel]
      ring

theorem units_lt_succ (p : Nat) : units p < units (p + 1) := by
  rw [units_succ]
  exact Nat.lt_add_of_pos_right (Nat.two_pow_pos _)

theorem units_strictMono : StrictMono units := strictMono_nat_of_lt_succ units_lt_succ

theorem units_zero : units 0 = 0 := rfl

/-- A step is at most twice as high as the one before it. -/
theorem units_succ_le {p : Nat} (hp : 0 < p) : units (p + 1) ≤ 2 * units p := by
  have hgap : 2 ^ (p / 2 ^ fractionBits - 1) ≤ units p := by
    unfold units
    simp only [Nat.pow_eq]
    split
    · rename_i hexponent
      have hpart := Nat.div_add_mod p (2 ^ fractionBits)
      rw [hexponent] at hpart ⊢
      simp only [Nat.mul_zero, Nat.zero_add, Nat.zero_sub, Nat.pow_zero] at hpart ⊢
      omega
    · exact Nat.le_mul_of_pos_left _ (Nat.add_pos_left (Nat.two_pow_pos _) _)
  rw [units_succ]
  omega

/-- The step is the highest one, up to infinity, that is not above `num / den` units. -/
structure HighestBelow (num den low : Nat) : Prop where
  le_infinite : low ≤ infinite
  below : units low * den ≤ num
  highest : ∀ s ≤ infinite, units s * den ≤ num → s ≤ low

theorem climb_spec (num den : Nat) (bits low : Nat) (hinf : low ≤ infinite)
    (hbelow : units low * den ≤ num)
    (hbits : ∀ s ≤ infinite, units s * den ≤ num → s < low + 2 ^ bits) :
    HighestBelow num den (climb num den bits low) := by
  induction bits generalizing low with
  | zero =>
    refine ⟨hinf, hbelow, fun s hs h => ?_⟩
    have := hbits s hs h
    simp only [climb, Nat.pow_zero] at *
    omega
  | succ bits ih =>
    simp only [climb, Nat.pow_eq]
    have hdouble : 2 ^ (bits + 1) = 2 ^ bits + 2 ^ bits := by rw [Nat.pow_succ]; omega
    split
    · rename_i hstep
      apply ih _ hstep.1 hstep.2
      intro s hs h
      have := hbits s hs h
      omega
    · rename_i hstep
      apply ih _ hinf hbelow
      intro s hs h
      by_contra hge
      have hle : low + 2 ^ bits ≤ s := by omega
      refine hstep ⟨by omega, Nat.le_trans ?_ h⟩
      exact Nat.mul_le_mul_right den (units_strictMono.monotone hle)

theorem infinite_lt : infinite < 2 ^ patternBits := by
  decide +kernel

theorem climb_highestBelow (num den : Nat) :
    HighestBelow num den (climb num den patternBits 0) := by
  apply climb_spec num den patternBits 0 (Nat.zero_le _) (by simp [units_zero])
  intro s hs _
  have := infinite_lt
  omega

/-- Twice `num / den` units lies between the sums of the step's neighbours with the step itself,
ends included if the step is even. -/
def Rounds (num den p : Nat) : Prop :=
  if p % 2 = 0 then
    (units (p - 1) + units p) * den ≤ 2 * num ∧ 2 * num ≤ (units p + units (p + 1)) * den
  else (units (p - 1) + units p) * den < 2 * num ∧ 2 * num < (units p + units (p + 1)) * den

theorem Rounds.le {num den p : Nat} (h : Rounds num den p) :
    (units (p - 1) + units p) * den ≤ 2 * num ∧ 2 * num ≤ (units p + units (p + 1)) * den := by
  unfold Rounds at h
  split at h
  · exact h
  · exact ⟨h.1.le, h.2.le⟩

/-- A number between the midpoints around a finite step is nearest to it. -/
theorem nearest_of_rounds {num den p : Nat} (hden : 0 < den) (hp : p < infinite)
    (h : Rounds num den p) : nearest num den = p := by
  have hlow := climb_highestBelow num den
  simp only [nearest]
  generalize climb num den patternBits 0 = low at hlow
  have hnext := units_lt_succ p
  obtain ⟨hfrom, hupto⟩ := h.le
  simp only [Nat.add_mul] at hfrom hupto ⊢
  have habove : num < units (p + 1) * den := by
    have := Nat.mul_lt_mul_of_pos_right hnext hden
    omega
  have hlt : low < p + 1 := by
    by_contra hge
    have := Nat.mul_le_mul_right den (units_strictMono.monotone (Nat.le_of_not_lt hge))
    have := hlow.below
    omega
  have hfinite : low ≠ infinite := by omega
  simp only [if_neg hfinite]
  by_cases hstep : units p * den ≤ num
  · obtain rfl : low = p := Nat.le_antisymm (by omega) (hlow.highest p hp.le hstep)
    unfold Rounds at h
    simp only [Nat.add_mul] at h
    split at h
    · rename_i heven
      split_ifs <;> omega
    · split_ifs <;> omega
  -- Below the step itself the number lies above its lower neighbour.
  · have hpos : p ≠ 0 := by rintro rfl; simp [units_zero] at hstep
    obtain ⟨q, rfl⟩ := Nat.exists_eq_succ_of_ne_zero hpos
    simp only [Nat.succ_eq_add_one, Nat.add_sub_cancel] at *
    have hq : units q * den ≤ num := by omega
    have hqlow := hlow.highest q (by omega) hq
    have hne : low ≠ q + 1 := by rintro rfl; exact hstep hlow.below
    obtain rfl : low = q := by omega
    unfold Rounds at h
    simp only [Nat.add_sub_cancel, Nat.add_mul] at h
    split at h
    · split_ifs <;> omega
    · split_ifs <;> omega

/-- A finite step that is nearest to a number has it between the midpoints around it. -/
theorem rounds_of_nearest {num den p : Nat} (hden : 0 < den) (hp : p < infinite)
    (h : nearest num den = p) : Rounds num den p := by
  have hlow := climb_highestBelow num den
  simp only [nearest] at h
  generalize climb num den patternBits 0 = low at hlow h
  by_cases hinfinite : low = infinite
  · rw [if_pos hinfinite] at h
    omega
  rw [if_neg hinfinite] at h
  have hle := hlow.le_infinite
  have hbelow := hlow.below
  have habove : num < units (low + 1) * den := by
    by_contra hge
    have := hlow.highest (low + 1) (by omega) (Nat.le_of_not_lt hge)
    omega
  have hfrom : units (low - 1) * den ≤ units low * den :=
    Nat.mul_le_mul_right den (units_strictMono.monotone (Nat.sub_le low 1))
  have hfrom' : 0 < low → units (low - 1) * den < units low * den := fun hpos =>
    Nat.mul_lt_mul_of_pos_right (units_strictMono (by omega)) hden
  have hupto : units (low + 1) * den < units (low + 1 + 1) * den :=
    Nat.mul_lt_mul_of_pos_right (units_lt_succ (low + 1)) hden
  have hdown (hnum : 2 * num ≤ (units low + units (low + 1)) * den)
      (htie : low % 2 = 0 ∨ 2 * num < (units low + units (low + 1)) * den) :
      Rounds num den low := by
    unfold Rounds
    simp only [Nat.add_mul] at hnum htie ⊢
    split <;> omega
  have hup (hnum : (units low + units (low + 1)) * den ≤ 2 * num)
      (htie : low % 2 = 1 ∨ (units low + units (low + 1)) * den < 2 * num) :
      Rounds num den (low + 1) := by
    unfold Rounds
    simp only [Nat.add_mul, Nat.add_sub_cancel] at hnum htie ⊢
    split <;> omega
  split_ifs at h with hless hmore heven
  · exact h ▸ hdown hless.le (.inr hless)
  · exact h ▸ hup hmore.le (.inr hmore)
  · exact h ▸ hdown (by omega) (.inl heven)
  · exact h ▸ hup (by omega) (.inl (by omega))

/-- A number below the last finite step is nearest to a finite step. -/
theorem nearest_lt_infinite {num den : Nat} (h : num < units (infinite - 1) * den) :
    nearest num den < infinite := by
  have hlow := climb_highestBelow num den
  simp only [nearest]
  generalize climb num den patternBits 0 = low at hlow
  have hlt : low < infinite - 1 := by
    by_contra hge
    have := Nat.mul_le_mul_right den (units_strictMono.monotone (Nat.le_of_not_lt hge))
    have := hlow.below
    omega
  split_ifs <;> omega

end FrameGraph.Decimal
