import FrameGraph.Timing.Stats
import Mathlib

/-!
# The recurrence of running statistics

Over a field, pushing samples one after the other keeps what could be computed from all of them at
once: their mean, the sum of their squared deviations from it, and their extremes. What carries the
induction is how a sum of squares depends on the centre that it is taken about: moving the centre
away from the mean adds the square of the distance for every sample.
-/
namespace FrameGraph.Stats

variable {K : Type} [Field K]

/-- The statistics of samples that were pushed one after the other. -/
def ofSamples [Min K] [Max K] (samples : List K) : Stats K := samples.foldl push empty

/-- The mean of samples, from all of them at once. -/
def average (samples : List K) : K := samples.sum / samples.length

/-- The sum of the squared distances to a centre. -/
def squaresAbout (centre : K) (samples : List K) : K :=
  (samples.map fun x => (x - centre) ^ 2).sum

/-- The sample variance by the book: a first pass for the mean, a second one for the deviations. -/
def variance (samples : List K) : K :=
  squaresAbout (average samples) samples / (samples.length - 1)

theorem squaresAbout_concat (centre : K) (samples : List K) (x : K) :
    squaresAbout centre (samples ++ [x]) = squaresAbout centre samples + (x - centre) ^ 2 := by
  simp [squaresAbout]

theorem sum_eq_length_mul_average [CharZero K] (samples : List K) :
    samples.sum = samples.length * average samples := by
  cases samples with
  | nil => simp
  | cons x samples =>
    rw [average, mul_div_cancel₀]
    exact Nat.cast_ne_zero.mpr (Nat.succ_ne_zero _)

/-- Away from the average a centre costs the square of its distance for every sample. -/
theorem squaresAbout_eq [CharZero K] (centre : K) (samples : List K) :
    squaresAbout centre samples =
      squaresAbout (average samples) samples +
        samples.length * (average samples - centre) ^ 2 := by
  have hexpand (c : K) : squaresAbout c samples =
      (samples.map (· ^ 2)).sum - 2 * c * samples.sum + samples.length * c ^ 2 := by
    induction samples with
    | nil => simp [squaresAbout]
    | cons x samples ih =>
      have hcons : squaresAbout c (x :: samples) = (x - c) ^ 2 + squaresAbout c samples := rfl
      rw [hcons, ih]
      simp only [List.map_cons, List.sum_cons, List.length_cons, Nat.cast_succ]
      ring
  rw [hexpand, hexpand, sum_eq_length_mul_average samples]
  ring

/-- One more sample moves the average by its share of the distance. -/
theorem average_concat [CharZero K] (samples : List K) (x : K) :
    average (samples ++ [x]) =
      average samples + (x - average samples) / ((samples.length + 1 : Nat) : K) := by
  have hpos : ((samples.length + 1 : Nat) : K) ≠ 0 := Nat.cast_ne_zero.mpr (Nat.succ_ne_zero _)
  have hsum := sum_eq_length_mul_average samples
  rw [average, List.sum_append, List.sum_singleton, hsum, List.length_append,
    List.length_singleton, div_eq_iff hpos, add_mul, div_mul_cancel₀ _ hpos, Nat.cast_succ]
  ring

/-- One more sample adds the product of its distances to the old and to the new average. -/
theorem squaresAbout_average_concat [CharZero K] (samples : List K) (x : K) :
    squaresAbout (average (samples ++ [x])) (samples ++ [x]) =
      squaresAbout (average samples) samples +
        (x - average samples) * (x - average (samples ++ [x])) := by
  have hpos : ((samples.length + 1 : Nat) : K) ≠ 0 := Nat.cast_ne_zero.mpr (Nat.succ_ne_zero _)
  rw [squaresAbout_concat, squaresAbout_eq, average_concat]
  -- Both sides are now the old sum and a multiple of the squared distance to the old average.
  rw [Nat.cast_succ] at hpos ⊢
  field_simp
  ring

/-- What running statistics say of the samples that were pushed. -/
structure Summarizes [LinearOrder K] (samples : List K) (s : Stats K) : Prop where
  count : s.count = samples.length
  mean : s.mean = average samples
  squares : s.squares = squaresAbout (average samples) samples
  least : samples ≠ [] → IsLeast {x | x ∈ samples} s.least
  greatest : samples ≠ [] → IsGreatest {x | x ∈ samples} s.greatest

variable [LinearOrder K]

theorem empty_summarizes : Summarizes ([] : List K) empty where
  count := rfl
  mean := by simp [empty, average]
  squares := by simp [empty, squaresAbout]
  least h := absurd rfl h
  greatest h := absurd rfl h

variable {samples : List K} {s : Stats K}

theorem Summarizes.push [CharZero K] (h : Summarizes samples s) (x : K) :
    Summarizes (samples ++ [x]) (s.push x) := by
  have hcount : s.count = 0 ↔ samples = [] := by rw [h.count, List.length_eq_zero_iff]
  have hmean : (s.push x).mean = average (samples ++ [x]) := by
    rw [average_concat, ← h.mean, ← h.count]
    rfl
  have hset : {y | y ∈ samples ++ [x]} = insert x {y | y ∈ samples} := by
    ext y
    simp [or_comm]
  refine ⟨?_, hmean, ?_, fun _ => ?_, fun _ => ?_⟩
  · rw [List.length_append, List.length_singleton, ← h.count]
    rfl
  · rw [squaresAbout_average_concat, ← hmean, ← h.squares, ← h.mean]
    rfl
  · rw [hset]
    by_cases hsamples : samples = []
    · simp [Stats.push, hcount, hsamples]
    · simpa [Stats.push, hcount, hsamples, min_comm] using (h.least hsamples).insert x
  · rw [hset]
    by_cases hsamples : samples = []
    · simp [Stats.push, hcount, hsamples]
    · simpa [Stats.push, hcount, hsamples, max_comm] using (h.greatest hsamples).insert x

theorem ofSamples_summarizes [CharZero K] (samples : List K) :
    Summarizes samples (ofSamples samples) := by
  induction samples using List.reverseRecOn with
  | nil => exact empty_summarizes
  | append_singleton samples x ih =>
    rw [ofSamples, List.foldl_concat]
    exact ih.push x

theorem squaresAbout_nonneg [IsStrictOrderedRing K] (centre : K) (samples : List K) :
    0 ≤ squaresAbout centre samples := by
  refine List.sum_nonneg fun y hy => ?_
  obtain ⟨x, -, rfl⟩ := List.mem_map.mp hy
  exact sq_nonneg _

/-- Over the rationals the recurrence is exact: whatever samples have been pushed, it gives their
number, their mean, the sum of their squared deviations from it, hence the variance of two passes,
and their extremes. -/
theorem ofSamples_exact {samples : List ℚ} (hsamples : samples ≠ []) :
    let s := ofSamples samples
    s.count = samples.length ∧
    s.mean = samples.sum / samples.length ∧
    s.squares = (samples.map fun x => (x - s.mean) ^ 2).sum ∧
    0 ≤ s.squares ∧
    (2 ≤ samples.length → s.squares / ((s.count - 1 : Nat) : ℚ) = variance samples) ∧
    IsLeast {x | x ∈ samples} s.least ∧
    IsGreatest {x | x ∈ samples} s.greatest := by
  have h := ofSamples_summarizes samples
  refine ⟨h.count, h.mean, ?_, ?_, fun htwo => ?_, h.least hsamples, h.greatest hsamples⟩
  · rw [h.squares, h.mean, squaresAbout]
  · rw [h.squares]
    exact squaresAbout_nonneg _ _
  · rw [h.squares, h.count, variance, Nat.cast_sub (by omega : 1 ≤ samples.length), Nat.cast_one]

/-- Eight samples in no order: the mean is 5, and the squared deviations from it add up to 32. -/
theorem ofSamples_exact_eight :
    let samples : List ℚ := [2, 4, 9, 4, 5, 7, 5, 4]
    let s := ofSamples samples
    samples ≠ [] ∧ s.count = 8 ∧ s.mean = 5 ∧ s.squares = 32 ∧ s.squares / 7 = variance samples ∧
      s.least = 2 ∧ s.greatest = 9 := by
  intro samples s
  have hsamples : samples ≠ [] := List.cons_ne_nil _ _
  obtain ⟨hcount, hmean, hsquares, -, hvariance, hleast, hgreatest⟩ := ofSamples_exact hsamples
  have hfive : s.mean = 5 := hmean.trans (by norm_num [samples])
  refine ⟨hsamples, hcount, hfive, ?_, ?_, ?_, ?_⟩
  · rw [hsquares, hfive]
    norm_num [samples]
  · have htwo := hvariance (by decide)
    rw [hcount] at htwo
    exact htwo
  · exact hleast.unique ⟨by simp [samples], by norm_num [samples, lowerBounds]⟩
  · exact hgreatest.unique ⟨by simp [samples], by norm_num [samples, upperBounds]⟩

end FrameGraph.Stats
