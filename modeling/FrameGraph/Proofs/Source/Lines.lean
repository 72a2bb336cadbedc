import FrameGraph.Source
import Mathlib.Data.List.Basic

/-!
# Lines

Bisection finds how many lines start at or before an offset, and that number is one more than the
line feeds among the bytes before the offset, wherever it lies. No other character has the byte of a
line feed in it, so between two characters the line feeds can be counted as characters.
-/
namespace FrameGraph.LineIndex

open Text

/-! ## Bisection -/

/-- The first `n` starts are at or before the offset, and the others are behind it. -/
structure SplitsAt (starts : Array Nat) (offset n : Nat) : Prop where
  le_size : n ≤ starts.size
  before : ∀ i (h : i < starts.size), i < n → starts[i] ≤ offset
  behind : ∀ i (h : i < starts.size), n ≤ i → offset < starts[i]

theorem le_of_increasing {starts : Array Nat}
    (increasing : ∀ i j (hi : i < starts.size) (hj : j < starts.size),
      i < j → starts[i] < starts[j])
    (i j : Nat) (hi : i < starts.size) (hj : j < starts.size) (hij : i ≤ j) :
    starts[i] ≤ starts[j] := by
  obtain rfl | hlt := Nat.eq_or_lt_of_le hij
  · exact Nat.le_refl _
  · exact Nat.le_of_lt (increasing i j hi hj hlt)

theorem bisect_splitsAt {starts : Array Nat} {offset : Nat}
    (sorted : ∀ i j (hi : i < starts.size) (hj : j < starts.size), i ≤ j → starts[i] ≤ starts[j])
    (steps low high : Nat) (hlow : low ≤ high) (hhigh : high ≤ starts.size)
    (enough : high - low ≤ steps)
    (before : ∀ i (h : i < starts.size), i < low → starts[i] ≤ offset)
    (behind : ∀ i (h : i < starts.size), high ≤ i → offset < starts[i]) :
    SplitsAt starts offset (bisect starts offset steps low high) := by
  induction steps generalizing low high with
  | zero =>
    have hsame : low = high := by omega
    subst low
    exact ⟨hhigh, before, behind⟩
  | succ steps ih =>
    by_cases hlt : low < high
    · have hmiddle : (low + high) / 2 < starts.size := by omega
      by_cases hstart : starts[(low + high) / 2] ≤ offset
      · have hstep : bisect starts offset (steps + 1) low high =
            bisect starts offset steps ((low + high) / 2 + 1) high := by
          simp [bisect, hlt, hmiddle, hstart]
        rw [hstep]
        refine ih _ _ (by omega) hhigh (by omega) ?_ behind
        intro i hi hle
        have := sorted i _ hi hmiddle (by omega)
        omega
      · have hstep : bisect starts offset (steps + 1) low high =
            bisect starts offset steps low ((low + high) / 2) := by
          simp [bisect, hlt, hmiddle, hstart]
        rw [hstep]
        refine ih _ _ (by omega) (by omega) (by omega) before ?_
        intro i hi hle
        have := sorted _ i hmiddle hi hle
        omega
    · have hsame : low = high := by omega
      subst low
      rw [bisect, if_neg hlt]
      exact ⟨hhigh, before, behind⟩

theorem eq_or_mem_of_mem_laterStarts {offset start : Nat} {c : Char} {s : List Char}
    (h : start ∈ laterStarts offset (c :: s)) :
    start = offset + c.utf8Size ∨ start ∈ laterStarts (offset + c.utf8Size) s := by
  by_cases hfeed : c = '\n'
  · simpa only [laterStarts, if_pos hfeed, List.mem_cons] using h
  · exact .inr (by simpa only [laterStarts, if_neg hfeed] using h)

theorem lt_of_mem_laterStarts {offset start : Nat} {s : List Char}
    (h : start ∈ laterStarts offset s) : offset < start := by
  induction s generalizing offset with
  | nil => cases h
  | cons c s ih =>
    have hc := c.utf8Size_pos
    obtain rfl | h := eq_or_mem_of_mem_laterStarts h
    · omega
    · have := ih h
      omega

/-- No line starts inside a character. -/
theorem le_of_mem_laterStarts {offset start : Nat} {c : Char} {s : List Char}
    (h : start ∈ laterStarts offset (c :: s)) : offset + c.utf8Size ≤ start := by
  obtain rfl | h := eq_or_mem_of_mem_laterStarts h
  · exact Nat.le_refl _
  · exact Nat.le_of_lt (lt_of_mem_laterStarts h)

theorem laterStarts_sorted (offset : Nat) (s : List Char) :
    (offset :: laterStarts offset s).Pairwise (· < ·) := by
  refine List.pairwise_cons.mpr ⟨fun _ h => lt_of_mem_laterStarts h, ?_⟩
  induction s generalizing offset with
  | nil => exact .nil
  | cons c s ih =>
    by_cases hfeed : c = '\n'
    · simp only [laterStarts, if_pos hfeed, List.pairwise_cons]
      exact ⟨fun _ h => lt_of_mem_laterStarts h, ih _⟩
    · simpa only [laterStarts, if_neg hfeed] using ih _

theorem starts_lt (s : List Char) (i j : Nat) (hi : i < (ofChars s).starts.size)
    (hj : j < (ofChars s).starts.size) (hij : i < j) :
    (ofChars s).starts[i] < (ofChars s).starts[j] :=
  List.pairwise_iff_getElem.mp (laterStarts_sorted 0 s) i j hi hj hij

theorem line_splitsAt (s : List Char) (offset : Nat) :
    SplitsAt (ofChars s).starts offset ((ofChars s).line offset) := by
  have sorted := le_of_increasing (starts_lt s)
  refine bisect_splitsAt sorted _ 0 _ (Nat.zero_le _) (Nat.le_refl _) (by omega) ?_ ?_
  · intro i _ h
    omega
  · intro i hi h
    omega

theorem SplitsAt.eq_countP {starts : Array Nat} {offset n : Nat}
    (split : SplitsAt starts offset n) : n = starts.toList.countP (· ≤ offset) := by
  have hle : n ≤ starts.toList.length := split.le_size
  have htake : (starts.toList.take n).countP (· ≤ offset) = (starts.toList.take n).length := by
    rw [List.countP_eq_length]
    intro start h
    obtain ⟨i, hi, rfl⟩ := List.mem_take_iff_getElem.mp h
    have := split.before i (by rw [← Array.length_toList]; omega) (by omega)
    simpa using this
  have hdrop : (starts.toList.drop n).countP (· ≤ offset) = 0 := by
    rw [List.countP_eq_zero]
    intro start h
    obtain ⟨i, hi, rfl⟩ := List.mem_drop_iff_getElem.mp h
    have := split.behind (n + i) (by rw [← Array.length_toList]; omega) (by omega)
    simpa using this
  calc n = (starts.toList.take n).length := by rw [List.length_take]; omega
    _ = (starts.toList.take n).countP (· ≤ offset) +
        (starts.toList.drop n).countP (· ≤ offset) := by rw [htake, hdrop, Nat.add_zero]
    _ = starts.toList.countP (· ≤ offset) := by rw [← List.countP_append, List.take_append_drop]

theorem SplitsAt.unique {starts : Array Nat} {offset n m : Nat} (h : SplitsAt starts offset n)
    (h' : SplitsAt starts offset m) : n = m :=
  h.eq_countP.trans h'.eq_countP.symm

/-- The line of an offset is the number of lines that start at or before it. -/
theorem line_eq_countP (s : List Char) (offset : Nat) :
    (ofChars s).line offset = (0 :: laterStarts 0 s).countP (· ≤ offset) :=
  (line_splitsAt s offset).eq_countP

/-! ## Line feeds -/

theorem ofNat_ne_lineFeed {n : Nat} (hlow : 128 ≤ n) (hhigh : n < 256) :
    (10 : UInt8) ≠ UInt8.ofNat n := by
  intro heq
  have hvalue : 10 = n % 256 := congrArg UInt8.toNat heq
  omega

/-- The byte of a line feed stands for a line feed only: the bytes of all other characters are other
codes below 128, or have their highest bit set. -/
theorem eq_of_lineFeed_mem {c : Char} (h : 10 ∈ String.utf8EncodeChar c) : c = '\n' := by
  simp only [String.utf8EncodeChar] at h
  split_ifs at h with hone
  · have hbyte : (10 : UInt8) = UInt8.ofNat c.val.toNat := List.mem_singleton.mp h
    have hvalue : 10 = c.val.toNat % 256 := congrArg UInt8.toNat hbyte
    have hcode : c.val.toNat = 10 := by omega
    exact Char.ext (UInt32.toNat_inj.mp hcode)
  all_goals
    simp (disch := omega) only [List.mem_cons, List.not_mem_nil, ofNat_ne_lineFeed, or_false] at h

theorem count_utf8EncodeChar (c : Char) :
    (String.utf8EncodeChar c).count 10 = if c = '\n' then 1 else 0 := by
  split
  · rename_i hfeed
    subst hfeed
    rfl
  · rename_i hother
    exact List.count_eq_zero.mpr fun h => hother (eq_of_lineFeed_mem h)

theorem count_take_utf8EncodeChar {c : Char} {n : Nat} (hn : n < c.utf8Size) :
    ((String.utf8EncodeChar c).take n).count 10 = 0 := by
  rw [List.count_eq_zero]
  intro h
  obtain rfl := eq_of_lineFeed_mem (List.mem_of_mem_take h)
  obtain rfl : n = 0 := Nat.lt_one_iff.mp hn
  cases h

theorem length_utf8 (s : List Char) : (s.flatMap String.utf8EncodeChar).length = byteLength s := by
  induction s with
  | nil => rfl
  | cons c s ih =>
    rw [List.flatMap_cons, List.length_append, String.length_utf8EncodeChar, ih, byteLength_cons]

theorem count_utf8 (s : List Char) :
    (s.flatMap String.utf8EncodeChar).count 10 = s.count '\n' := by
  induction s with
  | nil => rfl
  | cons c s ih =>
    rw [List.flatMap_cons, List.count_append, ih, count_utf8EncodeChar, List.count_cons,
      Nat.add_comm]
    simp

/-- The starts of lines within the next `n` bytes are as many as the line feeds among them. -/
theorem countP_laterStarts (offset n : Nat) (s : List Char) :
    (laterStarts offset s).countP (· ≤ offset + n) =
      ((s.flatMap String.utf8EncodeChar).take n).count 10 := by
  induction s generalizing offset n with
  | nil => simp [laterStarts]
  | cons c s ih =>
    rw [List.flatMap_cons, List.take_append, List.count_append, String.length_utf8EncodeChar]
    obtain hinside | hbehind := Nat.lt_or_ge n c.utf8Size
    · have hnone : (laterStarts offset (c :: s)).countP (· ≤ offset + n) = 0 := by
        rw [List.countP_eq_zero]
        intro start h
        have := le_of_mem_laterStarts h
        simp
        omega
      rw [hnone, count_take_utf8EncodeChar hinside, Nat.sub_eq_zero_of_le (Nat.le_of_lt hinside)]
      rfl
    · have hplace : offset + n = offset + c.utf8Size + (n - c.utf8Size) := by omega
      rw [List.take_of_length_le (by rwa [String.length_utf8EncodeChar]), count_utf8EncodeChar,
        ← ih (offset + c.utf8Size), hplace]
      by_cases hfeed : c = '\n'
      · rw [laterStarts, if_pos hfeed, if_pos hfeed, List.countP_cons, Nat.add_comm]
        simp
      · rw [laterStarts, if_neg hfeed, if_neg hfeed, Nat.zero_add]

/-- The line of any offset is one more than the line feeds among the bytes before it. -/
theorem line_eq_count (s : List Char) (offset : Nat) :
    (ofChars s).line offset = ((s.flatMap String.utf8EncodeChar).take offset).count 10 + 1 := by
  have h := countP_laterStarts 0 offset s
  rw [Nat.zero_add] at h
  rw [line_eq_countP, List.countP_cons, h]
  simp

/-- The line of an offset between two characters is one more than the line feeds before it. -/
theorem line_of_prefix (pre post : List Char) :
    (ofChars (pre ++ post)).line (byteLength pre) = pre.count '\n' + 1 := by
  rw [line_eq_count, List.flatMap_append, List.take_left' (length_utf8 pre), count_utf8]

end FrameGraph.LineIndex
