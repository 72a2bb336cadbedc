import FrameGraph.Proofs.Source.Lines

/-!
# Searches among the starts of lines

A search for an offset among the starts ends with a hit, at the place where the offset stands, or
with a miss, at the place where it belongs. A hit is on the first byte of a line and gives that
line. A miss gives the line before, and at the first place there is no line before. But the first
line starts at offset 0, so no search misses there, and the line is the one that counting line feeds
gives, whichever way the search goes.
-/
namespace FrameGraph.LineIndex

variable {starts : Array Nat} {offset : Nat}

/-! ## What a search finds -/

/-- How a search for a value in an increasing array ends. -/
inductive Search where
  /-- The value stands at this place. -/
  | hit (place : Nat)
  /-- The value does not stand anywhere; this is the place where it belongs. -/
  | miss (place : Nat)
  deriving DecidableEq, Repr

/-- The index of the line that is found: the start that was hit, or the one before the place that
was missed. Before the first place there is none. -/
def Search.index? : Search → Option Nat
  | .hit place => some place
  | .miss 0 => none
  | .miss (place + 1) => some place

/-- How many starts there are up to the offset, by what was found. -/
def Search.count : Search → Nat
  | .hit place => place + 1
  | .miss place => place

theorem Search.index?_of_count {found : Search} {n : Nat} (h : found.count = n + 1) :
    found.index? = some n := by
  cases found with
  | hit place => exact congrArg some (Nat.succ.inj h)
  | miss place =>
    obtain rfl : place = n + 1 := h
    rfl

/-- The starts below `low` are before the offset, and those from `high` on are behind it. -/
structure Window (starts : Array Nat) (offset low high : Nat) : Prop where
  le : low ≤ high
  le_size : high ≤ starts.size
  before : ∀ i (h : i < starts.size), i < low → starts[i] < offset
  behind : ∀ i (h : i < starts.size), high ≤ i → offset < starts[i]

theorem Window.absent {place i : Nat} (h : Window starts offset place place) :
    starts[i]? ≠ some offset := by
  intro hi
  obtain ⟨hsize, hstart⟩ := Array.getElem?_eq_some_iff.mp hi
  obtain hlt | hge := Nat.lt_or_ge i place
  · have := h.before i hsize hlt
    omega
  · have := h.behind i hsize hge
    omega

/-- What a search may end with: a place of the offset if it is among the starts, and else the place
at which it could be inserted without disturbing their order. -/
inductive Finds (starts : Array Nat) (offset : Nat) : Search → Prop where
  | hit {place : Nat} (hplace : starts[place]? = some offset) : Finds starts offset (.hit place)
  | miss {place : Nat} (closed : Window starts offset place place) :
    Finds starts offset (.miss place)

/-- Bisects the places from `low` up to `high`, and stops at the offset if it comes upon it. It
fails where it looks at a place that is none of the array, and when its steps run out. -/
def searchFrom? (starts : Array Nat) (offset : Nat) : Nat → Nat → Nat → Option Search
  | 0, _, _ => none
  | steps + 1, low, high =>
    if low < high then do
      let middle := (low + high) / 2
      match compare (← starts[middle]?) offset with
      | .lt => searchFrom? starts offset steps (middle + 1) high
      | .eq => return .hit middle
      | .gt => searchFrom? starts offset steps low middle
    else some (.miss low)

/-- Searches the whole array. -/
def search? (starts : Array Nat) (offset : Nat) : Option Search :=
  searchFrom? starts offset (starts.size + 1) 0 starts.size

/-! ## Increasing starts -/

section
variable (increasing : ∀ i j (hi : i < starts.size) (hj : j < starts.size),
  i < j → starts[i] < starts[j])
include increasing

theorem Window.right {low high middle : Nat} (h : Window starts offset low high)
    (hmiddle : middle < high) (hsize : middle < starts.size) (hstart : starts[middle] < offset) :
    Window starts offset (middle + 1) high where
  le := hmiddle
  le_size := h.le_size
  before i hi hle :=
    have hstarts := le_of_increasing increasing i middle hi hsize (Nat.le_of_lt_succ hle)
    Nat.lt_of_le_of_lt hstarts hstart
  behind := h.behind

theorem Window.left {low high middle : Nat} (h : Window starts offset low high)
    (hmiddle : low ≤ middle) (hsize : middle < starts.size) (hstart : offset < starts[middle]) :
    Window starts offset low middle where
  le := hmiddle
  le_size := Nat.le_of_lt hsize
  before := h.before
  behind i hi hle :=
    have hstarts := le_of_increasing increasing middle i hsize hi hle
    Nat.lt_of_lt_of_le hstart hstarts

/-- A search with enough steps ends, looks at places of the array only, and finds what it is to
find. -/
theorem searchFrom?_finds (steps low high : Nat) (h : Window starts offset low high)
    (enough : high - low < steps) :
    ∃ found, searchFrom? starts offset steps low high = some found ∧ Finds starts offset found := by
  induction steps generalizing low high with
  | zero => omega
  | succ steps ih =>
    have hle := h.le
    have hhigh := h.le_size
    by_cases hlt : low < high
    · have hsize : (low + high) / 2 < starts.size := by omega
      simp only [searchFrom?, if_pos hlt, Array.getElem?_eq_getElem hsize, Option.bind_eq_bind,
        Option.bind_some]
      -- A look that is no hit leaves a smaller window on one side of the middle.
      cases hcompare : compare starts[(low + high) / 2] offset with
      | lt =>
        have hstart := Nat.compare_eq_lt.mp hcompare
        exact ih _ _ (h.right increasing (by omega) hsize hstart) (by omega)
      | eq =>
        have hstart := Nat.compare_eq_eq.mp hcompare
        exact ⟨_, rfl, .hit (by rw [Array.getElem?_eq_getElem hsize, hstart])⟩
      | gt =>
        have hstart := Nat.compare_eq_gt.mp hcompare
        exact ih _ _ (h.left increasing (by omega) hsize hstart) (by omega)
    · obtain rfl : low = high := by omega
      exact ⟨.miss low, by rw [searchFrom?, if_neg hlt], .miss h⟩

theorem search?_finds (offset : Nat) :
    ∃ found, search? starts offset = some found ∧ Finds starts offset found :=
  searchFrom?_finds increasing _ _ _
    ⟨Nat.zero_le _, Nat.le_refl _, fun i _ h => by omega, fun i hi h => by omega⟩ (by omega)

theorem Finds.splitsAt {found : Search} (h : Finds starts offset found) :
    SplitsAt starts offset found.count := by
  cases h with
  | @hit place hplace =>
    obtain ⟨hsize, hstart⟩ := Array.getElem?_eq_some_iff.mp hplace
    refine ⟨hsize, fun i hi hle => ?_, fun i hi hlt => ?_⟩
    · have := le_of_increasing increasing i place hi hsize (Nat.le_of_lt_succ hle)
      omega
    · have := increasing place i hsize hi hlt
      omega
  | miss closed =>
    exact ⟨closed.le_size, fun i hi hlt => Nat.le_of_lt (closed.before i hi hlt), closed.behind⟩

/-- A search may end in one way only. -/
theorem Finds.unique {found other : Search} (h : Finds starts offset found)
    (h' : Finds starts offset other) : other = found := by
  have hcount := (h'.splitsAt increasing).unique (h.splitsAt increasing)
  cases h with
  | hit hplace =>
    cases h' with
    | hit => exact congrArg Search.hit (Nat.succ.inj hcount)
    | miss closed => exact absurd hplace closed.absent
  | miss closed =>
    cases h' with
    | hit hplace => exact absurd hplace closed.absent
    | miss => exact congrArg Search.miss hcount

end

/-! ## Line feeds -/

/-- How many line feeds there are among the bytes before an offset. -/
def lineFeedsBefore (source : String) (offset : Nat) : Nat :=
  (source.toUTF8.data.toList.take offset).count 10

theorem lineFeedsBefore_eq (source : String) (offset : Nat) :
    lineFeedsBefore source offset =
      ((source.toList.flatMap String.utf8EncodeChar).take offset).count 10 := by
  have hbytes : source.toByteArray = source.toList.utf8Encode := by
    rw [← String.toByteArray_ofList, String.ofList_toList]
  rw [lineFeedsBefore, String.toUTF8, hbytes, List.utf8Encode, List.toList_data_toByteArray]

theorem lineFeedsBefore_le (source : String) (offset : Nat) :
    lineFeedsBefore source offset ≤ source.utf8ByteSize :=
  calc lineFeedsBefore source offset
      ≤ (source.toUTF8.data.toList.take offset).length := List.count_le_length
    _ ≤ source.toUTF8.data.toList.length := List.length_take_le' _ _
    _ = source.utf8ByteSize := rfl

/-- The line of an offset, wherever it lies, is one more than the line feeds among the bytes before
it. The search among the starts always ends, in the one way in which it may end, and what it finds
is the index of that line, so it never misses at the first place. The number of a line is at most
one more than that of the bytes, so 32 bits hold it for sources of fewer than `2 ^ 32 - 1` bytes. -/
theorem line_counts_lineFeeds (source : String) (offset : Nat) :
    (ofSource source).line offset = lineFeedsBefore source offset + 1 ∧
      (∃ found, search? (ofSource source).starts offset = some found ∧
        (∀ other, Finds (ofSource source).starts offset other ↔ other = found) ∧
        found.index? = some (lineFeedsBefore source offset)) ∧
      (ofSource source).line offset ≤ source.utf8ByteSize + 1 := by
  have hline : (ofSource source).line offset = lineFeedsBefore source offset + 1 := by
    rw [lineFeedsBefore_eq]
    exact line_eq_count source.toList offset
  have increasing := starts_lt source.toList
  obtain ⟨found, hsearch, hfinds⟩ := search?_finds increasing offset
  have hcount : found.count = lineFeedsBefore source offset + 1 :=
    ((hfinds.splitsAt increasing).unique (line_splitsAt source.toList offset)).trans hline
  refine ⟨hline, ⟨found, hsearch, fun other => ⟨hfinds.unique increasing, ?_⟩,
    Search.index?_of_count hcount⟩, ?_⟩
  · rintro rfl
    exact hfinds
  · rw [hline]
    exact Nat.succ_le_succ (lineFeedsBefore_le source offset)

example : [0, 1, 2, 4, 5, 9].map (search? (ofSource "a\nbc\n").starts) =
    [some (.hit 0), some (.miss 1), some (.hit 1), some (.miss 2), some (.hit 2),
      some (.miss 3)] := by decide

end FrameGraph.LineIndex
