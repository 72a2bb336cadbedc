import FrameGraph.Schedule.Dependency
import Mathlib.Data.List.Dedup
import Mathlib.Data.List.Perm.Subperm

/-!
# Placement

What holds of the ordering after every step: the items placed and the items that wait are exactly
those that read from placed items only, and every counter says how many connections of its item
are open. So no counter is lowered below zero, and when as many steps are taken as there are items
nothing waits any more.
-/
namespace FrameGraph.Dependency

/-- The items that an item reads from, one for every connection. -/
def sources (reads : Reads) (i : Nat) : List Nat := reads[i]?.getD []

/-- How many connections of an item come from items that are not placed. -/
def openCount (reads : Reads) (placed : List Nat) (i : Nat) : Nat :=
  (sources reads i).countP (· ∉ placed)

theorem count_readers (source : Nat) (l : List (List Nat)) (k i : Nat) :
    ((l.zipIdx k).flatMap fun (sources, reader) =>
      (sources.filter (· = source)).map fun _ => reader).count (k + i) =
      (l[i]?.getD []).count source := by
  induction l generalizing k i with
  | nil => simp
  | cons sources l ih =>
    rw [List.zipIdx_cons, List.flatMap_cons, List.count_append]
    show ((sources.filter (· = source)).map fun _ => k).count (k + i) + _ = _
    rw [List.map_const']
    cases i with
    | zero =>
      have hlater : k ∉ (l.zipIdx (k + 1)).flatMap fun (sources, reader) =>
          (sources.filter (· = source)).map fun _ => reader := by
        intro hmem
        obtain ⟨⟨later, j⟩, hj, hk⟩ := List.mem_flatMap.mp hmem
        obtain ⟨-, -, rfl⟩ := List.mem_map.mp hk
        have := (List.mem_zipIdx hj).1
        omega
      rw [Nat.add_zero, List.count_replicate_self, List.count_eq_zero_of_not_mem hlater]
      rw [List.getElem?_cons_zero, Option.getD_some, List.count_eq_length_filter]
      rfl
    | succ i =>
      have hlater := ih (k + 1) i
      rw [List.count_replicate, if_neg (by simp), Nat.zero_add, ← Nat.add_assoc,
        Nat.add_right_comm, hlater, List.getElem?_cons_succ]

theorem count_readersOf (reads : Reads) (source i : Nat) :
    (readersOf reads source).count i = (sources reads i).count source := by
  have h := count_readers source reads.toList 0 i
  rw [Nat.zero_add] at h
  rw [readersOf, h, sources, Array.getElem?_toList]

theorem mem_readersOf {reads : Reads} {source i : Nat} :
    i ∈ readersOf reads source ↔ source ∈ sources reads i := by
  rw [← List.count_pos_iff, count_readersOf, List.count_pos_iff]

theorem lt_size_of_mem_sources {reads : Reads} {i j : Nat} (h : j ∈ sources reads i) :
    i < reads.size := by
  by_cases hi : i < reads.size
  · exact hi
  · simp [sources, hi] at h

theorem openCount_eq_zero_iff {reads : Reads} {placed : List Nat} {i : Nat} :
    openCount reads placed i = 0 ↔ ∀ j ∈ sources reads i, j ∈ placed := by
  simp [openCount, List.countP_eq_zero]

/-- Placing an item closes the connections from it. -/
theorem openCount_cons {reads : Reads} {placed : List Nat} {source : Nat} (h : source ∉ placed)
    (i : Nat) : openCount reads placed i =
      (sources reads i).count source + openCount reads (source :: placed) i := by
  rw [openCount, openCount]
  induction sources reads i with
  | nil => rfl
  | cons j later ih =>
    rw [List.countP_cons, List.countP_cons, List.count_cons, ih]
    by_cases hj : j = source
    · subst hj
      simp [h]
      omega
    · by_cases hplaced : j ∈ placed
      · simp [hj, hplaced]
      · simp [hj, hplaced]
        omega

namespace Progress

/-- The counter of an item. -/
def counter (p : Progress) (i : Nat) : Nat := p.pending[i]?.getD 0

theorem counter_relax (p : Progress) {r : Nat} (hr : r < p.pending.size) (i : Nat) :
    (p.relax r).counter i = if i = r then p.counter r - 1 else p.counter i := by
  simp only [counter, relax, Array.getElem?_setIfInBounds]
  by_cases h : i = r
  · subst h
    simp [hr]
  · simp [h, Ne.symm h]

theorem pending_size_relax (p : Progress) (r : Nat) :
    (p.relax r).pending.size = p.pending.size := by
  simp [relax]

/-- Lowering counters one by one: each item joins the queue when its counter comes to zero. -/
theorem foldl_relax {readers : List Nat} {p : Progress}
    (hsize : ∀ r ∈ readers, r < p.pending.size)
    (henough : ∀ r, readers.count r ≤ p.counter r) :
    (readers.foldl relax p).waiting =
        p.waiting ++ readers.dedup.filter (fun r => p.counter r = readers.count r) ∧
      (readers.foldl relax p).placed = p.placed ∧
      (readers.foldl relax p).pending.size = p.pending.size ∧
      ∀ i, (readers.foldl relax p).counter i = p.counter i - readers.count i := by
  induction readers generalizing p with
  | nil => simp
  | cons r readers ih =>
    obtain ⟨hr, hreaders⟩ := List.forall_mem_cons.mp hsize
    have hcounter := counter_relax p hr
    have hpos := henough r
    rw [List.count_cons_self] at hpos
    have hleft : ∀ i, readers.count i ≤ (p.relax r).counter i := by
      intro i
      rw [hcounter]
      by_cases h : i = r
      · subst h
        rw [if_pos rfl]
        omega
      · have := henough i
        rw [List.count_cons_of_ne (Ne.symm h)] at this
        rwa [if_neg h]
    obtain ⟨hwaiting, hplaced, hsize', hcounters⟩ := ih
      (fun i hi => by rw [pending_size_relax]; exact hreaders i hi) hleft
    refine ⟨?_, hplaced, ?_, ?_⟩
    · rw [List.foldl_cons, hwaiting]
      have hsame : ∀ i ∈ readers.dedup, (decide ((p.relax r).counter i = readers.count i)) =
          decide (p.counter i = (r :: readers).count i) := by
        intro i _
        rw [hcounter]
        by_cases h : i = r
        · subst h
          rw [if_pos rfl, List.count_cons_self]
          simp only [decide_eq_decide]
          omega
        · rw [if_neg h, List.count_cons_of_ne (Ne.symm h)]
      rw [List.filter_congr hsame]
      by_cases hmem : r ∈ readers
      · have hmore := List.count_pos_iff.mpr hmem
        have hqueue : (p.relax r).waiting = p.waiting := by
          have : p.counter r - 1 ≠ 0 := by omega
          exact if_neg this
        rw [hqueue, List.dedup_cons_of_mem hmem]
      · have hnone := List.count_eq_zero_of_not_mem hmem
        rw [List.dedup_cons_of_notMem hmem]
        by_cases hone : p.counter r = 1
        · have hqueue : (p.relax r).waiting = p.waiting ++ [r] := by
            have : p.counter r - 1 = 0 := by omega
            exact if_pos this
          rw [hqueue, List.filter_cons_of_pos (by simp [hone, hnone]), List.append_assoc]
          rfl
        · have hqueue : (p.relax r).waiting = p.waiting := by
            have : p.counter r - 1 ≠ 0 := by omega
            exact if_neg this
          rw [hqueue, List.filter_cons_of_neg (by simp [hone, hnone])]
    · rw [List.foldl_cons, hsize', pending_size_relax]
    · intro i
      rw [List.foldl_cons, hcounters, hcounter]
      by_cases h : i = r
      · subst h
        rw [if_pos rfl, List.count_cons_self]
        omega
      · rw [if_neg h, List.count_cons_of_ne (Ne.symm h)]

/-- What holds after every step. -/
structure Valid (reads : Reads) (p : Progress) : Prop where
  size : p.pending.size = reads.size
  nodup : (p.waiting ++ p.placed).Nodup
  bounded : ∀ i ∈ p.waiting ++ p.placed, i < reads.size
  counter : ∀ i < reads.size, p.counter i = openCount reads p.placed i
  ready : ∀ i < reads.size, i ∈ p.waiting ++ p.placed ↔ ∀ j ∈ sources reads i, j ∈ p.placed
  ordered : ∀ later i earlier, p.placed = later ++ i :: earlier →
    ∀ j ∈ sources reads i, j ∈ earlier

variable {reads : Reads} {p : Progress}

theorem start_valid (reads : Reads) : Valid reads (start reads) := by
  have hcounter : ∀ i < reads.size, (start reads).counter i = (sources reads i).length := by
    intro i hi
    simp [counter, start, sources, hi]
  have hwaiting : ∀ i, i ∈ (start reads).waiting ++ (start reads).placed ↔
      i < reads.size ∧ sources reads i = [] := by
    intro i
    simp only [start, List.append_nil, List.mem_filter, List.mem_range, decide_eq_true_eq]
    constructor
    · rintro ⟨hi, hzero⟩
      simpa [sources, hi] using hzero
    · rintro ⟨hi, hnil⟩
      simpa [sources, hi] using hnil
  refine ⟨by simp [start], ?_, fun i hi => ((hwaiting i).mp hi).1, ?_, ?_, ?_⟩
  · simpa [start] using List.nodup_range.filter _
  · intro i hi
    rw [hcounter i hi]
    simp [openCount, start]
  · intro i hi
    rw [hwaiting]
    simp [start, hi, List.eq_nil_iff_forall_not_mem]
  · intro later i earlier h
    simp [start] at h

theorem Valid.next_not_placed (h : Valid reads p) {i : Nat} {waiting : List Nat}
    (hp : p.waiting = i :: waiting) : i ∉ p.placed := by
  have hnodup := h.nodup
  rw [hp, List.cons_append, List.nodup_cons, List.mem_append] at hnodup
  exact fun hi => hnodup.1 (.inr hi)

/-- No counter is lowered below zero. -/
theorem Valid.enough (h : Valid reads p) {i : Nat} {waiting : List Nat}
    (hp : p.waiting = i :: waiting) (r : Nat) : (readersOf reads i).count r ≤ p.counter r := by
  rw [count_readersOf]
  by_cases hr : r < reads.size
  · rw [h.counter r hr, openCount_cons (h.next_not_placed hp)]
    omega
  · simp [sources, hr]

/-- What a step does when something waits. -/
theorem Valid.step_eq (h : Valid reads p) {readers : Nat → List Nat}
    (hreaders : ∀ i < reads.size, readers i = readersOf reads i) {i : Nat} {waiting : List Nat}
    (hp : p.waiting = i :: waiting) :
    (p.step readers).waiting = waiting ++
        (readersOf reads i).dedup.filter (fun r => openCount reads (i :: p.placed) r = 0) ∧
      (p.step readers).placed = i :: p.placed ∧
      (p.step readers).pending.size = reads.size ∧
      ∀ r < reads.size, (p.step readers).counter r = openCount reads (i :: p.placed) r := by
  have hi : i < reads.size := h.bounded i (by simp [hp])
  have hplaced := h.next_not_placed hp
  have hsize : ∀ r ∈ readersOf reads i, r < p.pending.size := by
    intro r hr
    rw [h.size]
    exact lt_size_of_mem_sources (mem_readersOf.mp hr)
  have hcount : ∀ r < reads.size, p.counter r =
      (readersOf reads i).count r + openCount reads (i :: p.placed) r := by
    intro r hr
    rw [h.counter r hr, openCount_cons hplaced, count_readersOf]
  obtain ⟨hwaiting, hplaced', hsize', hcounter⟩ :=
    foldl_relax (p := { p with waiting, placed := i :: p.placed }) hsize (h.enough hp)
  have hstep : p.step readers =
      (readersOf reads i).foldl relax { p with waiting, placed := i :: p.placed } := by
    rw [step, hp]
    simp only [hreaders i hi]
  rw [hstep]
  refine ⟨?_, hplaced', by rw [hsize']; exact h.size, ?_⟩
  · rw [hwaiting]
    congr 1
    apply List.filter_congr
    intro r hr
    have hr : r < reads.size := by
      rw [← h.size]
      exact hsize r (List.mem_dedup.mp hr)
    have := hcount r hr
    simp only [decide_eq_decide]
    show p.counter r = _ ↔ _
    omega
  · intro r hr
    have := hcount r hr
    rw [hcounter]
    show p.counter r - _ = _
    omega

theorem Valid.step (h : Valid reads p) {readers : Nat → List Nat}
    (hreaders : ∀ i < reads.size, readers i = readersOf reads i) :
    Valid reads (p.step readers) := by
  cases hp : p.waiting with
  | nil =>
    have hstep : p.step readers = p := by rw [Progress.step, hp]
    rwa [hstep]
  | cons i waiting =>
    obtain ⟨hwaiting, hplaced, hsize, hcounter⟩ := h.step_eq hreaders hp
    have hmem : ∀ r, r ∈ (p.step readers).waiting ++ (p.step readers).placed ↔
        r ∈ p.waiting ++ p.placed ∨ i ∈ sources reads r ∧
          ∀ j ∈ sources reads r, j ∈ i :: p.placed := by
      intro r
      simp only [hwaiting, hplaced, hp, List.mem_append, List.mem_filter, List.mem_dedup,
        mem_readersOf, decide_eq_true_eq, openCount_eq_zero_iff]
      simp only [List.mem_cons]
      tauto
    have hnew : ∀ r, i ∈ sources reads r → r ∉ p.waiting ++ p.placed := by
      intro r hr hmem
      exact h.next_not_placed hp ((h.ready r (lt_size_of_mem_sources hr)).mp hmem i hr)
    refine ⟨hsize, ?_, ?_, ?_, ?_, ?_⟩
    · have hperm : ((p.step readers).waiting ++ (p.step readers).placed).Perm
          ((readersOf reads i).dedup.filter (fun r => openCount reads (i :: p.placed) r = 0) ++
            (p.waiting ++ p.placed)) := by
        rw [hwaiting, hplaced, hp]
        apply List.perm_iff_count.mpr
        intro r
        simp only [List.count_append, List.count_cons]
        omega
      rw [hperm.nodup_iff]
      refine List.nodup_append.mpr ⟨(List.nodup_dedup _).filter _, h.nodup, ?_⟩
      rintro r hr _ hold rfl
      have hsource := mem_readersOf.mp (List.mem_dedup.mp (List.mem_of_mem_filter hr))
      exact hnew r hsource hold
    · intro r hr
      obtain hold | ⟨hsource, -⟩ := (hmem r).mp hr
      · exact h.bounded r hold
      · exact lt_size_of_mem_sources hsource
    · intro r hr
      rw [hplaced, hcounter r hr]
    · intro r hr
      rw [hmem r, hplaced, h.ready r hr]
      constructor
      · rintro (hold | ⟨-, hall⟩)
        · exact fun j hj => List.mem_cons_of_mem _ (hold j hj)
        · exact hall
      · intro hall
        by_cases hsource : i ∈ sources reads r
        · exact .inr ⟨hsource, hall⟩
        · refine .inl fun j hj => (List.mem_cons.mp (hall j hj)).resolve_left ?_
          rintro rfl
          exact hsource hj
    · intro later r earlier hsplit
      rw [hplaced] at hsplit
      cases later with
      | nil =>
        cases hsplit
        exact (h.ready i (h.bounded i (by simp [hp]))).mp (by simp [hp])
      | cons k later => exact h.ordered later r earlier (List.cons.inj hsplit).2

theorem Valid.run (h : Valid reads p) {readers : Nat → List Nat}
    (hreaders : ∀ i < reads.size, readers i = readersOf reads i) (steps : Nat) :
    Valid reads (p.run readers steps) := by
  induction steps generalizing p with
  | zero => exact h
  | succ steps ih => exact ih (h.step hreaders)

theorem step_of_nil (readers : Nat → List Nat) (hp : p.waiting = []) : p.step readers = p := by
  rw [step, hp]

theorem run_of_nil (readers : Nat → List Nat) (hp : p.waiting = []) (steps : Nat) :
    p.run readers steps = p := by
  induction steps with
  | zero => rfl
  | succ steps ih => rw [run, step_of_nil readers hp, ih]

/-- As long as something waits, every step places an item. -/
theorem Valid.run_progress (h : Valid reads p) {readers : Nat → List Nat}
    (hreaders : ∀ i < reads.size, readers i = readersOf reads i) (steps : Nat) :
    (p.run readers steps).waiting = [] ∨
      (p.run readers steps).placed.length = p.placed.length + steps := by
  induction steps generalizing p with
  | zero => exact .inr rfl
  | succ steps ih =>
    cases hp : p.waiting with
    | nil => exact .inl (by rw [run_of_nil readers hp, hp])
    | cons i waiting =>
      obtain ⟨-, hplaced, -⟩ := h.step_eq hreaders hp
      obtain hdone | hlength := ih (h.step hreaders)
      · exact .inl hdone
      · refine .inr ?_
        rw [Progress.run, hlength, hplaced, List.length_cons]
        omega

theorem Valid.length_le (h : Valid reads p) :
    p.waiting.length + p.placed.length ≤ reads.size := by
  have hsubset : p.waiting ++ p.placed ⊆ List.range reads.size :=
    fun i hi => List.mem_range.mpr (h.bounded i hi)
  have hle := (List.subperm_of_subset h.nodup hsubset).length_le
  rwa [List.length_append, List.length_range] at hle

end Progress

/-- The ordering after so many steps. -/
def progress (reads : Reads) (steps : Nat) : Progress :=
  (Progress.start reads).run
    (fun i => ((Array.range reads.size).map (readersOf reads))[i]?.getD []) steps

/-- The ordering after as many steps as there are items. -/
def finish (reads : Reads) : Progress := progress reads reads.size

theorem lookup_readers (reads : Reads) : ∀ i < reads.size,
    ((Array.range reads.size).map (readersOf reads))[i]?.getD [] = readersOf reads i := by
  intro i hi
  simp [hi]

theorem progress_valid (reads : Reads) (steps : Nat) : (progress reads steps).Valid reads :=
  (Progress.start_valid reads).run (lookup_readers reads) steps

theorem finish_valid (reads : Reads) : (finish reads).Valid reads :=
  progress_valid reads reads.size

/-- The steps are enough: nothing is left waiting. -/
theorem finish_waiting (reads : Reads) : (finish reads).waiting = [] := by
  have hprogress := (Progress.start_valid reads).run_progress (lookup_readers reads) reads.size
  have hlength := (finish_valid reads).length_le
  obtain hdone | hplaced := hprogress
  · exact hdone
  · have hempty : (finish reads).waiting.length = 0 := by
      rw [← progress, ← finish] at hplaced
      omega
    exact List.length_eq_zero_iff.mp hempty

/-- In the end an item is placed exactly if all that it reads from is. -/
theorem mem_placed_iff {reads : Reads} {i : Nat} (hi : i < reads.size) :
    i ∈ (finish reads).placed ↔ ∀ j ∈ sources reads i, j ∈ (finish reads).placed := by
  have hready := (finish_valid reads).ready i hi
  rwa [finish_waiting, List.nil_append] at hready

theorem placed_length_lt_iff (reads : Reads) :
    (finish reads).placed.length < reads.size ↔ ∃ i < reads.size, i ∉ (finish reads).placed := by
  have hnodup : (finish reads).placed.Nodup := (finish_valid reads).nodup.of_append_right
  have hbounded : (finish reads).placed ⊆ List.range reads.size := fun i hi =>
    List.mem_range.mpr ((finish_valid reads).bounded i (List.mem_append_right _ hi))
  constructor
  · intro hlength
    by_contra hall
    have hsubset : List.range reads.size ⊆ (finish reads).placed := by
      intro i hi
      by_contra hplaced
      exact hall ⟨i, List.mem_range.mp hi, hplaced⟩
    have hle := (List.subperm_of_subset List.nodup_range hsubset).length_le
    rw [List.length_range] at hle
    omega
  · rintro ⟨i, hi, hplaced⟩
    by_contra hlength
    have hperm := (List.subperm_of_subset hnodup hbounded).perm_of_length_le
      (by rw [List.length_range]; omega)
    exact hplaced (hperm.mem_iff.mpr (List.mem_range.mpr hi))

/-- What ordering gives, in terms of the items placed in the end. -/
theorem sort_eq (reads : Reads) : sort reads =
    if ∃ i < reads.size, i ∉ (finish reads).placed then
      .cyclic ((List.range reads.size).filter fun i => i ∉ (finish reads).placed)
    else .complete (finish reads).placed.reverse := by
  have hleft : (List.range reads.size).filter (fun i => 0 < (finish reads).counter i) =
      (List.range reads.size).filter fun i => i ∉ (finish reads).placed := by
    apply List.filter_congr
    intro i hi
    have hi := List.mem_range.mp hi
    rw [decide_eq_decide, (finish_valid reads).counter i hi, Nat.pos_iff_ne_zero, Ne,
      openCount_eq_zero_iff, mem_placed_iff hi]
  simp only [← placed_length_lt_iff, ← hleft]
  rfl

end FrameGraph.Dependency
