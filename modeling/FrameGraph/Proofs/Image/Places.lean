import FrameGraph.Image

/-!
# Places of a grid

A place inside a grid has a cell, and different places inside have different cells: storage goes row
by row, so the column is the remainder by the width and the row is the quotient. Every update of a
grid comes down to cells that are replaced one after the other while the size stays. What a whole
walk over columns and rows leaves at a place is in `get?_paint`.
-/
namespace FrameGraph.Grid

variable {α β : Type} {g h : Grid α} {x y x' y' : Nat} {a : α}

theorem index_lt (hx : x < g.width) (hy : y < g.height) : g.index x y < g.cells.size := by
  have hrow := Nat.mul_le_mul_right g.width (show y + 1 ≤ g.height from hy)
  rw [Nat.succ_mul] at hrow
  rw [index, g.size_cells, Nat.mul_comm g.width]
  omega

theorem index_mod (hx : x < g.width) (y : Nat) : g.index x y % g.width = x := by
  rw [index, Nat.mul_comm, Nat.mul_add_mod, Nat.mod_eq_of_lt hx]

theorem index_div (hx : x < g.width) (y : Nat) : g.index x y / g.width = y := by
  rw [index, Nat.mul_comm, Nat.mul_add_div (by omega), Nat.div_eq_of_lt hx, Nat.add_zero]

theorem index_inj (hx : x < g.width) (hx' : x' < g.width) :
    g.index x y = g.index x' y' ↔ x = x' ∧ y = y' := by
  constructor
  · intro h
    exact ⟨by rw [← index_mod hx y, h, index_mod hx'], by rw [← index_div hx y, h, index_div hx']⟩
  · rintro ⟨rfl, rfl⟩
    rfl

theorem exists_get? (hx : x < g.width) (hy : y < g.height) : ∃ a, g.get? x y = some a :=
  ⟨_, Array.getElem?_eq_getElem (index_lt hx hy)⟩

theorem get?_set (hx : x < g.width) (hy : y < g.height) (hx' : x' < g.width) :
    (g.set x y a).get? x' y' = if x = x' ∧ y = y' then some a else g.get? x' y' := by
  show (g.cells.setIfInBounds (g.index x y) a)[g.index x' y']? = _
  rw [Array.getElem?_setIfInBounds, if_pos (index_lt hx hy)]
  simp only [index_inj hx hx', get?]

theorem get?_map (f : α → β) : (g.map f).get? x y = (g.get? x y).map f :=
  Array.getElem?_mapIdx

theorem get?_mapPlaces (f : Nat → Nat → α → β) (hx : x < g.width) :
    (g.mapPlaces f).get? x y = (g.get? x y).map (f x y) := by
  show (g.cells.mapIdx fun i => f (i % g.width) (i / g.width))[g.index x y]? = _
  rw [Array.getElem?_mapIdx, index_mod hx, index_div hx]
  rfl

/-- A grid is its size and what is at the places inside. -/
theorem ext_get? (hwidth : g.width = h.width) (hheight : g.height = h.height)
    (hcells : ∀ x y, x < g.width → y < g.height → g.get? x y = h.get? x y) : g = h := by
  obtain ⟨width, height, cells, hsize⟩ := g
  obtain ⟨width', height', cells', hsize'⟩ := h
  obtain rfl : width = width' := hwidth
  obtain rfl : height = height' := hheight
  congr 1
  refine Array.ext (hsize.trans hsize'.symm) fun i hi hi' => ?_
  have hwidth : 0 < width := Nat.pos_of_ne_zero fun h => by simp [hsize, h] at hi
  have hcell := hcells (i % width) (i / width) (Nat.mod_lt i hwidth)
    ((Nat.div_lt_iff_lt_mul hwidth).mpr (by rwa [hsize, Nat.mul_comm] at hi))
  simpa [get?, index, Nat.div_add_mod', hi, hi'] using hcell

/-! ## Checked access -/

/-- The cell at a place, if the place is inside. -/
def pick? (g : Grid α) (x y : Nat) : Option α :=
  if x < g.width ∧ y < g.height then g.get? x y else none

/-- Replaces the cell at a place, if the place is inside. -/
def put? (g : Grid α) (x y : Nat) (a : α) : Option (Grid α) :=
  if x < g.width ∧ y < g.height then some (g.set x y a) else none

theorem pick?_of_inside (hx : x < g.width) (hy : y < g.height) : g.pick? x y = g.get? x y :=
  if_pos ⟨hx, hy⟩

theorem put?_of_inside (hx : x < g.width) (hy : y < g.height) :
    g.put? x y a = some (g.set x y a) :=
  if_pos ⟨hx, hy⟩

/-! ## Walks -/

variable {columns rows : List Nat} {chosen : Nat → Nat → Bool} {value : Nat → Nat → α}

/-- Replaces the chosen cells of a row, column after column. -/
def paintRow (columns : List Nat) (y : Nat) (chosen : Nat → Nat → Bool) (value : Nat → Nat → α)
    (g : Grid α) : Grid α :=
  columns.foldl (fun g x => if chosen x y then g.set x y (value x y) else g) g

/-- Replaces the chosen cells, row after row. Which columns there are in a row goes by the width of
the grid as it is then. -/
def paint (columns : Nat → List Nat) (rows : List Nat) (chosen : Nat → Nat → Bool)
    (value : Nat → Nat → α) (g : Grid α) : Grid α :=
  rows.foldl (fun g y => g.paintRow (columns g.width) y chosen value) g

theorem paintRow_cons : g.paintRow (x :: columns) y chosen value =
    (if chosen x y then g.set x y (value x y) else g).paintRow columns y chosen value := rfl

theorem paint_cons {columns : Nat → List Nat} : g.paint columns (y :: rows) chosen value =
    (g.paintRow (columns g.width) y chosen value).paint columns rows chosen value := rfl

@[simp] theorem paintRow_width : (g.paintRow columns y chosen value).width = g.width := by
  induction columns generalizing g with
  | nil => rfl
  | cons x columns ih =>
    rw [paintRow_cons, ih]
    split <;> rfl

@[simp] theorem paintRow_height : (g.paintRow columns y chosen value).height = g.height := by
  induction columns generalizing g with
  | nil => rfl
  | cons x columns ih =>
    rw [paintRow_cons, ih]
    split <;> rfl

theorem get?_paintRow (hcolumns : ∀ x ∈ columns, x < g.width) (hy : y < g.height)
    (hx' : x' < g.width) :
    (g.paintRow columns y chosen value).get? x' y' =
      if y = y' ∧ x' ∈ columns ∧ chosen x' y' then some (value x' y') else g.get? x' y' := by
  induction columns generalizing g with
  | nil => simp [paintRow]
  | cons x columns ih =>
    obtain ⟨hx, hcolumns⟩ := List.forall_mem_cons.mp hcolumns
    rw [paintRow_cons]
    split
    · rw [ih (g := g.set x y _) hcolumns hy hx', get?_set hx hy hx']
      grind
    · rw [ih hcolumns hy hx']
      grind

variable {columns : Nat → List Nat}

@[simp] theorem paint_width : (g.paint columns rows chosen value).width = g.width := by
  induction rows generalizing g with
  | nil => rfl
  | cons y rows ih => rw [paint_cons, ih, paintRow_width]

@[simp] theorem paint_height : (g.paint columns rows chosen value).height = g.height := by
  induction rows generalizing g with
  | nil => rfl
  | cons y rows ih => rw [paint_cons, ih, paintRow_height]

/-- After a walk, a place that was passed and is chosen has its value, and any other place has what
it had before: however often the walk comes by, it never writes to another place. -/
theorem get?_paint (hcolumns : ∀ x ∈ columns g.width, x < g.width)
    (hrows : ∀ y ∈ rows, y < g.height) (hx' : x' < g.width) :
    (g.paint columns rows chosen value).get? x' y' =
      if y' ∈ rows ∧ x' ∈ columns g.width ∧ chosen x' y' then some (value x' y')
      else g.get? x' y' := by
  induction rows generalizing g with
  | nil => simp [paint]
  | cons y rows ih =>
    obtain ⟨hy, hrows⟩ := List.forall_mem_cons.mp hrows
    have hrest := ih (g := g.paintRow (columns g.width) y chosen value)
    rw [paintRow_width, paintRow_height] at hrest
    rw [paint_cons, hrest hcolumns hrows hx', get?_paintRow hcolumns hy hx']
    grind

/-! ## Checked walks -/

/-- A loop whose rounds all succeed, as long as what they keep holds, succeeds. -/
theorem foldlM_eq_some {σ ι : Type} {I : σ → Prop} {f : σ → ι → Option σ} {f' : σ → ι → σ}
    {l : List ι} (hstep : ∀ s, I s → ∀ i ∈ l, f s i = some (f' s i) ∧ I (f' s i)) {s : σ}
    (hs : I s) : l.foldlM f s = some (l.foldl f' s) ∧ I (l.foldl f' s) := by
  induction l generalizing s with
  | nil => exact ⟨rfl, hs⟩
  | cons i l ih =>
    obtain ⟨hround, hkept⟩ := hstep s hs i List.mem_cons_self
    rw [List.foldlM_cons, hround]
    exact ih (fun s hs i hi => hstep s hs i (List.mem_cons_of_mem _ hi)) hkept

/-- A walk along a row that checks more than `paintRow` does, but finds everything in order. -/
theorem foldlM_eq_paintRow {columns : List Nat} {f : Grid α → Nat → Option (Grid α)}
    (hround : ∀ g', g'.width = g.width → g'.height = g.height → ∀ x ∈ columns,
      f g' x = some (if chosen x y then g'.set x y (value x y) else g')) :
    columns.foldlM f g = some (g.paintRow columns y chosen value) := by
  refine (foldlM_eq_some (I := fun g' => g'.width = g.width ∧ g'.height = g.height)
    (fun g' ⟨hwidth, hheight⟩ x hx => ⟨hround g' hwidth hheight x hx, ?_⟩) ⟨rfl, rfl⟩).1
  split <;> exact ⟨hwidth, hheight⟩

/-- A walk over rows that checks more than `paint` does, but finds everything in order. -/
theorem foldlM_eq_paint {f : Grid α → Nat → Option (Grid α)}
    (hround : ∀ g', g'.width = g.width → g'.height = g.height → ∀ y ∈ rows,
      f g' y = some (g'.paintRow (columns g'.width) y chosen value)) :
    rows.foldlM f g = some (g.paint columns rows chosen value) :=
  (foldlM_eq_some (I := fun g' => g'.width = g.width ∧ g'.height = g.height)
    (fun g' ⟨hwidth, hheight⟩ y hy => ⟨hround g' hwidth hheight y hy,
      paintRow_width.trans hwidth, paintRow_height.trans hheight⟩) ⟨rfl, rfl⟩).1

end FrameGraph.Grid
