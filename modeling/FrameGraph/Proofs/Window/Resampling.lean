import FrameGraph.Proofs.Image.Places
import FrameGraph.Window.Display

/-!
# Resampling

What a display shows of its source. A pixel takes the place of the source that is as far along as it
is itself: the quotient of its column times the source's width by its own frame's width, and the
same for rows. The quotient stays inside the source, and in a frame that is no smaller than the
source it takes every value. `resample?` draws pixel by pixel, with everything checked that
could fail on the way, and it never does.
-/
namespace FrameGraph

/-- The columns of the data. -/
def Output.width : Output → Nat
  | matrix m => m.width
  | surface s => s.width

/-- The rows of the data. -/
def Output.height : Output → Nat
  | matrix m => m.height
  | surface s => s.height

namespace Window

/-- What a source shows at full size: its own pixels, or the gray of its reals. -/
def picture : Output → Surface
  | .matrix m => m.map gray
  | .surface s => s

/-- The pixel for a place of a source, if the place is inside. -/
def pixel? : Output → Nat → Nat → Option UInt32
  | .matrix m, x, y => (m.pick? x y).map gray
  | .surface s, x, y => s.pick? x y

/-- The quotient of a division, unless it is one by zero. -/
def div? (a n : Nat) : Option Nat := if n = 0 then none else some (a / n)

/-- Draws a source over a whole frame, pixel after pixel. It fails at a division by zero, where
there is no sample, and at a pixel outside the frame. -/
def resample? (frame : Surface) (sourceWidth sourceHeight : Nat)
    (sample? : Nat → Nat → Option UInt32) : Option Surface :=
  if sourceWidth = 0 ∨ sourceHeight = 0 then some frame
  else
    (List.range frame.height).foldlM (fun frame y => do
      let j ← div? (y * sourceHeight) frame.height
      (List.range frame.width).foldlM (fun frame x => do
        let i ← div? (x * sourceWidth) frame.width
        frame.put? x y (← sample? i j)) frame) frame

/-- Draws an output over a whole frame, pixel after pixel. -/
def draw? (frame : Surface) (source : Output) : Option Surface :=
  resample? frame source.width source.height (pixel? source)

/-! ## Scaled places -/

variable {i x size source : Nat}

theorem div?_of_pos (hsize : 0 < size) (x : Nat) : div? x size = some (x / size) :=
  if_neg (by omega)

theorem scaled_lt (hsource : 0 < source) (hx : x < size) : x * source / size < source := by
  rw [Nat.div_lt_iff_lt_mul (by omega), Nat.mul_comm source]
  exact Nat.mul_lt_mul_of_pos_right hx hsource

theorem scaled_self (hx : x < size) : x * size / size = x :=
  Nat.mul_div_cancel x (by omega)

/-- In a frame no smaller than the source every place of the source is met: rounding up how far
along it is gives a place that is scaled down to it. -/
theorem exists_scaled (hle : source ≤ size) (hi : i < source) :
    ∃ x < size, x * source / size = i := by
  obtain ⟨x, hlow, hnear⟩ : ∃ x, i * size ≤ x * source ∧ x * source < i * size + source := by
    refine ⟨(i * size + (source - 1)) / source, ?_⟩
    have hquotient := Nat.div_add_mod' (i * size + (source - 1)) source
    have hrest := Nat.mod_lt (i * size + (source - 1)) (by omega : 0 < source)
    omega
  have hhigh : x * source < (i + 1) * size := by
    rw [Nat.succ_mul]
    omega
  refine ⟨x, ?_, Nat.div_eq_of_lt_le hlow hhigh⟩
  have hlast : (i + 1) * size ≤ size * source := by
    rw [Nat.mul_comm size]
    exact Nat.mul_le_mul_right size hi
  exact Nat.lt_of_mul_lt_mul_right (Nat.lt_of_lt_of_le hhigh hlast)

/-! ## Drawing -/

variable {frame : Surface} {sourceWidth sourceHeight : Nat}
  {sample? : Nat → Nat → Option UInt32} {sample : Nat → Nat → UInt32}

/-- Drawing pixel by pixel is a walk over the whole frame, and nothing on it fails. -/
theorem resample?_eq_paint (hwidth : 0 < sourceWidth) (hheight : 0 < sourceHeight)
    (hsample : ∀ i j, i < sourceWidth → j < sourceHeight → sample? i j = some (sample i j)) :
    resample? frame sourceWidth sourceHeight sample? =
      some (frame.paint List.range (List.range frame.height) (fun _ _ => true) fun x y =>
        sample (x * sourceWidth / frame.width) (y * sourceHeight / frame.height)) := by
  rw [resample?, if_neg (by omega)]
  refine Grid.foldlM_eq_paint fun g hgw hgh y hy => ?_
  have hy : y < frame.height := List.mem_range.mp hy
  rw [hgh, div?_of_pos (by omega)]
  refine Grid.foldlM_eq_paintRow fun g' hgw' hgh' x hx => ?_
  rw [hgw] at hgw' hx
  rw [hgh] at hgh'
  have hx : x < frame.width := List.mem_range.mp hx
  rw [hgw', div?_of_pos (by omega)]
  simp [hsample _ _ (scaled_lt hwidth hx) (scaled_lt hheight hy), Grid.put?_of_inside, hgw', hgh',
    hx, hy]

theorem get?_resample (hwidth : 0 < sourceWidth) (hheight : 0 < sourceHeight)
    {x y : Nat} (hx : x < frame.width) (hy : y < frame.height) :
    (resample frame sourceWidth sourceHeight sample).get? x y =
      some (sample (x * sourceWidth / frame.width) (y * sourceHeight / frame.height)) := by
  obtain ⟨p, hp⟩ := Grid.exists_get? hx hy
  rw [resample, if_neg (by omega), Grid.get?_mapPlaces _ hx, hp, Option.map_some]

theorem resample_size : (resample frame sourceWidth sourceHeight sample).width = frame.width ∧
    (resample frame sourceWidth sourceHeight sample).height = frame.height := by
  rw [resample]
  split <;> exact ⟨rfl, rfl⟩

/-- Drawing pixel by pixel draws what drawing all at once does. -/
theorem resample?_eq
    (hsample : ∀ i j, i < sourceWidth → j < sourceHeight → sample? i j = some (sample i j)) :
    resample? frame sourceWidth sourceHeight sample? =
      some (resample frame sourceWidth sourceHeight sample) := by
  by_cases hempty : sourceWidth = 0 ∨ sourceHeight = 0
  · rw [resample?, resample, if_pos hempty, if_pos hempty]
  · have hwidth : 0 < sourceWidth := by omega
    have hheight : 0 < sourceHeight := by omega
    rw [resample?_eq_paint hwidth hheight hsample]
    congr 1
    refine Grid.ext_get? (by simp [resample_size]) (by simp [resample_size]) fun x y hx hy => ?_
    rw [Grid.paint_width] at hx
    rw [Grid.paint_height] at hy
    rw [get?_resample hwidth hheight hx hy, Grid.get?_paint (by simp) (by simp) hx, if_pos]
    simp [hx, hy]

/-! ## Sources -/

theorem picture_width (source : Output) : (picture source).width = source.width := by
  cases source <;> rfl

theorem picture_height (source : Output) : (picture source).height = source.height := by
  cases source <;> rfl

theorem pixel?_eq_picture {source : Output} {i j : Nat} (hi : i < source.width)
    (hj : j < source.height) : pixel? source i j = (picture source).get? i j := by
  cases source with
  | matrix m => rw [pixel?, picture, Grid.pick?_of_inside hi hj, Grid.get?_map]
  | surface s => rw [pixel?, picture, Grid.pick?_of_inside hi hj]

/-- A source is drawn with the pixels of its places. -/
theorem exists_sample (source : Output) : ∃ sample,
    (∀ frame, draw frame source = resample frame source.width source.height sample) ∧
      ∀ i j, i < source.width → j < source.height → pixel? source i j = some (sample i j) := by
  cases source with
  | matrix m =>
    refine ⟨fun i j => gray ((m.get? i j).getD 0), fun frame => rfl, fun i j hi hj => ?_⟩
    obtain ⟨a, ha⟩ := Grid.exists_get? (g := m) hi hj
    simp [pixel?, Grid.pick?_of_inside (g := m) hi hj, ha]
  | surface s =>
    refine ⟨fun i j => (s.get? i j).getD 0, fun frame => rfl, fun i j hi hj => ?_⟩
    obtain ⟨p, hp⟩ := Grid.exists_get? (g := s) hi hj
    simp [pixel?, Grid.pick?_of_inside (g := s) hi hj, hp]

theorem draw?_eq (frame : Surface) (source : Output) :
    draw? frame source = some (draw frame source) := by
  obtain ⟨sample, hdraw, hsample⟩ := exists_sample source
  rw [draw?, hdraw, resample?_eq hsample]

/-- A frame over which a source has been drawn. -/
structure Resampled (source : Output) (frame drawn : Surface) : Prop where
  width : drawn.width = frame.width
  height : drawn.height = frame.height
  /-- A source without cells draws nothing. -/
  kept : source.width = 0 ∨ source.height = 0 → drawn = frame
  /-- Every pixel has a place in any other source. -/
  inside {x y : Nat} (hwidth : 0 < source.width) (hheight : 0 < source.height)
    (hx : x < frame.width) (hy : y < frame.height) :
    x * source.width / frame.width < source.width ∧ y * source.height / frame.height < source.height
  /-- It shows what is there. -/
  shows {x y : Nat} (hwidth : 0 < source.width) (hheight : 0 < source.height)
    (hx : x < frame.width) (hy : y < frame.height) :
    ∃ p, drawn.get? x y = some p ∧
      pixel? source (x * source.width / frame.width) (y * source.height / frame.height) = some p
  /-- A source of the frame's size is copied. -/
  copied (hwidth : source.width = frame.width) (hheight : source.height = frame.height) :
    drawn = picture source
  /-- Of a source that is not larger than the frame, every place is shown. -/
  shown {i j : Nat} (hwidth : source.width ≤ frame.width) (hheight : source.height ≤ frame.height)
    (hi : i < source.width) (hj : j < source.height) :
    ∃ x y p, x < frame.width ∧ y < frame.height ∧ x * source.width / frame.width = i ∧
      y * source.height / frame.height = j ∧ drawn.get? x y = some p ∧ pixel? source i j = some p

theorem draw_resampled (frame : Surface) (source : Output) :
    Resampled source frame (draw frame source) := by
  obtain ⟨sample, hdraw, hsample⟩ := exists_sample source
  rw [hdraw]
  have hshows {x y : Nat} (hwidth : 0 < source.width) (hheight : 0 < source.height)
      (hx : x < frame.width) (hy : y < frame.height) :
      (resample frame source.width source.height sample).get? x y =
          some (sample (x * source.width / frame.width) (y * source.height / frame.height)) ∧
        pixel? source (x * source.width / frame.width) (y * source.height / frame.height) =
          some (sample (x * source.width / frame.width) (y * source.height / frame.height)) :=
    ⟨get?_resample hwidth hheight hx hy, hsample _ _ (scaled_lt hwidth hx) (scaled_lt hheight hy)⟩
  refine ⟨resample_size.1, resample_size.2, fun hempty => if_pos hempty,
    fun hwidth hheight hx hy => ⟨scaled_lt hwidth hx, scaled_lt hheight hy⟩,
    fun hwidth hheight hx hy => ⟨_, hshows hwidth hheight hx hy⟩, fun hwidth hheight => ?_,
    fun {i j} hwidth hheight hi hj => ?_⟩
  · refine Grid.ext_get? (resample_size.1.trans (hwidth.symm.trans (picture_width source).symm))
      (resample_size.2.trans (hheight.symm.trans (picture_height source).symm))
      fun x y hx hy => ?_
    rw [resample_size.1] at hx
    rw [resample_size.2] at hy
    rw [get?_resample (by omega) (by omega) hx hy, hwidth, hheight, scaled_self hx,
      scaled_self hy, ← pixel?_eq_picture (by omega) (by omega), hsample _ _ (by omega) (by omega)]
  · obtain ⟨x, hx, rfl⟩ := exists_scaled hwidth hi
    obtain ⟨y, hy, rfl⟩ := exists_scaled hheight hj
    exact ⟨x, y, _, hx, hy, rfl, rfl,
      hshows (Nat.zero_lt_of_lt hi) (Nat.zero_lt_of_lt hj) hx hy⟩

example : (draw (.blank 4 2) (.surface ⟨2, 1, #[0, 1], rfl⟩)).cells =
    #[0, 0, 1, 1, 0, 0, 1, 1] := by
  decide

/-- One update of a display draws its source over the whole frame, whatever their sizes are, and
nothing on the way fails: no division is by zero, no place of the source is looked up outside it,
and no pixel is written outside the frame. -/
theorem updateDisplay_resamples (v : NodeView) {frame : Surface} {presented : Nat} {source : Output}
    (hstate : v.state = some (.display frame presented)) (hsource : v.output? 0 = some source) :
    ∃ drawn, updateDisplay v = ⟨some (.display drawn (presented + 1)), []⟩ ∧
      draw? frame source = some drawn ∧ Resampled source frame drawn := by
  refine ⟨draw frame source, ?_, draw?_eq frame source, draw_resampled frame source⟩
  rw [updateDisplay, hstate, hsource]

theorem updateDisplay_resamples_double :
    let source : Surface := ⟨2, 1, #[0, 1], rfl⟩
    let v : NodeView :=
      { name := "view"
        typeName := "display"
        owner := .root
        params := []
        state := some (.display (.blank 4 2) 0)
        shape := none
        inputs := [("source", some (.surface source))]
        window? := fun _ => none }
    ∃ drawn, updateDisplay v = ⟨some (.display drawn 1), []⟩ ∧
      draw? (.blank 4 2) (.surface source) = some drawn ∧
      Resampled (.surface source) (.blank 4 2) drawn :=
  updateDisplay_resamples _ rfl rfl

end Window

end FrameGraph
