import FrameGraph.Proofs.Image.Places
import FrameGraph.Proofs.Window.Coordinates
import Mathlib

/-!
# Stamping

What one frame does to a trail while the pointer is in the window. The disc is cut off at the edges
of the trail, and cutting off takes nothing from the disc that is inside: a place of the disc is
never further from its centre than the radius, in either direction. So every place of the disc is
set, every other place has faded once, and the sides of a trail are short enough for all numbers on
the way to fit into words of 64 bits.
-/
namespace FrameGraph.Window

/-- A number, if a signed word of 64 bits can hold it. -/
def word? (n : Int) : Option Int :=
  if Int64.minValue.toInt ≤ n ∧ n ≤ Int64.maxValue.toInt then some n else none

/-- The numbers that `reach` gives, with every bound computed in words. -/
def reach? (c radius : Int) (size : Nat) : Option (List Nat) := do
  let low := max (← word? (c - radius)) 0
  let high := min (← word? (c + radius)) (← word? ((← word? size) - 1))
  return List.range' low.toNat (high + 1 - low).toNat

/-- Decides what `inDisc` does, with every number computed in words. -/
def inDisc? (cx cy radius : Int) (x y : Nat) : Option Bool := do
  let dx ← word? (x - cx)
  let dy ← word? (y - cy)
  let distance ← word? ((← word? (dx * dx)) + (← word? (dy * dy)))
  return distance ≤ (← word? (radius * radius))

/-- Stamps a disc as `stamp` does, with every number computed in words and every place looked up
inside the matrix. -/
def stamp? (m : Matrix) (cx cy radius : Int) : Option Matrix := do
  (← reach? cy radius m.height).foldlM (fun m y => do
    (← reach? cx radius m.width).foldlM (fun m x => do
      if ← inDisc? cx cy radius x y then m.put? x y 1 else return m) m) m

/-- The next trail as `nextTrail` gives it, with every number computed in words and every place
looked up inside the trail. -/
def nextTrail? (trail : Matrix) (decay : Float32) (radius : Int)
    (pointer : Option (Float32 × Float32)) : Option Matrix := do
  let radius := max 0 (min radius (← word? (max trail.width trail.height)))
  let faded := trail.map (· * decay)
  match pointer with
  | none => return faded
  | some (x, y) => stamp? faded (← word? (wholePart x)) (← word? (wholePart y)) radius

/-- The number is not negative, and no larger than an edge can be. -/
def Short (n : Int) : Prop := 0 ≤ n ∧ n ≤ maxEdge

theorem word?_of_bounds {n : Int} (hlow : -2 ^ 63 ≤ n) (hhigh : n < 2 ^ 63) : word? n = some n := by
  have hmin : Int64.minValue.toInt = -2 ^ 63 := rfl
  have hmax : Int64.maxValue.toInt = 2 ^ 63 - 1 := rfl
  exact if_pos (by omega)

variable {c cx cy radius : Int} {size x y : Nat} {m : Matrix}

/-! ## Words -/

theorem reach?_eq (hc : Short c) (hradius : Short radius) (hsize : size ≤ maxEdge) :
    reach? c radius size = some (reach c radius size) := by
  obtain ⟨hc, hc'⟩ := hc
  obtain ⟨hr, hr'⟩ := hradius
  rw [maxEdge] at *
  have hlow := word?_of_bounds (n := c - radius) (by omega) (by omega)
  have hhigh := word?_of_bounds (n := c + radius) (by omega) (by omega)
  have hedge := word?_of_bounds (n := size) (by omega) (by omega)
  have hlast := word?_of_bounds (n := size - 1) (by omega) (by omega)
  have hfirst : (max (c - radius) 0).toNat = (c - radius).toNat := by omega
  have hcount : (min (c + radius) (size - 1 : Int) + 1 - max (c - radius) 0).toNat =
      min (c + radius + 1).toNat size - (c - radius).toNat := by omega
  simp [reach?, reach, hlow, hhigh, hedge, hlast, hfirst, hcount]

/-- The difference of two short numbers has a square that fits into a word, with room to spare. -/
theorem word?_square {a b : Int} (ha : Short a) (hb : Short b) :
    word? (a - b) = some (a - b) ∧ word? ((a - b) * (a - b)) = some ((a - b) * (a - b)) ∧
      0 ≤ (a - b) * (a - b) ∧ (a - b) * (a - b) ≤ 2 ^ 26 := by
  obtain ⟨ha, ha'⟩ := ha
  obtain ⟨hb, hb'⟩ := hb
  rw [maxEdge] at *
  have hsquare : (a - b) * (a - b) ≤ 2 ^ 26 := by
    have hlow : -2 ^ 13 ≤ a - b := by omega
    have hhigh : a - b ≤ 2 ^ 13 := by omega
    nlinarith
  have hpos := mul_self_nonneg (a - b)
  exact ⟨word?_of_bounds (by omega) (by omega), word?_of_bounds (by omega) (by omega), hpos,
    hsquare⟩

theorem inDisc?_eq (hcx : Short cx) (hcy : Short cy) (hradius : Short radius) (hx : x ≤ maxEdge)
    (hy : y ≤ maxEdge) : inDisc? cx cy radius x y = some (inDisc cx cy radius x y) := by
  obtain ⟨hdx, hdx', hx0, hx1⟩ := word?_square (a := x) ⟨by omega, by omega⟩ hcx
  obtain ⟨hdy, hdy', hy0, hy1⟩ := word?_square (a := y) ⟨by omega, by omega⟩ hcy
  obtain ⟨-, hr, -, -⟩ := word?_square (b := 0) hradius ⟨le_rfl, by decide⟩
  have hsum : word? ((x - cx) * (x - cx) + (y - cy) * (y - cy)) =
      some ((x - cx) * (x - cx) + (y - cy) * (y - cy)) :=
    word?_of_bounds (by omega) (by omega)
  rw [Int.sub_zero] at hr
  simp [inDisc?, inDisc, hdx, hdx', hdy, hdy', hr, hsum]

/-! ## The disc -/

theorem mem_reach : x ∈ reach c radius size ↔ c - radius ≤ x ∧ x ≤ c + radius ∧ x < size := by
  rw [reach, List.mem_range'_1]
  omega

theorem stamp_eq_paint (m : Matrix) (cx cy radius : Int) :
    stamp m cx cy radius =
      m.paint (reach cx radius) (reach cy radius m.height) (inDisc cx cy radius) (fun _ _ => 1) :=
  rfl

/-- A place of the disc is within reach of its centre. -/
theorem within_reach_of_inDisc (hradius : 0 ≤ radius) (h : inDisc cx cy radius x y) :
    (cx - radius ≤ x ∧ x ≤ cx + radius) ∧ cy - radius ≤ y ∧ y ≤ cy + radius := by
  have hdisc : (x - cx) * (x - cx) + (y - cy) * (y - cy) ≤ radius * radius := of_decide_eq_true h
  have hx := abs_le_of_sq_le_sq (a := (x - cx : Int)) (b := radius) (by nlinarith) hradius
  have hy := abs_le_of_sq_le_sq (a := (y - cy : Int)) (b := radius) (by nlinarith) hradius
  rw [abs_le] at hx hy
  omega

theorem get?_stamp (hradius : 0 ≤ radius) (hx : x < m.width) (hy : y < m.height) :
    (stamp m cx cy radius).get? x y = if inDisc cx cy radius x y then some 1 else m.get? x y := by
  have hcolumns : ∀ x ∈ reach cx radius m.width, x < m.width := fun x h => (mem_reach.mp h).2.2
  have hrows : ∀ y ∈ reach cy radius m.height, y < m.height := fun y h => (mem_reach.mp h).2.2
  have hmet : (y ∈ reach cy radius m.height ∧ x ∈ reach cx radius m.width ∧
      inDisc cx cy radius x y) ↔ inDisc cx cy radius x y := by
    refine ⟨fun h => h.2.2, fun h => ?_⟩
    obtain ⟨⟨hlow, hhigh⟩, hlow', hhigh'⟩ := within_reach_of_inDisc hradius h
    exact ⟨mem_reach.mpr ⟨hlow', hhigh', hy⟩, mem_reach.mpr ⟨hlow, hhigh, hx⟩, h⟩
  rw [stamp_eq_paint, Grid.get?_paint hcolumns hrows hx]
  exact if_congr hmet rfl rfl

/-- A disc is stamped without a failure. -/
theorem stamp?_eq (hcx : Short cx) (hcy : Short cy) (hradius : Short radius)
    (hwidth : m.width ≤ maxEdge) (hheight : m.height ≤ maxEdge) :
    stamp? m cx cy radius = some (stamp m cx cy radius) := by
  rw [stamp?, reach?_eq hcy hradius hheight]
  refine Grid.foldlM_eq_paint fun g hgw hgh y hy => ?_
  have hy : y < m.height := (mem_reach.mp hy).2.2
  rw [reach?_eq hcx hradius (hgw.trans_le hwidth)]
  refine Grid.foldlM_eq_paintRow fun g' hgw' hgh' x hx => ?_
  have hx : x < g.width := (mem_reach.mp hx).2.2
  rw [inDisc?_eq hcx hcy hradius (by omega) (by omega)]
  cases inDisc cx cy radius x y with
  | false => rfl
  | true => exact Grid.put?_of_inside (by omega) (by omega)

theorem stamp_size : (stamp m cx cy radius).width = m.width ∧
    (stamp m cx cy radius).height = m.height := by
  simp [stamp_eq_paint]

/-! ## One frame -/

theorem clampRadius_range (radius : Int) (m : Matrix) :
    0 ≤ clampRadius radius m ∧ clampRadius radius m ≤ max m.width m.height := by
  rw [clampRadius]
  omega

theorem get?_nextTrail {trail : Matrix} {decay px py : Float32} {radius : Int}
    (hx : x < trail.width) (hy : y < trail.height) :
    (nextTrail trail decay radius (some (px, py))).get? x y =
      if inDisc (wholePart px) (wholePart py) (clampRadius radius trail) x y then some 1
      else (trail.get? x y).map (· * decay) := by
  rw [nextTrail, get?_stamp (m := trail.map (· * decay)) (clampRadius_range radius trail).1 hx hy,
    Grid.get?_map]

theorem nextTrail?_eq {trail : Matrix} {decay : Float32} {radius : Int} {px py : Float32}
    (hx : Short (wholePart px)) (hy : Short (wholePart py)) (hwidth : trail.width ≤ maxEdge)
    (hheight : trail.height ≤ maxEdge) :
    nextTrail? trail decay radius (some (px, py)) =
      some (nextTrail trail decay radius (some (px, py))) := by
  have hfits {n : Int} (hn : Short n) : word? n = some n := by
    obtain ⟨hlow, hhigh⟩ := hn
    rw [maxEdge] at hhigh
    exact word?_of_bounds (by omega) (by omega)
  have hside : Short (max trail.width trail.height) := ⟨by omega, by omega⟩
  have hradius : Short (clampRadius radius trail) := by
    obtain ⟨hlow, hhigh⟩ := clampRadius_range radius trail
    exact ⟨hlow, by omega⟩
  have hstamp := stamp?_eq (m := trail.map (· * decay)) hx hy hradius hwidth hheight
  simp only [nextTrail?, nextTrail, hfits hside, hfits hx, hfits hy]
  exact hstamp

/-- One update of a trail while the pointer is in the window: whatever the radius is set to, every
place within the radius of the pointer's place is at full brightness, and any other has faded once.
Nothing on the way fails: every number fits into a word, and no place is outside the trail. -/
theorem updateMotion_stamps (v : NodeView) {trail : Matrix} {w : Window} {px py : Float32}
    (hstate : v.state = some (.matrix trail)) (hwindow : v.window? v.owner = some w)
    (hpointer : w.pointer = some (px, py)) (hinside : w.inside px py)
    (hwidth : 0 < w.width ∧ w.width ≤ maxEdge) (hheight : 0 < w.height ∧ w.height ≤ maxEdge)
    (hcolumns : trail.width ≤ maxEdge) (hrows : trail.height ≤ maxEdge) :
    let radius := clampRadius (radiusOf v.toNodeSelf) trail
    let decay := (decayOf v.toNodeSelf).toFloat32
    ∃ (qx qy : ℚ) (trail' : Matrix),
      (number? px = some qx ∧ 0 ≤ qx ∧ qx < w.width) ∧
      (number? py = some qy ∧ 0 ≤ qy ∧ qy < w.height) ∧
      updateMotion v = ⟨some (.matrix trail'), []⟩ ∧
      nextTrail? trail decay (radiusOf v.toNodeSelf) (some (px, py)) = some trail' ∧
      trail'.width = trail.width ∧ trail'.height = trail.height ∧
      ∀ x y, x < trail.width → y < trail.height → ∃ a, trail.get? x y = some a ∧
        trail'.get? x y =
          some (if (x - ⌊qx⌋) ^ 2 + (y - ⌊qy⌋) ^ 2 ≤ radius ^ 2 then 1 else a * decay) := by
  intro radius decay
  obtain ⟨⟨qx, hqx, hqx0, hqx', hpx⟩, qy, hqy, hqy0, hqy', hpy⟩ :=
    coordinates_of_inside hinside hwidth hheight
  have hshort {q : ℚ} {n : Nat} (hq : 0 ≤ q) (hn : q < n) (hle : n ≤ maxEdge) : Short ⌊q⌋ := by
    have hfloor : ⌊q⌋ < n := Int.floor_lt.mpr (by exact_mod_cast hn)
    exact ⟨Int.floor_nonneg.mpr hq, by omega⟩
  refine ⟨qx, qy, nextTrail trail decay (radiusOf v.toNodeSelf) (some (px, py)),
    ⟨hqx, hqx0, hqx'⟩, ⟨hqy, hqy0, hqy'⟩, ?_, ?_, stamp_size.1, stamp_size.2, fun x y hx hy => ?_⟩
  · simp [updateMotion, hstate, hwindow, hpointer, decay]
  · exact nextTrail?_eq (hpx ▸ hshort hqx0 hqx' hwidth.2) (hpy ▸ hshort hqy0 hqy' hheight.2)
      hcolumns hrows
  · obtain ⟨a, ha⟩ := Grid.exists_get? hx hy
    refine ⟨a, ha, ?_⟩
    rw [get?_nextTrail hx hy, ha, hpx, hpy]
    simp only [inDisc, decide_eq_true_eq, ← sq]
    split <;> rfl

theorem updateMotion_stamps_everywhere :
    let w : Window := (⟨8, 8, "", none⟩ : Window).movePointer 2 2
    let v : NodeView :=
      { name := "trail"
        typeName := "mouse-motion"
        owner := .root
        params := [("radius", .integer Int64.maxValue)]
        state := some (.matrix (.zeros 8 8))
        shape := none
        inputs := []
        window? := fun _ => some w }
    ∃ trail', updateMotion v = ⟨some (.matrix trail'), []⟩ ∧
      ∀ x y, x < 8 → y < 8 → trail'.get? x y = some 1 := by
  intro w v
  have hinside : w.inside 2 2 := by decide
  obtain ⟨qx, qy, trail', ⟨hqx, -⟩, ⟨hqy, -⟩, hupdate, -, -, -, hcells⟩ :=
    updateMotion_stamps v rfl rfl rfl hinside (by decide) (by decide) (by decide) (by decide)
  have htwo : number? 2 = some 2 := by decide +kernel
  obtain rfl : 2 = qx := Option.some.inj (htwo.symm.trans hqx)
  obtain rfl : 2 = qy := Option.some.inj (htwo.symm.trans hqy)
  refine ⟨trail', hupdate, fun x y hx hy => ?_⟩
  obtain ⟨a, -, ha⟩ := hcells x y hx hy
  have hradius : clampRadius (radiusOf v.toNodeSelf) (.zeros 8 8) = 8 := by decide
  have hfloor : ⌊(2 : ℚ)⌋ = 2 := rfl
  rw [ha, hradius, hfloor, if_pos]
  nlinarith

end FrameGraph.Window
