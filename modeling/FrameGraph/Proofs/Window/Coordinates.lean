import FrameGraph.Window.Motion
import Mathlib

/-!
# Coordinates

The number that a single stands for, and what becomes of it where a pointer is looked up: a pointer
inside a window has coordinates that are numbers from zero to below the edges, and their whole parts
are taken exactly. Singles are compared by exponent first and mantissa second. That agrees with
the order of the numbers because an edge is a whole number, whose mantissa has its full length.
-/
namespace FrameGraph.Window

open Float.Model (Format UnpackedFloat)
open Float.Model.UnpackedFloat

/-- The number that an unpacked single stands for, if it is one. -/
def unpackedNumber? : UnpackedFloat → Option ℚ
  | .zero _ => some 0
  | .finite s m e _ => some (s.apply m * 2 ^ e)
  | .infinity _ | .notANumber => none

/-- The number that a single stands for, if it is one. -/
def number? (x : Float32) : Option ℚ := unpackedNumber? x.toModel.unpack

/-- A mantissa has at most as many bits as are kept of it, and the one in front. -/
theorem mantissa_lt {b : BitVec Format.binary32.numBits} {s : Sign} {m : Nat} {e : Int}
    {h : 0 < m} (hb : unpack .binary32 b = .finite s m e h) : m < 2 ^ 24 := by
  rw [unpack] at hb
  split at hb
  · split at hb <;> cases hb
  · split at hb
    · split at hb
      · cases hb
      · cases hb
        exact (@unpackMantissa .binary32 b).isLt.trans (by decide)
    · cases hb
      exact (1#1 ++ @unpackMantissa .binary32 b).isLt

/-! ## Edges -/

/-- What is already in its form stays as it is. -/
theorem roundWithAccuracy_of_log {s : Sign} {m : Nat} {e : Int} (hlog : m.log2 = 23)
    (he : -149 ≤ e) (hm : 0 < m) :
    roundWithAccuracy .binary32 s m e .exact = .finite s m e hm := by
  have htarget : Format.binary32.targetExponent (Float.Model.totalExponent m e) = e := by
    simp only [Format.targetExponent, Float.Model.totalExponent, hlog, Format.mantissaBits,
      Format.minExponent]
    omega
  have hshift (em : ExtendedMantissa) : em >>> (0 : Nat) = em := rfl
  simp [roundWithAccuracy, shiftToTargetExponent, htarget, shiftToExponent, hshift,
    ExtendedMantissa.ofMantissaAndAccuracy, ExtendedMantissa.roundedMantissa,
    ExtendedMantissa.accuracy, Accuracy.roundToNearestEven, Nat.ne_of_gt hm]

/-- A small number with its highest bit in front. -/
theorem shiftLeft_range {n : Nat} (hn : 0 < n) (hlt : n < 2 ^ 24) :
    2 ^ 23 ≤ n * 2 ^ (23 - n.log2) ∧ n * 2 ^ (23 - n.log2) < 2 ^ 24 := by
  have hlog : n.log2 < 24 := (Nat.log2_lt hn.ne').mpr hlt
  have hlow : 2 ^ n.log2 ≤ n := (Nat.le_log2 hn.ne').mp le_rfl
  have hhigh : n < 2 ^ (n.log2 + 1) := (Nat.log2_lt hn.ne').mp (Nat.lt_succ_self _)
  have h := Nat.mul_le_mul_right (2 ^ (23 - n.log2)) hlow
  have h' := Nat.mul_lt_mul_of_pos_right hhigh (Nat.two_pow_pos (23 - n.log2))
  rw [← Nat.pow_add] at h h'
  rw [show n.log2 + (23 - n.log2) = 23 by omega] at h
  rw [show n.log2 + 1 + (23 - n.log2) = 24 by omega] at h'
  exact ⟨h, h'⟩

theorem round_natural {n : Nat} (hn : 0 < n) (hlt : n < 2 ^ 24) :
    UnpackedFloat.round .binary32 .positive n 0 =
      .finite .positive (n * 2 ^ (23 - n.log2)) (n.log2 - 23)
        (Nat.mul_pos hn (Nat.two_pow_pos _)) := by
  have hlog : n.log2 < 24 := (Nat.log2_lt hn.ne').mpr hlt
  obtain ⟨hlow, hhigh⟩ := shiftLeft_range hn hlt
  have htarget : Format.binary32.targetExponent (Float.Model.totalExponent n 0) =
      (n.log2 : Int) - 23 := by
    simp only [Format.targetExponent, Float.Model.totalExponent, Format.mantissaBits,
      Format.minExponent]
    omega
  have hshift : (0 - ((n.log2 : Int) - 23)).toNat = 23 - n.log2 := by omega
  have hexponent : (0 : Int) - ((23 - n.log2 : Nat) : Int) = n.log2 - 23 := by omega
  simp only [UnpackedFloat.round, htarget, decreaseExponent, hshift, hexponent, Nat.shiftLeft_eq]
  exact roundWithAccuracy_of_log ((Nat.log2_eq_iff (by omega)).mpr ⟨hlow, hhigh⟩) (by omega) _

theorem unpackSign_positive (e : BitVec 8) (m : BitVec 23) :
    unpackSign (packComponents .binary32 .positive e m) = 0#1 := by
  simp only [unpackSign, packComponents, BitVec.extractLsb]
  rw [BitVec.extractLsb'_append_eq_of_le (by decide),
    BitVec.extractLsb'_append_eq_of_le (by decide)]
  rfl

/-- A number from one on whose mantissa has its full length comes back from its bits. -/
theorem unpack_pack {m : Nat} {e : Int} (hlow : 2 ^ 23 ≤ m) (hhigh : m < 2 ^ 24)
    (he : -23 ≤ e) (he' : e ≤ 0) (hm : 0 < m) :
    unpack .binary32 (pack .binary32 (.finite .positive m e hm)) = .finite .positive m e hm := by
  have hlog : m.log2 = 23 := (Nat.log2_eq_iff (by omega)).mpr ⟨hlow, hhigh⟩
  have hbits : (23 : Nat) + 1 = Format.binary32.mantissaBits := rfl
  obtain ⟨b, hb⟩ : ∃ b : Nat, (b : Int) = e + 150 := ⟨(e + 150).toNat, by omega⟩
  have hbiased : (e + Format.binary32.exponentBias +
      Format.binary32.mantissaBitsWithoutImplicit).toNat = b := by
    have hbias : (Format.binary32.exponentBias : Int) = 127 := rfl
    have hplaces : (Format.binary32.mantissaBitsWithoutImplicit : Int) = 23 := rfl
    omega
  have hfinite : ¬2 ^ Format.binary32.exponentBits ≤ b + 1 := by
    show ¬256 ≤ b + 1
    omega
  have hexponent : (BitVec.ofNat 8 b).toNat = b := by
    rw [BitVec.toNat_ofNat]
    omega
  have hmantissa : (1#1 ++ BitVec.ofNat 23 m).toNat = m := by
    have hor := Nat.two_pow_add_eq_or_of_lt (BitVec.ofNat 23 m).isLt 1
    rw [Nat.mul_one] at hor
    refine (BitVec.toNat_append 1#1 (BitVec.ofNat 23 m)).trans (hor.symm.trans ?_)
    rw [BitVec.toNat_ofNat]
    omega
  have hne (c : BitVec 8) (hc : c.toNat ≠ b) : BitVec.ofNat 8 b ≠ c := by
    rintro rfl
    exact hc hexponent
  simp only [pack, hbiased, if_neg hfinite, hlog, if_pos hbits, unpack,
    unpackMantissa_packComponents, unpackExponent_packComponents, unpackSign_positive]
  rw [if_neg (hne _ (by show 255 ≠ b; omega)), if_neg (hne _ (by show 0 ≠ b; omega))]
  congr 1
  rw [hexponent]
  show (b : Int) - (127 + 23) = e
  omega

/-- The number of an edge is the edge. -/
theorem unpack_edge {n : Nat} (hn : 0 < n) (hlt : n < 2 ^ 24) :
    ∃ m e h, n.toUInt32.toFloat32.toModel.unpack = .finite .positive m e h ∧ 2 ^ 23 ≤ m ∧
      (m * 2 ^ e : ℚ) = n := by
  have hlog : n.log2 < 24 := (Nat.log2_lt hn.ne').mpr hlt
  obtain ⟨hlow, hhigh⟩ := shiftLeft_range hn hlt
  have hnat : n.toUInt32.toNat = n := by
    rw [Nat.toUInt32, UInt32.toNat_ofNat']
    exact Nat.mod_eq_of_lt (by omega)
  have hnormal : ofUInt32 .binary32 n.toUInt32 = UnpackedFloat.round .binary32 .positive n 0 := by
    have hcompare : compare (n : Int) 0 = .gt := compare_gt_iff_gt.mpr (by omega)
    simp only [ofUInt32, UnpackedFloat.ofNat, UnpackedFloat.ofInt,
      UnpackedFloat.normalize, hnat, hcompare, Int.toNat_natCast]
  refine ⟨n * 2 ^ (23 - n.log2), n.log2 - 23, Nat.mul_pos hn (Nat.two_pow_pos _), ?_, hlow, ?_⟩
  · show unpack .binary32 (pack .binary32 (ofUInt32 .binary32 n.toUInt32)) = _
    rw [hnormal, round_natural hn hlt, unpack_pack hlow hhigh (by omega) (by omega)]
  · push_cast
    rw [mul_assoc, ← zpow_natCast, ← zpow_add₀ two_ne_zero]
    have hzero : ((23 - n.log2 : Nat) : Int) + ((n.log2 : Int) - 23) = 0 := by omega
    rw [hzero, zpow_zero, mul_one]

/-! ## Whole parts -/

theorem shiftRight_mantissa (m k : Nat) :
    (ExtendedMantissa.ofMantissaAndAccuracy m .exact >>> k).mantissa = m / 2 ^ k := by
  have hrepeat (em : ExtendedMantissa) :
      (Nat.repeat ExtendedMantissa.shiftRightOne k em).mantissa = em.mantissa / 2 ^ k := by
    induction k with
    | zero => simp [Nat.repeat]
    | succ k ih =>
      rw [Nat.repeat, ExtendedMantissa.shiftRightOne, ih, Nat.div_div_eq_div_mul, Nat.pow_succ]
  exact hrepeat _

theorem roundToInt_eq_floor (m : Nat) (e : Int) :
    roundToInt .positive m e = ⌊(m * 2 ^ e : ℚ)⌋ := by
  simp only [roundToInt, decreaseExponent, shiftToExponent, Sign.apply, shiftRight_mantissa,
    Nat.shiftLeft_eq, Int.sub_zero]
  obtain ⟨k, rfl⟩ | ⟨k, rfl⟩ : (∃ k : Nat, e = k) ∨ ∃ k : Nat, e = -k := by
    rcases Int.le_total 0 e with h | h
    · exact .inl ⟨e.toNat, by omega⟩
    · exact .inr ⟨(-e).toNat, by omega⟩
  · have hfloor := Int.floor_natCast (R := ℚ) (m * 2 ^ k)
    push_cast at hfloor
    simp [hfloor]
  · have hfloor := Rat.floor_natCast_div_natCast m (2 ^ k)
    push_cast at hfloor
    simp [← div_eq_mul_inv, hfloor]

theorem toUInt64_eq_floor {m n : Nat} {e : Int} {h : 0 < m} (hn : n < 2 ^ 24)
    (hlt : (m * 2 ^ e : ℚ) < n) :
    ((UnpackedFloat.finite .positive m e h).toUInt64.toNat : Int) = ⌊(m * 2 ^ e : ℚ)⌋ := by
  have hfloor := roundToInt_eq_floor m e
  have hnonneg : 0 ≤ ⌊(m * 2 ^ e : ℚ)⌋ := Int.floor_nonneg.mpr (by positivity)
  have hbelow : ⌊(m * 2 ^ e : ℚ)⌋ < n := Int.floor_lt.mpr (by exact_mod_cast hlt)
  have hsize : UInt64.size = 2 ^ 64 := rfl
  simp only [UnpackedFloat.toUInt64, UnpackedFloat.toInt, hfloor]
  rw [UInt64.ofNatClamp_eq_ofNat _ (by omega), UInt64.toNat_ofNat']
  omega

/-! ## Comparisons -/

/-- Exponents decide first, as a mantissa of full length is more than half of any other. -/
theorem number_lt {m m' : Nat} {e e' : Int} (hm : m < 2 ^ 24) (hlead : 2 ^ 23 ≤ m')
    (h : e < e' ∨ e = e' ∧ m < m') : (m * 2 ^ e : ℚ) < m' * 2 ^ e' := by
  obtain hexponent | ⟨rfl, hmantissa⟩ := h
  · have hm : (m : ℚ) < 2 ^ 24 := by exact_mod_cast hm
    have hlead : (2 ^ 23 : ℚ) ≤ m' := by exact_mod_cast hlead
    calc (m * 2 ^ e : ℚ) < 2 ^ 24 * 2 ^ e := by gcongr
      _ = 2 ^ 23 * 2 ^ (e + 1) := by rw [zpow_add₀ two_ne_zero]; ring
      _ ≤ m' * 2 ^ e' := by
          gcongr
          · norm_num
          · omega
  · have hmantissa : (m : ℚ) < m' := by exact_mod_cast hmantissa
    gcongr

theorem unpack_zero : (0 : Float32).toModel.unpack = .zero .positive := by
  rfl

/-- What is not below zero, and below an edge, is a number in that range, and its whole part is
taken exactly. -/
theorem coordinate_of_between {n : Nat} {x : Float32} (hn : 0 < n) (hlt : n < 2 ^ 24)
    (hlow : 0 ≤ x) (hhigh : x < n.toUInt32.toFloat32) :
    ∃ q : ℚ, number? x = some q ∧ 0 ≤ q ∧ q < n ∧ wholePart x = ⌊q⌋ := by
  obtain ⟨m', e', h', hedge, hlead, hvalue⟩ := unpack_edge hn hlt
  have hle : (0 : Float32).toModel.unpack.le x.toModel.unpack = true := of_decide_eq_true hlow
  have hless : x.toModel.unpack.lt n.toUInt32.toFloat32.toModel.unpack = true :=
    of_decide_eq_true hhigh
  have hwhole : x.toUInt64 = x.toModel.unpack.toUInt64 := rfl
  rw [unpack_zero] at hle
  rw [hedge] at hless
  rw [number?, wholePart, hwhole]
  cases hx : x.toModel.unpack with
  | notANumber => simp [hx, UnpackedFloat.le, UnpackedFloat.compare] at hle
  | infinity s =>
    cases s <;> simp [hx, UnpackedFloat.le, UnpackedFloat.lt, UnpackedFloat.compare] at hle hless
  | zero s => exact ⟨0, rfl, le_rfl, by exact_mod_cast hn, rfl⟩
  | finite s m e h =>
    cases s with
    | negative => simp [hx, UnpackedFloat.le, UnpackedFloat.compare, Ordering.isLE] at hle
    | positive =>
      have horder : e < e' ∨ e = e' ∧ m < m' := by
        simpa [hx, UnpackedFloat.lt, UnpackedFloat.compare, Ordering.then_eq_lt,
          compare_lt_iff_lt] using hless
      have hq : (m * 2 ^ e : ℚ) < n := hvalue ▸ number_lt (mantissa_lt hx) hlead horder
      exact ⟨m * 2 ^ e, rfl, by positivity, hq, toUInt64_eq_floor hlt hq⟩

/-- A pointer inside a window has two coordinates. -/
theorem coordinates_of_inside {w : Window} {px py : Float32} (hinside : w.inside px py)
    (hwidth : 0 < w.width ∧ w.width ≤ maxEdge) (hheight : 0 < w.height ∧ w.height ≤ maxEdge) :
    (∃ q : ℚ, number? px = some q ∧ 0 ≤ q ∧ q < w.width ∧ wholePart px = ⌊q⌋) ∧
      ∃ q : ℚ, number? py = some q ∧ 0 ≤ q ∧ q < w.height ∧ wholePart py = ⌊q⌋ := by
  rw [maxEdge] at *
  simp only [inside, Bool.and_eq_true, decide_eq_true_eq] at hinside
  obtain ⟨⟨⟨hx, hy⟩, hx'⟩, hy'⟩ := hinside
  exact ⟨coordinate_of_between hwidth.1 (by omega) hx hx',
    coordinate_of_between hheight.1 (by omega) hy hy'⟩

end FrameGraph.Window
