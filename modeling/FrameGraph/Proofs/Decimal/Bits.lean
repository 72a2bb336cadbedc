import FrameGraph.Proofs.Decimal.Ladder
import Mathlib

/-!
# Finite patterns

The bits of a double are its sign, its exponent and its fraction. A double made from bits keeps
them unless the exponent is that of infinity, so below infinity every pattern is a double's own.
-/
namespace FrameGraph.Decimal

open Float.Model (Format)
open Float.Model.UnpackedFloat

theorem toBitVec_signOfBitVec (b : BitVec 1) : (Sign.ofBitVec b).toBitVec = b := by
  revert b
  decide

/-- Sign, exponent and fraction, side by side, are the bits. -/
theorem packComponents_parts (b : BitVec Format.binary64.numBits) :
    packComponents .binary64 (Sign.ofBitVec (unpackSign b)) (unpackExponent b)
      (unpackMantissa b) = b := by
  rw [packComponents, toBitVec_signOfBitVec]
  ext i hi
  simp only [unpackSign, unpackExponent, unpackMantissa, BitVec.extractLsb]
  grind

theorem pack_subnormal (s : Sign) (m : BitVec 52) (h : 0 < m.toNat) :
    pack .binary64 (.finite s m.toNat (-1074) h) = packComponents .binary64 s 0#11 m := by
  have hlog : m.toNat.log2 < 52 := (Nat.log2_lt (by omega)).mpr m.isLt
  have hbits : m.toNat.log2 + 1 ≠ Format.binary64.mantissaBits := by
    have : Format.binary64.mantissaBits = 53 := rfl
    omega
  simp only [pack, if_neg hbits, BitVec.ofNat_toNat, BitVec.setWidth_eq]
  rfl

theorem pack_normal (s : Sign) (e : BitVec 11) (m : BitVec 52) (he : e.toNat + 1 < 2 ^ 11)
    (h : 0 < (1#1 ++ m).toNat) :
    pack .binary64 (.finite s (1#1 ++ m).toNat (e.toNat - 1075) h) =
      packComponents .binary64 s e m := by
  have hm : (1#1 ++ m).toNat = 2 ^ 52 + m.toNat := by
    have hor := Nat.two_pow_add_eq_or_of_lt m.isLt 1
    rw [Nat.mul_one] at hor
    exact (BitVec.toNat_append 1#1 m).trans hor.symm
  have hlt := m.isLt
  have hlog : (1#1 ++ m).toNat.log2 = 52 := by
    have hne : (1#1 ++ m).toNat ≠ 0 := by omega
    have hlow := (Nat.le_log2 (k := 52) hne).mpr (by omega)
    have hhigh := (Nat.log2_lt (k := 53) hne).mpr (by omega)
    omega
  have hexponent : ((e.toNat : Int) - 1075 + Format.binary64.exponentBias +
      Format.binary64.mantissaBitsWithoutImplicit).toNat = e.toNat := by
    have hbias : (Format.binary64.exponentBias : Int) = 1023 := rfl
    have hbits : (Format.binary64.mantissaBitsWithoutImplicit : Int) = 52 := rfl
    omega
  have hfraction : BitVec.ofNat 52 (1#1 ++ m).toNat = m := by
    apply BitVec.eq_of_toNat_eq
    rw [BitVec.toNat_ofNat, hm]
    omega
  have hbits : (52 : Nat) + 1 = Format.binary64.mantissaBits := rfl
  have hfinite : ¬2 ^ Format.binary64.exponentBits ≤ e.toNat + 1 := Nat.not_le_of_gt he
  simp only [pack, hexponent, if_neg hfinite, hlog, if_pos hbits, BitVec.ofNat_toNat,
    BitVec.setWidth_eq, hfraction]

/-- Bits that are not those of infinity or of no number come back from unpacking. -/
theorem pack_unpack {b : BitVec Format.binary64.numBits}
    (h : (unpackExponent b).toNat + 1 < 2 ^ 11) : pack .binary64 (unpack .binary64 b) = b := by
  have hparts := packComponents_parts b
  have hfinite : unpackExponent b ≠ -1#_ := by
    intro he
    rw [he] at h
    exact absurd h (by decide)
  simp only [unpack, if_neg hfinite]
  split
  · rename_i hzero
    rw [hzero] at hparts ⊢
    split
    · rename_i hfraction
      rw [hfraction] at hparts
      exact hparts
    · exact (pack_subnormal _ _ _).trans hparts
  · exact (pack_normal _ _ _ h _).trans hparts

/-- Below infinity a double made from a pattern has that pattern and no sign. -/
theorem toBits_ofBits {p : Nat} (hp : p < infinite) :
    (Float.ofBits p.toUInt64).toBits.toNat = p := by
  have hinfinite : infinite = 0x7ff * 2 ^ 52 := rfl
  have hbits : p.toUInt64.toBitVec.toNat = p := by
    simp only [Nat.toUInt64, UInt64.toBitVec_ofNat', BitVec.toNat_ofNat]
    omega
  have hexponent : (@unpackExponent .binary64 p.toUInt64.toBitVec).toNat = p / 2 ^ 52 := by
    simp only [unpackExponent, BitVec.toNat_cast, BitVec.extractLsb_toNat, hbits]
    omega
  have hpack := pack_unpack (b := p.toUInt64.toBitVec) (by rw [hexponent]; omega)
  have hsame : (Float.ofBits p.toUInt64).toBits.toBitVec = p.toUInt64.toBitVec := hpack
  rw [← UInt64.toNat_toBitVec, hsame, hbits]

theorem pattern_ofBits {p : Nat} (hp : p < infinite) : pattern (Float.ofBits p.toUInt64) = p := by
  have := infinite_lt
  rw [pattern, toBits_ofBits hp, Nat.pow_eq, Nat.mod_eq_of_lt (by omega)]

theorem isNegative_ofBits {p : Nat} (hp : p < infinite) :
    isNegative (Float.ofBits p.toUInt64) = false := by
  have := infinite_lt
  rw [isNegative, toBits_ofBits hp, decide_eq_false_iff_not, Nat.pow_eq]
  omega

end FrameGraph.Decimal
