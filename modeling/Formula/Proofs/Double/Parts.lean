import Mathlib.Tactic.NormNum
import Formula.Double

/-!
A double is known from its parts. The sign, the biased exponent and the fraction are the digits of
its bit pattern, so different doubles have different parts; there is one NaN and there are two
infinities. The parts are canonical: a mantissa below `2 ^ 53` that is full unless the exponent is
the least one.
-/
namespace Formula
namespace Double

open Float.Model

theorem toBits_injective {x y : Float} (h : x.toBits.toNat = y.toBits.toNat) : x = y := by
  obtain ⟨⟨a, ha⟩⟩ := x
  obtain ⟨⟨b, hb⟩⟩ := y
  obtain rfl : a = b := UInt64.toNat_inj.1 h
  rfl

/-- The mantissas and exponents of doubles. -/
structure Canonical (b : Binary) : Prop where
  mantissa_lt : b.mantissa < 2 ^ 53
  exponent_ge : -1074 ≤ b.exponent
  exponent_le : b.exponent ≤ 972
  full : -1074 < b.exponent → 2 ^ 52 ≤ b.mantissa

/-- The parts of a double below the normal range, and of any other one. -/
theorem parts_cases (x : Float) :
    (x.toBits.toNat / 2 ^ 52 % 2 ^ 11 = 0 ∧
        parts x = ⟨x.toBits.toNat / 2 ^ 63 = 1, x.toBits.toNat % 2 ^ 52, -1074⟩) ∨
      (x.toBits.toNat / 2 ^ 52 % 2 ^ 11 ≠ 0 ∧
        parts x = ⟨x.toBits.toNat / 2 ^ 63 = 1, 2 ^ 52 + x.toBits.toNat % 2 ^ 52,
          (x.toBits.toNat / 2 ^ 52 % 2 ^ 11 : ℕ) - 1075⟩) := by
  by_cases h : x.toBits.toNat / 2 ^ 52 % 2 ^ 11 = 0
  · exact .inl ⟨h, if_pos h⟩
  · exact .inr ⟨h, if_neg h⟩

theorem parts_canonical (x : Float) : Canonical (parts x) := by
  obtain ⟨-, h⟩ | ⟨hne, h⟩ := parts_cases x <;> rw [h] <;> constructor <;> dsimp only <;> omega

theorem eq_of_parts {x y : Float} (hnegative : (parts x).negative = (parts y).negative)
    (hmantissa : (parts x).mantissa = (parts y).mantissa)
    (hexponent : (parts x).exponent = (parts y).exponent) : x = y := by
  have hx : x.toBits.toNat < 2 ^ 64 := x.toBits.toNat_lt
  have hy : y.toBits.toNat < 2 ^ 64 := y.toBits.toNat_lt
  apply toBits_injective
  obtain ⟨hx₀, hx'⟩ | ⟨hx₀, hx'⟩ := parts_cases x <;>
    obtain ⟨hy₀, hy'⟩ | ⟨hy₀, hy'⟩ := parts_cases y <;>
    · simp only [hx', hy', decide_eq_decide] at hnegative hmantissa hexponent
      omega

theorem exponent_ones {b : BitVec 64} :
    @UnpackedFloat.unpackExponent Format.binary64 b = -1#11 ↔ b.toNat / 2 ^ 52 % 2 ^ 11 = 2047 := by
  rw [← BitVec.toNat_inj]
  change (b.toNat >>> 52) % 2 ^ 11 = 2047 ↔ _
  rw [Nat.shiftRight_eq_div_pow]

theorem mantissa_zero {b : BitVec 64} :
    @UnpackedFloat.unpackMantissa Format.binary64 b = 0#52 ↔ b.toNat % 2 ^ 52 = 0 := by
  rw [← BitVec.toNat_inj]
  change (b.toNat >>> 0) % 2 ^ 52 = 0 ↔ _
  rw [Nat.shiftRight_zero]

/-- A bit pattern stands for NaN, for an infinity or for neither. -/
theorem unpack_cases (b : BitVec 64) :
    (@UnpackedFloat.unpackExponent Format.binary64 b = -1#11 ∧
        @UnpackedFloat.unpackMantissa Format.binary64 b ≠ 0#52 ∧
        UnpackedFloat.unpack Format.binary64 b = .notANumber) ∨
      (@UnpackedFloat.unpackExponent Format.binary64 b = -1#11 ∧
        @UnpackedFloat.unpackMantissa Format.binary64 b = 0#52 ∧
        ∃ sign, UnpackedFloat.unpack Format.binary64 b = .infinity sign) ∨
      ((UnpackedFloat.unpack Format.binary64 b).isNaN = false ∧
        (UnpackedFloat.unpack Format.binary64 b).isInf = false) := by
  by_cases hexponent : @UnpackedFloat.unpackExponent Format.binary64 b = -1#11
  · by_cases hmantissa : @UnpackedFloat.unpackMantissa Format.binary64 b = 0#52
    · exact .inr (.inl ⟨hexponent, hmantissa, _, (if_pos hexponent).trans (if_pos hmantissa)⟩)
    · exact .inl ⟨hexponent, hmantissa, (if_pos hexponent).trans (if_neg hmantissa)⟩
  · right
    right
    by_cases hzero : @UnpackedFloat.unpackExponent Format.binary64 b = 0#11
    · by_cases hmantissa : @UnpackedFloat.unpackMantissa Format.binary64 b = 0#52
      · have h : UnpackedFloat.unpack Format.binary64 b = .zero _ :=
          (if_neg hexponent).trans ((if_pos hzero).trans (dif_pos hmantissa))
        exact ⟨congrArg UnpackedFloat.isNaN h, congrArg UnpackedFloat.isInf h⟩
      · have h : UnpackedFloat.unpack Format.binary64 b = .finite _ _ _ _ :=
          (if_neg hexponent).trans ((if_pos hzero).trans (dif_neg hmantissa))
        exact ⟨congrArg UnpackedFloat.isNaN h, congrArg UnpackedFloat.isInf h⟩
    · have h : UnpackedFloat.unpack Format.binary64 b = .finite _ _ _ _ :=
        (if_neg hexponent).trans (if_neg hzero)
      exact ⟨congrArg UnpackedFloat.isNaN h, congrArg UnpackedFloat.isInf h⟩

theorem isNaN_eq_nan {x : Float} (h : x.isNaN = true) : x = nan := by
  obtain ⟨⟨a, ha⟩⟩ := x
  change (UnpackedFloat.unpack Format.binary64 a.toBitVec).isNaN = true at h
  obtain ⟨hexponent, hmantissa, -⟩ | ⟨-, -, _, hunpack⟩ | ⟨hunpack, -⟩ := unpack_cases a.toBitVec
  · have hbits : a.toBitVec = UnpackedFloat.packedNaN Format.binary64 :=
      ha.eq_packedNaN hexponent hmantissa
    apply toBits_injective
    exact congrArg BitVec.toNat hbits
  · rw [hunpack] at h
    cases h
  · rw [hunpack] at h
    cases h

theorem isInf_cases {x : Float} (h : x.isInf = true) : x = infinity ∨ x = negativeInfinity := by
  obtain ⟨⟨a, ha⟩⟩ := x
  change (UnpackedFloat.unpack Format.binary64 a.toBitVec).isInf = true at h
  obtain ⟨-, -, hunpack⟩ | ⟨hexponent, hmantissa, -⟩ | ⟨-, hunpack⟩ := unpack_cases a.toBitVec
  · rw [hunpack] at h
    cases h
  · have hlt : a.toNat < 2 ^ 64 := a.toNat_lt
    have hexponent : a.toNat / 2 ^ 52 % 2 ^ 11 = 2047 := exponent_ones.1 hexponent
    have hmantissa : a.toNat % 2 ^ 52 = 0 := mantissa_zero.1 hmantissa
    have hbits : a.toNat = 2047 * 2 ^ 52 ∨ a.toNat = 4095 * 2 ^ 52 := by omega
    rcases hbits with hbits | hbits
    · exact .inl (toBits_injective hbits)
    · exact .inr (toBits_injective hbits)
  · rw [hunpack] at h
    cases h

end Double

end Formula
