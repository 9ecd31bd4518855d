import Formula.Proofs.Double.Equality
import Mathlib.Data.Nat.Log
import Mathlib.Tactic.Ring

/-!
What becomes of an integer that is made a double.

The digits of an integer beyond the 53rd are rounded off, to the nearest and from the middle to the
even one; `nearest` says this of integers alone. The result is a double with a full mantissa, so it
survives being packed into 64 bits, and its exact value is `nearest` of the integer. Hence two
different integers can make one double, but not two of which both have at most 53 digits.
-/
namespace Formula
namespace Double

open Float.Model UnpackedFloat

/-- A quotient by a power of two, rounded to the nearest integer, a tie to the even one. -/
def rounded (n k : ℕ) : ℕ :=
  if 2 * (n % 2 ^ k) < 2 ^ k then n / 2 ^ k
  else if 2 * (n % 2 ^ k) = 2 ^ k then n / 2 ^ k + n / 2 ^ k % 2
  else n / 2 ^ k + 1

theorem rounded_zero (n : ℕ) : rounded n 0 = n := by
  simp [rounded, Nat.mod_one]

/-- The two bits behind the mantissa say how the remainder compares to one half. -/
structure Shifted (n k : ℕ) (em : ExtendedMantissa) : Prop where
  mantissa : em.mantissa = n / 2 ^ k
  roundBit : em.roundBit = true ↔ 2 ^ k ≤ 2 * (n % 2 ^ k)
  stickyBit : em.stickyBit = true ↔ n % 2 ^ k ≠ 0 ∧ 2 * (n % 2 ^ k) ≠ 2 ^ k

theorem shifted_zero (n : ℕ) : Shifted n 0 (.ofMantissaAndAccuracy n .exact) := by
  constructor <;> simp [ExtendedMantissa.ofMantissaAndAccuracy, Nat.mod_one]

theorem Shifted.shiftRightOne {n k : ℕ} {em : ExtendedMantissa} (h : Shifted n k em) :
    Shifted n (k + 1) em.shiftRightOne := by
  have hmod : n % 2 ^ (k + 1) = n % 2 ^ k + 2 ^ k * (n / 2 ^ k % 2) := by
    rw [Nat.pow_succ, Nat.mod_mul]
  have hlt : n % 2 ^ k < 2 ^ k := Nat.mod_lt _ (Nat.two_pow_pos k)
  constructor
  · change em.mantissa / 2 = _
    rw [h.mantissa, Nat.div_div_eq_div_mul, ← Nat.pow_succ]
  · change (em.mantissa % 2 != 0) = true ↔ _
    rw [h.mantissa, hmod, Nat.pow_succ]
    obtain hbit | hbit := Nat.mod_two_eq_zero_or_one (n / 2 ^ k) <;> simp [hbit] <;> omega
  · change (em.roundBit || em.stickyBit) = true ↔ _
    rw [Bool.or_eq_true, h.roundBit, h.stickyBit, hmod, Nat.pow_succ]
    obtain hbit | hbit := Nat.mod_two_eq_zero_or_one (n / 2 ^ k) <;> simp [hbit] <;> omega

theorem shifted_shiftRight (n k : ℕ) :
    Shifted n k (ExtendedMantissa.ofMantissaAndAccuracy n .exact >>> k) := by
  induction k with
  | zero => exact shifted_zero n
  | succ k ih => exact ih.shiftRightOne

theorem Shifted.roundedMantissa {n k : ℕ} {em : ExtendedMantissa} (h : Shifted n k em) :
    em.roundedMantissa = rounded n k := by
  obtain ⟨m, r, s⟩ := em
  obtain ⟨hmantissa, hround, hsticky⟩ := h
  dsimp only at hmantissa hround hsticky
  have hpos := Nat.two_pow_pos k
  unfold rounded ExtendedMantissa.roundedMantissa
  subst hmantissa
  cases r <;> cases s <;>
    simp only [ExtendedMantissa.accuracy, Accuracy.roundToNearestEven, Bool.false_eq_true,
      false_iff, true_iff, not_le] at hround hsticky ⊢ <;>
    split_ifs <;> omega

/-- The nearest number with at most 53 binary digits and any number of zeros behind them. -/
def nearestNat (n : ℕ) : ℕ := rounded n (n.log2 - 52) * 2 ^ (n.log2 - 52)

theorem nearestNat_of_short {n : ℕ} (h : n.log2 ≤ 52) : nearestNat n = n := by
  rw [nearestNat, Nat.sub_eq_zero_of_le h, rounded_zero, Nat.pow_zero, Nat.mul_one]

theorem targetExponent_eq (t : ℤ) : Format.binary64.targetExponent t = max (t - 53) (-1074) := rfl

theorem log2_eq {n p : ℕ} (hlo : 2 ^ p ≤ n) (hhi : n < 2 ^ (p + 1)) : n.log2 = p :=
  (Nat.log2_eq_iff (Nat.ne_of_gt (Nat.lt_of_lt_of_le (Nat.two_pow_pos p) hlo))).2 ⟨hlo, hhi⟩

/-- A full mantissa is left alone. -/
theorem shiftToTargetExponent_full {m : ℕ} {e : ℤ} (hlo : 2 ^ 52 ≤ m) (hhi : m < 2 ^ 53)
    (he : -1074 ≤ e) :
    shiftToTargetExponent Format.binary64 m e .exact =
      (.ofMantissaAndAccuracy m .exact, e) := by
  have htarget : Format.binary64.targetExponent (totalExponent m e) = e := by
    rw [targetExponent_eq, totalExponent, log2_eq hlo hhi]
    omega
  unfold shiftToTargetExponent shiftToExponent
  simp only [htarget, sub_self, Int.toNat_zero, Nat.cast_zero, add_zero]
  rfl

/-- A mantissa with more digits is cut to 53 of them. -/
theorem shiftToTargetExponent_long {n p : ℕ} {e : ℤ} (hlo : 2 ^ (52 + p) ≤ n)
    (hhi : n < 2 ^ (52 + p + 1)) (he : -1074 ≤ e) :
    shiftToTargetExponent Format.binary64 n e .exact =
      (ExtendedMantissa.ofMantissaAndAccuracy n .exact >>> p, e + p) := by
  have htarget : Format.binary64.targetExponent (totalExponent n e) = e + p := by
    rw [targetExponent_eq, totalExponent, log2_eq hlo hhi]
    push_cast
    omega
  have hshift : (e + p - e).toNat = p := by omega
  unfold shiftToTargetExponent shiftToExponent
  simp only [htarget, hshift]

theorem rounded_bounds {n p : ℕ} (hlo : 2 ^ (52 + p) ≤ n) (hhi : n < 2 ^ (52 + p + 1)) :
    2 ^ 52 ≤ rounded n p ∧ rounded n p ≤ 2 ^ 53 := by
  have hq : 2 ^ 52 ≤ n / 2 ^ p := by
    rw [Nat.le_div_iff_mul_le (Nat.two_pow_pos p), ← Nat.pow_add]
    exact hlo
  have hq' : n / 2 ^ p < 2 ^ 53 := by
    rw [Nat.div_lt_iff_lt_mul (Nat.two_pow_pos p), ← Nat.pow_add]
    exact lt_of_lt_of_eq hhi (congrArg _ (by omega))
  unfold rounded
  split_ifs <;> omega

theorem finite_congr {sign sign' : Sign} {m m' : ℕ} {e e' : ℤ} {h : 0 < m} {h' : 0 < m'}
    (hsign : sign = sign') (hm : m = m') (he : e = e') :
    UnpackedFloat.finite sign m e h = .finite sign' m' e' h' := by
  subst hsign
  subst hm
  subst he
  rfl

/-- What is left after the two shifts. -/
theorem roundWithAccuracy_eq {n : ℕ} {e e₁ e₂ : ℤ} {em₁ em₂ : ExtendedMantissa}
    (hfirst : shiftToTargetExponent Format.binary64 n e .exact = (em₁, e₁))
    (hsecond : shiftToTargetExponent Format.binary64 em₁.roundedMantissa e₁ .exact = (em₂, e₂))
    (sign : Sign) (hpos : 0 < em₂.mantissa) :
    roundWithAccuracy Format.binary64 sign n e .exact = .finite sign em₂.mantissa e₂ hpos := by
  unfold roundWithAccuracy
  rw [hfirst]
  dsimp only
  rw [hsecond]
  exact dif_neg (Nat.ne_of_gt hpos)

theorem roundWithAccuracy_full {m : ℕ} {e : ℤ} (hlo : 2 ^ 52 ≤ m) (hhi : m < 2 ^ 53)
    (he : -1074 ≤ e) (sign : Sign) :
    roundWithAccuracy Format.binary64 sign m e .exact = .finite sign m e (by omega) := by
  have hm : m ≠ 0 := by omega
  have hrounded : (ExtendedMantissa.ofMantissaAndAccuracy m .exact).roundedMantissa = m := rfl
  have hshift := shiftToTargetExponent_full hlo hhi he
  exact roundWithAccuracy_eq hshift (hrounded ▸ hshift) sign (Nat.pos_of_ne_zero hm)

/-- A number with this sign and size, written with all 53 digits. -/
def Full (u : UnpackedFloat) (sign : Sign) (n : ℕ) : Prop :=
  ∃ m e h, u = .finite sign m e h ∧ 2 ^ 52 ≤ m ∧ m < 2 ^ 53 ∧ -52 ≤ e ∧ e ≤ 12 ∧
    (m : ℚ) * 2 ^ e = n

theorem roundWithAccuracy_long {n p : ℕ} (hlo : 2 ^ (52 + p) ≤ n) (hhi : n < 2 ^ (52 + p + 1))
    (hp : p ≤ 11) (sign : Sign) :
    Full (roundWithAccuracy Format.binary64 sign n 0 .exact) sign (rounded n p * 2 ^ p) := by
  obtain ⟨hrounded, hrounded'⟩ := rounded_bounds hlo hhi
  have hcut : (ExtendedMantissa.ofMantissaAndAccuracy n .exact >>> p).roundedMantissa =
    rounded n p := (shifted_shiftRight n p).roundedMantissa
  have hfirst := shiftToTargetExponent_long (e := 0) hlo hhi (by omega)
  rw [zero_add] at hfirst
  by_cases hfull : rounded n p < 2 ^ 53
  · have hsecond := shiftToTargetExponent_full (e := p) hrounded hfull (by omega)
    have hpos : 0 < rounded n p := by omega
    refine ⟨rounded n p, p, hpos, ?_, hrounded, hfull, by omega, by omega, ?_⟩
    · rw [← hcut] at hsecond
      exact (roundWithAccuracy_eq hfirst hsecond sign (hcut ▸ hpos)).trans
        (finite_congr rfl hcut rfl)
    · push_cast
      rw [zpow_natCast]
  · -- the rounding has carried over into one digit more
    obtain hcarry : rounded n p = 2 ^ 53 := by omega
    have hsecond := shiftToTargetExponent_long (n := 2 ^ 53) (p := 1) (e := p) (by norm_num)
      (by norm_num) (by omega)
    have hmantissa : (ExtendedMantissa.ofMantissaAndAccuracy (2 ^ 53) .exact >>> 1).mantissa =
      2 ^ 52 := (shifted_shiftRight (2 ^ 53) 1).mantissa.trans (by norm_num)
    refine ⟨2 ^ 52, p + 1, by norm_num, ?_, by norm_num, by norm_num, by omega, by omega, ?_⟩
    · rw [← hcarry, ← hcut] at hsecond
      rw [← hcarry, ← hcut] at hmantissa
      refine (roundWithAccuracy_eq hfirst hsecond sign ?_).trans (finite_congr rfl hmantissa rfl)
      rw [hmantissa]
      norm_num
    · rw [hcarry]
      push_cast
      rw [zpow_add₀ (by norm_num), zpow_natCast]
      ring

/-- A natural number is rounded to 53 digits. -/
theorem round_nat {n : ℕ} (hpos : 0 < n) (hlt : n < 2 ^ 64) (sign : Sign) :
    Full (UnpackedFloat.round Format.binary64 sign n 0) sign (nearestNat n) := by
  have hlo : 2 ^ n.log2 ≤ n := (Nat.le_log2 (by omega)).1 (le_refl _)
  have hhi : n < 2 ^ (n.log2 + 1) := (Nat.log2_lt (by omega)).1 (by omega)
  have hlog : n.log2 < 64 := (Nat.log2_lt (by omega)).2 hlt
  have htarget : Format.binary64.targetExponent (totalExponent n 0) = n.log2 - 52 := by
    rw [targetExponent_eq, totalExponent]
    omega
  by_cases hshort : n.log2 ≤ 52
  · -- zeros are put behind the digits
    obtain ⟨p, hp⟩ : ∃ p, n.log2 + p = 52 := ⟨52 - n.log2, by omega⟩
    have hlo' : 2 ^ 52 ≤ n * 2 ^ p := by
      rw [← hp, Nat.pow_add]
      exact Nat.mul_le_mul_right _ hlo
    have hhi' : n * 2 ^ p < 2 ^ 53 := by
      have hpow : 2 ^ 53 = 2 ^ (n.log2 + 1) * 2 ^ p := by
        rw [← Nat.pow_add]
        exact congrArg _ (by omega)
      rw [hpow]
      exact Nat.mul_lt_mul_of_pos_right hhi (Nat.two_pow_pos p)
    have hround : UnpackedFloat.round Format.binary64 sign n 0 =
        roundWithAccuracy Format.binary64 sign (n * 2 ^ p) (-p) .exact := by
      have hshift : (-((n.log2 : ℤ) - 52)).toNat = p := by omega
      unfold UnpackedFloat.round decreaseExponent
      simp only [htarget, zero_sub, hshift, Nat.shiftLeft_eq]
    refine ⟨n * 2 ^ p, -p, by omega, ?_, hlo', hhi', by omega, by omega, ?_⟩
    · rw [hround, roundWithAccuracy_full hlo' hhi' (by omega)]
    · rw [nearestNat_of_short hshort]
      push_cast
      rw [mul_assoc, ← zpow_natCast, ← zpow_add₀ (by norm_num), add_neg_cancel, zpow_zero, mul_one]
  · obtain ⟨p, hp⟩ : ∃ p, n.log2 = 52 + p := ⟨n.log2 - 52, by omega⟩
    rw [hp] at hlo hhi
    have hround : UnpackedFloat.round Format.binary64 sign n 0 =
        roundWithAccuracy Format.binary64 sign n 0 .exact := by
      unfold UnpackedFloat.round decreaseExponent
      have hshift : (0 - ((n.log2 : ℤ) - 52)).toNat = 0 := by omega
      simp only [htarget, hshift]
      rfl
    rw [hround, nearestNat, hp, Nat.add_sub_cancel_left]
    exact roundWithAccuracy_long hlo hhi (by omega) sign

theorem unpackSign_packComponents (sign : Sign) (exponent : BitVec 11) (mantissa : BitVec 52) :
    Sign.ofBitVec (unpackSign (packComponents Format.binary64 sign exponent mantissa)) = sign := by
  change Sign.ofBitVec ((sign.toBitVec ++ exponent ++ mantissa).extractLsb' 63 1) = sign
  rw [BitVec.extractLsb'_append_eq_of_le (by omega), BitVec.extractLsb'_append_eq_of_le (by omega)]
  cases sign <;> rfl

/-- The first digit is not among the bits. -/
theorem toNat_implicit (v : BitVec 52) : (1#1 ++ v).toNat = 2 ^ 52 + v.toNat := by
  rw [BitVec.toNat_append, ← Nat.shiftLeft_add_eq_or_of_lt v.isLt, Nat.shiftLeft_eq]
  rfl

/-- A number with all 53 digits is not changed by packing. -/
theorem unpack_pack_full {m : ℕ} {e : ℤ} (hlo : 2 ^ 52 ≤ m) (hhi : m < 2 ^ 53) (he : -1074 ≤ e)
    (he' : e ≤ 971) (sign : Sign) (hm : 0 < m) :
    unpack Format.binary64 (pack Format.binary64 (.finite sign m e hm)) = .finite sign m e hm := by
  obtain ⟨b, hb⟩ : ∃ b : ℕ, (b : ℤ) = e + 1075 := ⟨(e + 1075).toNat, by omega⟩
  have hbiased : (e + Format.binary64.exponentBias +
      Format.binary64.mantissaBitsWithoutImplicit).toNat = b := by
    change (e + (2 ^ (11 - 1) - 1 : ℕ) + (52 : ℕ)).toNat = b
    omega
  have hbits : (BitVec.ofNat 11 b).toNat = b := by
    rw [BitVec.toNat_ofNat]
    omega
  have hones : BitVec.ofNat 11 b ≠ -1#11 := by
    rw [ne_eq, ← BitVec.toNat_inj, hbits]
    change b ≠ 2047
    omega
  have hzeros : BitVec.ofNat 11 b ≠ 0#11 := by
    rw [ne_eq, ← BitVec.toNat_inj, hbits]
    change b ≠ 0
    omega
  have hmantissa : (1#1 ++ BitVec.ofNat 52 m).toNat = m := by
    rw [toNat_implicit, BitVec.toNat_ofNat]
    omega
  have hpack : pack Format.binary64 (.finite sign m e hm) =
      packComponents Format.binary64 sign (BitVec.ofNat 11 b) (BitVec.ofNat 52 m) := by
    unfold UnpackedFloat.pack
    simp only [hbiased, log2_eq hlo hhi]
    rw [if_neg (by norm_num; omega), if_pos (show 52 + 1 = Format.binary64.mantissaBits from rfl)]
  have hexponent : unpackExponent (packComponents Format.binary64 sign (BitVec.ofNat 11 b)
      (BitVec.ofNat 52 m)) = BitVec.ofNat 11 b := unpackExponent_packComponents
  have hfraction : unpackMantissa (packComponents Format.binary64 sign (BitVec.ofNat 11 b)
      (BitVec.ofNat 52 m)) = BitVec.ofNat 52 m := unpackMantissa_packComponents
  rw [hpack]
  refine ((if_neg ?_).trans (if_neg ?_)).trans (finite_congr ?_ ?_ ?_)
  · rw [hexponent]
    exact hones
  · rw [hexponent]
    exact hzeros
  · exact unpackSign_packComponents sign _ _
  · rw [hfraction]
    exact hmantissa
  · rw [hexponent]
    change ((BitVec.ofNat 11 b).toNat : ℤ) - (1023 + 52) = e
    rw [hbits]
    omega

/-- The nearest integer with at most 53 binary digits and any number of zeros behind them, of two
equally near the one with the even last digit. -/
def nearest (n : ℤ) : ℤ := n.sign * nearestNat n.natAbs

theorem normalize_nat {n : ℕ} (hpos : 0 < n) :
    UnpackedFloat.normalize Format.binary64 n 0 .positive =
      UnpackedFloat.round Format.binary64 .positive n 0 := by
  have hcompare : compare (n : ℤ) 0 = .gt := compare_gt_iff_gt.2 (by omega)
  rw [UnpackedFloat.normalize, hcompare]
  rfl

theorem Full.unpack_pack {u : UnpackedFloat} {sign : Sign} {n : ℕ} (h : Full u sign n) :
    unpack Format.binary64 (pack Format.binary64 u) = u := by
  obtain ⟨m, e, hm, rfl, hlo, hhi, he, he', -⟩ := h
  exact unpack_pack_full hlo hhi (by omega) (by omega) sign hm

theorem full_toFloat {u : UInt64} (hpos : 0 < u.toNat) :
    Full (unpacked u.toFloat) .positive (nearestNat u.toNat) := by
  have hround := round_nat hpos u.toNat_lt .positive
  have hunpacked : unpacked u.toFloat = unpack Format.binary64 (pack Format.binary64
    (UnpackedFloat.normalize Format.binary64 u.toNat 0 .positive)) := rfl
  rw [hunpacked, normalize_nat hpos, hround.unpack_pack]
  exact hround

theorem Full.neg {x : Float} {n : ℕ} (h : Full (unpacked x) .positive n) :
    Full (unpacked (-x)) .negative n := by
  obtain ⟨m, e, hm, hx, hrest⟩ := h
  have hfull : Full (.finite .negative m e hm) .negative n := ⟨m, e, hm, rfl, hrest⟩
  have hneg : unpacked (-x) = unpack Format.binary64 (pack Format.binary64 (unpacked x).neg) := rfl
  have hflip : (unpacked x).neg = .finite .negative m e hm := by
    rw [hx]
    rfl
  rw [hneg, hflip, hfull.unpack_pack]
  exact hfull

/-- An integer becomes the nearest double. -/
theorem full_ofInt64 {n : Int64} (hn : n.toInt ≠ 0) :
    Full (unpacked (ofInt64 n)) (if n.toInt < 0 then .negative else .positive)
      (nearestNat n.toInt.natAbs) := by
  have hlt : n < 0 ↔ n.toInt < 0 := Int64.lt_iff_toInt_lt
  have hbits : n.toInt = n.toBitVec.toInt := rfl
  rw [BitVec.toInt_eq_toNat_cond] at hbits
  have hbound := n.toBitVec.isLt
  unfold ofInt64
  by_cases hneg : n.toInt < 0
  · rw [if_pos (hlt.2 hneg), if_pos hneg]
    have hsize : (-n).toUInt64.toNat = n.toInt.natAbs := by
      change (-n.toBitVec).toNat = _
      rw [BitVec.toNat_neg]
      split_ifs at hbits <;> omega
    rw [← hsize]
    exact (full_toFloat (by omega)).neg
  · rw [if_neg (fun h => hneg (hlt.1 h)), if_neg hneg]
    have hsize : n.toUInt64.toNat = n.toInt.natAbs := by
      change n.toBitVec.toNat = _
      split_ifs at hbits <;> omega
    rw [← hsize]
    exact full_toFloat (by omega)

/-- The exact value of a finite double. -/
def value (x : Float) : ℚ :=
  (if (parts x).negative then -1 else 1) * ((parts x).mantissa * 2 ^ (parts x).exponent)

def isNegative : Sign → Bool
  | .negative => true
  | .positive => false

theorem isNegative_unpackSign (b : BitVec 64) :
    isNegative (Sign.ofBitVec (@unpackSign Format.binary64 b)) = decide (b.toNat / 2 ^ 63 = 1) := by
  have hbit : (@unpackSign Format.binary64 b).toNat = b.toNat / 2 ^ 63 % 2 := by
    change (b.toNat >>> 63) % 2 ^ 1 = _
    rw [Nat.shiftRight_eq_div_pow]
  have hbound := b.isLt
  by_cases hone : b.toNat / 2 ^ 63 = 1
  · have hsign : @unpackSign Format.binary64 b = 1#1 := by
      rw [← BitVec.toNat_inj, hbit, hone]
      rfl
    rw [hsign, hone]
    rfl
  · have hsign : @unpackSign Format.binary64 b = 0#1 := by
      rw [← BitVec.toNat_inj, hbit]
      change b.toNat / 2 ^ 63 % 2 = 0
      omega
    rw [hsign, decide_eq_false hone]
    rfl

/-- The parts of a double are those that it is compared by. -/
theorem parts_of_finite {x : Float} {sign : Sign} {m : ℕ} {e : ℤ} {h : 0 < m}
    (hx : unpacked x = .finite sign m e h) : parts x = ⟨isNegative sign, m, e⟩ := by
  have hexponent : (@unpackExponent Format.binary64 x.toBits.toBitVec).toNat =
      x.toBits.toNat / 2 ^ 52 % 2 ^ 11 := by
    change (x.toBits.toNat >>> 52) % 2 ^ 11 = _
    rw [Nat.shiftRight_eq_div_pow]
  have hmantissa : (@unpackMantissa Format.binary64 x.toBits.toBitVec).toNat =
      x.toBits.toNat % 2 ^ 52 := rfl
  have hnegative := isNegative_unpackSign x.toBits.toBitVec
  by_cases hones : @unpackExponent Format.binary64 x.toBits.toBitVec = -1#11
  · by_cases hfraction : @unpackMantissa Format.binary64 x.toBits.toBitVec = 0#52
    · have hinfinity : unpacked x = .infinity _ := (if_pos hones).trans (if_pos hfraction)
      cases hx.symm.trans hinfinity
    · have hnan : unpacked x = .notANumber := (if_pos hones).trans (if_neg hfraction)
      cases hx.symm.trans hnan
  · by_cases hzeros : @unpackExponent Format.binary64 x.toBits.toBitVec = 0#11
    · rw [hzeros] at hexponent
      obtain ⟨-, hparts⟩ | ⟨hne, -⟩ := parts_cases x
      · by_cases hfraction : @unpackMantissa Format.binary64 x.toBits.toBitVec = 0#52
        · have hzero : unpacked x = .zero _ :=
            (if_neg hones).trans ((if_pos hzeros).trans (dif_pos hfraction))
          cases hx.symm.trans hzero
        · have hfinite : unpacked x = .finite _ _ _ _ :=
            (if_neg hones).trans ((if_pos hzeros).trans (dif_neg hfraction))
          cases hx.symm.trans hfinite
          rw [hparts, hnegative, hmantissa, hzeros]
          rfl
      · exact absurd hexponent.symm hne
    · have hfinite : unpacked x = .finite _ _ _ _ := (if_neg hones).trans (if_neg hzeros)
      obtain ⟨hzero, -⟩ | ⟨-, hparts⟩ := parts_cases x
      · rw [hzero] at hexponent
        exact absurd (BitVec.toNat_inj.1 hexponent) hzeros
      · cases hx.symm.trans hfinite
        have hdigits : (1#1 ++ @unpackMantissa Format.binary64 x.toBits.toBitVec).toNat =
            2 ^ 52 + x.toBits.toNat % 2 ^ 52 := by
          rw [toNat_implicit, hmantissa]
        rw [hparts, hnegative, hdigits, hexponent]
        rfl

/-- Made a double, an integer is rounded to 53 binary digits, to the nearest such number and of two
equally near to the even one. -/
theorem value_ofInt64 (n : Int64) : value (ofInt64 n) = nearest n.toInt := by
  by_cases hn : n.toInt = 0
  · obtain rfl : n = 0 := Int64.toInt_inj.1 hn
    have hzero : parts (ofInt64 0) = ⟨false, 0, -1074⟩ := by rfl
    rw [value, hzero]
    simp [nearest]
  · obtain ⟨m, e, h, hx, -, -, -, -, hsize⟩ := full_ofInt64 hn
    rw [value, parts_of_finite hx, nearest]
    dsimp only
    rw [hsize]
    obtain hneg | hpos := lt_or_gt_of_ne hn
    · rw [if_pos hneg, Int.sign_eq_neg_one_of_neg hneg]
      simp [isNegative]
    · rw [if_neg (not_lt.2 hpos.le), Int.sign_eq_one_of_pos hpos]
      simp [isNegative]

theorem value_eq_of_same {x y : Float} {sign : Sign} {m : ℕ} {e : ℤ} {h : 0 < m}
    (hx : unpacked x = .finite sign m e h) (hsame : Same (unpacked x) (unpacked y)) :
    value x = value y := by
  rw [hx] at hsame
  cases hy : unpacked y with
  | finite sign' m' e' h' =>
    rw [hy] at hsame
    cases hsame
    rw [value, value, parts_of_finite hx, parts_of_finite hy]
  | notANumber | infinity | zero =>
    rw [hy] at hsame
    cases hsame

/-- Two integers that make equal doubles are rounded to the same integer. -/
theorem nearest_eq_of_beq {m n : Int64} (h : (ofInt64 m == ofInt64 n) = true) :
    nearest m.toInt = nearest n.toInt := by
  have hsame := (beq_iff _ _).1 (beq_eq _ _ ▸ h)
  have hvalue : value (ofInt64 m) = value (ofInt64 n) := by
    by_cases hm : m.toInt = 0
    · by_cases hn : n.toInt = 0
      · rw [Int64.toInt_inj.1 (hm.trans hn.symm)]
      · obtain ⟨_, _, _, hx, -⟩ := full_ofInt64 hn
        exact (value_eq_of_same hx hsame.symm).symm
    · obtain ⟨_, _, _, hx, -⟩ := full_ofInt64 hm
      exact value_eq_of_same hx hsame
  rw [value_ofInt64, value_ofInt64] at hvalue
  exact_mod_cast hvalue

/-- The integers of at most 53 binary digits, and the next one, are doubles. -/
theorem nearest_eq_self {n : ℤ} (h : n.natAbs ≤ 2 ^ 53) : nearest n = n := by
  have hexact : nearestNat n.natAbs = n.natAbs := by
    obtain hlt | heq := Nat.lt_or_eq_of_le h
    · apply nearestNat_of_short
      rw [Nat.log2_eq_log_two]
      exact Nat.lt_succ_iff.1 (Nat.log_lt_of_lt_pow' (by decide) hlt)
    · rw [heq]
      rfl
  rw [nearest, hexact]
  exact Int.sign_mul_natAbs n

end Double

end Formula
