import Mathlib.Algebra.Order.Field.Power
import Mathlib.Data.Rat.Cast.Order
import Mathlib.Tactic.Linarith
import Mathlib.Tactic.NormNum
import Mathlib.Tactic.Positivity
import Mathlib.Tactic.Ring
import Formula.Decimal.Shortest
import Formula.Proofs.Double.Parts

/-!
The shortest decimal of a double lies among the reals that round to it, and the reals that round to
one double are all below those that round to a larger one. So the digits of a double tell which
double it is. All comparisons of the search are between naturals; they are carried over to rationals
by a common factor.
-/
namespace Formula

open Double (Canonical)

/-- The magnitude of the number with the given parts. -/
def Binary.size (b : Binary) : ℚ := b.mantissa * 2 ^ b.exponent

namespace Decimal

def value (d : Decimal) : ℚ := d.digits * 10 ^ d.exponent

section Scaled

variable {m n : ℕ} {p q c : ℚ}

theorem scaled_le_iff (hc : 0 < c) (hm : (m : ℚ) = p * c) (hn : (n : ℚ) = q * c) :
    m ≤ n ↔ p ≤ q := by
  rw [← Nat.cast_le (α := ℚ), hm, hn, mul_le_mul_iff_of_pos_right hc]

theorem scaled_lt_iff (hc : 0 < c) (hm : (m : ℚ) = p * c) (hn : (n : ℚ) = q * c) :
    m < n ↔ p < q := by
  rw [← Nat.cast_lt (α := ℚ), hm, hn, mul_lt_mul_iff_of_pos_right hc]

end Scaled

/-- A power is the quotient of its two natural powers, of which one is trivial. -/
theorem zpow_mul_pow_neg {a : ℚ} (ha : a ≠ 0) (e : ℤ) :
    a ^ e * a ^ (-e).toNat = a ^ e.toNat := by
  rw [← zpow_natCast, ← zpow_natCast, ← zpow_add₀ ha]
  congr 1
  omega

theorem pow10_cast (e : ℤ) : (pow10 e.toNat : ℚ) = 10 ^ e * pow10 (-e).toNat := by
  simp only [pow10, Nat.pow_eq, Nat.cast_pow, Nat.cast_ofNat]
  exact (zpow_mul_pow_neg (by norm_num) e).symm

theorem pow2_cast (e : ℤ) : (pow2 e.toNat : ℚ) = 2 ^ e * pow2 (-e).toNat := by
  simp only [pow2, Nat.pow_eq, Nat.cast_pow, Nat.cast_ofNat]
  exact (zpow_mul_pow_neg (by norm_num) e).symm

theorem pow10_pos (n : ℕ) : (0 : ℚ) < pow10 n := by
  simp only [pow10, Nat.pow_eq, Nat.cast_pow, Nat.cast_ofNat]
  positivity

theorem pow2_pos (n : ℕ) : (0 : ℚ) < pow2 n := by
  simp only [pow2, Nat.pow_eq, Nat.cast_pow, Nat.cast_ofNat]
  positivity

/-- A quarter of the distance to the next larger double. -/
def quarter (b : Binary) : ℚ := 2 ^ (b.exponent - 2)

/-- How many quarters the interval reaches down. Below a power of two the gap is half as wide. -/
def reach (b : Binary) : ℕ := if b.mantissa = 2 ^ 52 ∧ -1074 < b.exponent then 1 else 2

def lower (b : Binary) : ℚ := (4 * b.mantissa - reach b) * quarter b

def upper (b : Binary) : ℚ := (4 * b.mantissa + 2) * quarter b

/-- A real that rounds to the double, a tie to the even mantissa. -/
structure Rounds (b : Binary) (q : ℚ) : Prop where
  lower_le : lower b ≤ q
  le_upper : q ≤ upper b
  inside : b.mantissa % 2 = 1 → lower b < q ∧ q < upper b

theorem Rounds.of_inside {b : Binary} {q : ℚ} (hlower : lower b < q) (hupper : q < upper b) :
    Rounds b q :=
  ⟨hlower.le, hupper.le, fun _ => ⟨hlower, hupper⟩⟩

theorem quarter_pos (b : Binary) : 0 < quarter b := by
  unfold quarter
  positivity

theorem size_eq (b : Binary) : b.size = 4 * b.mantissa * quarter b := by
  unfold Binary.size quarter
  rw [zpow_sub₀ (by norm_num : (2 : ℚ) ≠ 0)]
  ring

theorem reach_cases (b : Binary) : reach b = 1 ∧ b.mantissa = 2 ^ 52 ∨ reach b = 2 := by
  unfold reach
  split
  next h => exact .inl ⟨rfl, h.1⟩
  next => exact .inr rfl

theorem reach_pos (b : Binary) : 0 < reach b := by
  rcases reach_cases b with ⟨h, -⟩ | h <;> omega

theorem reach_le (b : Binary) : reach b ≤ 2 := by
  rcases reach_cases b with ⟨h, -⟩ | h <;> omega

theorem lower_lt_size (b : Binary) : lower b < b.size := by
  rw [size_eq, lower]
  have hreach : (0 : ℚ) < reach b := by exact_mod_cast reach_pos b
  exact mul_lt_mul_of_pos_right (by linarith) (quarter_pos b)

theorem size_lt_upper (b : Binary) : b.size < upper b := by
  rw [size_eq, upper]
  exact mul_lt_mul_of_pos_right (by linarith) (quarter_pos b)

/-- The reals that round to a double are positive if it is. -/
theorem Rounds.pos {b : Binary} {q : ℚ} (h : Rounds b q) (hpos : 0 < b.mantissa) : 0 < q := by
  refine lt_of_lt_of_le ?_ h.lower_le
  have hreach : (reach b : ℚ) ≤ 2 := by exact_mod_cast reach_le b
  have hmantissa : (1 : ℚ) ≤ b.mantissa := by exact_mod_cast hpos
  exact mul_pos (by linarith) (quarter_pos b)

/-- The interval of a double ends where the one of the next double with the same exponent begins;
the end belongs to one of them only. -/
theorem Rounds.lt_of_mantissa {a b : Binary} {p q : ℚ} (ha : Rounds a p) (hb : Rounds b q)
    (hexponent : a.exponent = b.exponent) (hmantissa : a.mantissa < b.mantissa) : p < q := by
  have hquarter : quarter a = quarter b := by rw [quarter, quarter, hexponent]
  have hreach : (reach b : ℚ) ≤ 2 := by exact_mod_cast reach_le b
  have hpos := quarter_pos b
  have hstep : (a.mantissa : ℚ) + 1 ≤ b.mantissa := by exact_mod_cast hmantissa
  have hends : upper a ≤ lower b := by
    rw [upper, lower, hquarter]
    exact mul_le_mul_of_nonneg_right (by linarith) hpos.le
  by_cases hodd : a.mantissa % 2 = 1
  · exact ((ha.inside hodd).2.trans_le hends).trans_le hb.lower_le
  by_cases hodd' : b.mantissa % 2 = 1
  · exact (ha.le_upper.trans hends).trans_lt (hb.inside hodd').1
  have hskip : (a.mantissa : ℚ) + 2 ≤ b.mantissa := by
    have : a.mantissa + 2 ≤ b.mantissa := by omega
    exact_mod_cast this
  have hends : upper a < lower b := by
    rw [upper, lower, hquarter]
    exact mul_lt_mul_of_pos_right (by linarith) hpos
  exact (ha.le_upper.trans_lt hends).trans_le hb.lower_le

theorem two_quarter_le {a b : Binary} (h : a.exponent < b.exponent) : 2 * quarter a ≤ quarter b := by
  have hdouble : quarter a * 2 = 2 ^ (a.exponent - 2 + 1) := by
    rw [zpow_add_one₀ (by norm_num), quarter]
  rw [mul_comm, hdouble, quarter]
  exact zpow_le_zpow_right₀ (by norm_num) (by omega)

/-- Below a full mantissa the interval reaches at most a quarter below the power of two. -/
theorem le_lower_of_normal {b : Binary} (hb : Canonical b) (h : -1074 < b.exponent) :
    (2 ^ 54 - 1) * quarter b ≤ lower b := by
  have hfull := hb.full h
  have hedge : 2 ^ 54 - 1 + reach b ≤ 4 * b.mantissa := by
    unfold reach
    split <;> omega
  have hedge : (2 ^ 54 - 1 + reach b : ℚ) ≤ 4 * b.mantissa := by
    have hcast := (Nat.cast_le (α := ℚ)).2 hedge
    push_cast at hcast
    linarith
  exact mul_le_mul_of_nonneg_right (by linarith) (quarter_pos b).le

/-- The interval of the last double with an exponent ends where the one of the power of two above
begins; the last mantissa is odd, so the end does not belong to it. -/
theorem Rounds.lt_of_exponent {a b : Binary} {p q : ℚ} (ha : Rounds a p) (hb : Rounds b q)
    (hca : Canonical a) (hcb : Canonical b) (hexponent : a.exponent < b.exponent) : p < q := by
  have hpos := quarter_pos a
  have hlower := le_lower_of_normal hcb (hca.exponent_ge.trans_lt hexponent)
  have hends : (2 ^ 55 - 2) * quarter a ≤ lower b := by
    refine le_trans ?_ hlower
    calc (2 ^ 55 - 2) * quarter a = (2 ^ 54 - 1) * (2 * quarter a) := by ring
      _ ≤ (2 ^ 54 - 1) * quarter b :=
        mul_le_mul_of_nonneg_left (two_quarter_le hexponent) (by norm_num)
  have hmantissa := hca.mantissa_lt
  by_cases hodd : a.mantissa % 2 = 1
  · have hlast : (a.mantissa : ℚ) ≤ 2 ^ 53 - 1 := by
      have : a.mantissa + 1 ≤ 2 ^ 53 := hmantissa
      have : (a.mantissa : ℚ) + 1 ≤ 2 ^ 53 := by exact_mod_cast this
      linarith
    have hupper : upper a ≤ (2 ^ 55 - 2) * quarter a :=
      mul_le_mul_of_nonneg_right (by linarith) hpos.le
    exact (ha.inside hodd).2.trans_le ((hupper.trans hends).trans hb.lower_le)
  · have hlast : (a.mantissa : ℚ) ≤ 2 ^ 53 - 2 := by
      have : a.mantissa + 2 ≤ 2 ^ 53 := by omega
      have : (a.mantissa : ℚ) + 2 ≤ 2 ^ 53 := by exact_mod_cast this
      linarith
    have hupper : upper a < (2 ^ 55 - 2) * quarter a :=
      mul_lt_mul_of_pos_right (by linarith) hpos
    exact (ha.le_upper.trans_lt hupper).trans_le (hends.trans hb.lower_le)

/-- No real rounds to two doubles. -/
theorem Rounds.unique {a b : Binary} {q : ℚ} (ha : Rounds a q) (hb : Rounds b q)
    (hca : Canonical a) (hcb : Canonical b) :
    a.mantissa = b.mantissa ∧ a.exponent = b.exponent := by
  rcases lt_trichotomy a.exponent b.exponent with hlt | heq | hgt
  · exact absurd (ha.lt_of_exponent hb hca hcb hlt) (lt_irrefl q)
  · rcases lt_trichotomy a.mantissa b.mantissa with hlt | heq' | hgt
    · exact absurd (ha.lt_of_mantissa hb heq hlt) (lt_irrefl q)
    · exact ⟨heq', heq⟩
    · exact absurd (hb.lt_of_mantissa ha heq.symm hgt) (lt_irrefl q)
  · exact absurd (hb.lt_of_exponent ha hcb hca hgt) (lt_irrefl q)

section Search

variable {b : Binary}

theorem scale_pos (b : Binary) : (0 : ℚ) < (Interval.of b).scale := pow2_pos _

theorem up_cast (b : Binary) :
    (pow2 (b.exponent - 2).toNat : ℚ) = quarter b * (Interval.of b).scale := by
  have h := pow2_cast (b.exponent - 2)
  rwa [neg_sub] at h

theorem value_cast (b : Binary) :
    ((Interval.of b).value : ℚ) = b.size * (Interval.of b).scale := by
  rw [size_eq, mul_assoc, ← up_cast]
  simp only [Interval.of]
  push_cast
  ring

theorem high_cast (b : Binary) :
    ((Interval.of b).high : ℚ) = upper b * (Interval.of b).scale := by
  rw [upper, mul_assoc, ← up_cast]
  simp only [Interval.of]
  push_cast
  ring

theorem low_cast (hpos : 0 < b.mantissa) :
    ((Interval.of b).low : ℚ) = lower b * (Interval.of b).scale := by
  have hreach : reach b ≤ 4 * b.mantissa := by
    have := reach_le b
    omega
  have hlow : (Interval.of b).low = (4 * b.mantissa - reach b) * pow2 (b.exponent - 2).toNat := rfl
  rw [lower, mul_assoc, ← up_cast, hlow]
  push_cast [hreach]
  ring

/-- The test of the search, on rationals. -/
theorem holds_iff (hpos : 0 < b.mantissa) (n : ℕ) (e : ℤ) :
    (Interval.of b).holds n e = true ↔ Rounds b (n * 10 ^ e) := by
  have hfactor : (0 : ℚ) < (Interval.of b).scale * pow10 (-e).toNat :=
    mul_pos (scale_pos b) (pow10_pos _)
  have hlow : (((Interval.of b).low * pow10 (-e).toNat : ℕ) : ℚ) =
      lower b * ((Interval.of b).scale * pow10 (-e).toNat) := by
    rw [Nat.cast_mul, low_cast hpos, mul_assoc]
  have hhigh : (((Interval.of b).high * pow10 (-e).toNat : ℕ) : ℚ) =
      upper b * ((Interval.of b).scale * pow10 (-e).toNat) := by
    rw [Nat.cast_mul, high_cast, mul_assoc]
  have hpoint : ((n * pow10 e.toNat * (Interval.of b).scale : ℕ) : ℚ) =
      n * 10 ^ e * ((Interval.of b).scale * pow10 (-e).toNat) := by
    rw [Nat.cast_mul, Nat.cast_mul, pow10_cast]
    ring
  have hclosed : (Interval.of b).closed = decide (b.mantissa % 2 = 0) := rfl
  by_cases heven : b.mantissa % 2 = 0
  · simp only [Interval.holds, hclosed, heven, decide_true, if_true, Bool.and_eq_true, decide_eq_true_eq,
      scaled_le_iff hfactor hlow hpoint, scaled_le_iff hfactor hpoint hhigh]
    constructor
    · rintro ⟨hlower, hupper⟩
      exact ⟨hlower, hupper, fun hodd => absurd hodd (by omega)⟩
    · exact fun h => ⟨h.lower_le, h.le_upper⟩
  · simp only [Interval.holds, hclosed, heven, decide_false, Bool.false_eq_true, if_false,
      Bool.and_eq_true, decide_eq_true_eq, scaled_lt_iff hfactor hlow hpoint,
      scaled_lt_iff hfactor hpoint hhigh]
    constructor
    · rintro ⟨hlower, hupper⟩
      exact .of_inside hlower hupper
    · exact fun h => h.inside (by omega)

/-- Raising the guess keeps it at most one above the magnitude of the value. -/
theorem magnitudeFrom_le (b : Binary) (fuel : ℕ) (guess : ℤ) (h : (10 : ℚ) ^ (guess - 1) ≤ b.size) :
    (10 : ℚ) ^ ((Interval.of b).magnitudeFrom fuel guess - 1) ≤ b.size := by
  induction fuel generalizing guess with
  | zero => exact h
  | succ fuel ih =>
    rw [Interval.magnitudeFrom]
    split
    next => exact h
    next hge =>
      apply ih
      have hfactor : (0 : ℚ) < (Interval.of b).scale * pow10 (-guess).toNat :=
        mul_pos (scale_pos b) (pow10_pos _)
      rw [add_sub_cancel_right]
      refine (scaled_le_iff hfactor ?_ ?_).1 (not_lt.1 hge)
      · rw [Nat.cast_mul, pow10_cast]
        ring
      · rw [Nat.cast_mul, value_cast, mul_assoc]

/-- The binary length of a value, from the lengths of its numerator and its denominator. -/
def bits (i : Interval) : ℤ := (i.value.log2 : ℤ) - (i.scale.log2 : ℤ)

theorem size_mem_bits (hpos : 0 < b.mantissa) :
    (2 : ℚ) ^ bits (Interval.of b) ≤ b.size ∧ b.size < 2 ^ (bits (Interval.of b) + 1) := by
  have hscale : ((Interval.of b).scale : ℚ) = 2 ^ ((Interval.of b).scale.log2 : ℤ) := by
    have h : (Interval.of b).scale = 2 ^ (2 - b.exponent).toNat := rfl
    rw [h, Nat.log2_two_pow, zpow_natCast]
    push_cast
    rfl
  have hvalue : (Interval.of b).value ≠ 0 := by
    have h := value_cast b
    have hsize : 0 < b.size := (Rounds.of_inside (lower_lt_size b) (size_lt_upper b)).pos hpos
    intro h0
    rw [h0, Nat.cast_zero] at h
    exact absurd h.symm (mul_pos hsize (scale_pos b)).ne'
  have hlow : (2 : ℚ) ^ ((Interval.of b).value.log2 : ℤ) ≤ b.size * (Interval.of b).scale := by
    rw [← value_cast, zpow_natCast]
    exact_mod_cast Nat.log2_self_le hvalue
  have hhigh : b.size * (Interval.of b).scale < (2 : ℚ) ^ ((Interval.of b).value.log2 + 1 : ℤ) := by
    rw [← value_cast]
    have h := Nat.lt_log2_self (n := (Interval.of b).value)
    exact_mod_cast h
  rw [hscale] at hlow hhigh
  have hpow : (0 : ℚ) < 2 ^ ((Interval.of b).scale.log2 : ℤ) := by positivity
  constructor
  · rw [bits, zpow_sub₀ (by norm_num), div_le_iff₀ hpow]
    exact hlow
  · rw [bits, sub_add_eq_add_sub, zpow_sub₀ (by norm_num), lt_div_iff₀ hpow]
    exact hhigh

/-- The ratio `p / q` stands for the logarithm of two. -/
theorem zpow_le_of_ratio {p q : ℕ} {n k : ℤ} (hq : q ≠ 0) (h : q * k ≤ p * n)
    (hbase : ((10 : ℚ) ^ p) ^ n ≤ (2 ^ q) ^ n) : (10 : ℚ) ^ k ≤ 2 ^ n := by
  have hpow : ((10 : ℚ) ^ k) ^ q ≤ (2 ^ n) ^ q := by
    calc ((10 : ℚ) ^ k) ^ q = 10 ^ (q * k) := by rw [← zpow_natCast, ← zpow_mul, mul_comm]
      _ ≤ 10 ^ (p * n) := zpow_le_zpow_right₀ (by norm_num) h
      _ = (10 ^ p) ^ n := by rw [zpow_mul, zpow_natCast]
      _ ≤ (2 ^ q) ^ n := hbase
      _ = (2 ^ n) ^ q := by rw [← zpow_natCast, ← zpow_mul, ← zpow_natCast, ← zpow_mul, mul_comm]
  exact (pow_le_pow_iff_left₀ (by positivity) (by positivity) hq).1 hpow

/-- The guess from the binary length is low enough on the whole range of doubles. -/
theorem guess_le {n : ℤ} (hlow : -1075 ≤ n) (hhigh : n ≤ 1025) :
    (10 : ℚ) ^ (n * 30103 / 100000 - 1 - 1) ≤ 2 ^ n := by
  rcases le_or_gt 0 n with hn | hn
  · refine zpow_le_of_ratio (p := 3) (q := 10) (by norm_num) (by omega) ?_
    exact zpow_le_zpow_left₀ hn (by norm_num) (by norm_num)
  · refine zpow_le_of_ratio (p := 13) (q := 43) (by norm_num) (by omega) ?_
    have hbase : ((2 : ℚ) ^ 43) ^ (-n) ≤ (10 ^ 13) ^ (-n) :=
      zpow_le_zpow_left₀ (by omega) (by norm_num) (by norm_num)
    have hinv := inv_anti₀ (by positivity) hbase
    rwa [← zpow_neg, ← zpow_neg, neg_neg] at hinv

theorem magnitude_le (hb : Canonical b) (hpos : 0 < b.mantissa) :
    (10 : ℚ) ^ ((Interval.of b).magnitude - 1) ≤ b.size := by
  obtain ⟨hlow, hhigh⟩ := size_mem_bits hpos
  apply magnitudeFrom_le
  refine le_trans (guess_le (n := bits (Interval.of b)) ?_ ?_) hlow
  · have hsize : (2 : ℚ) ^ (-1074 : ℤ) ≤ b.size := by
      have h : (1 : ℚ) ≤ b.mantissa := by exact_mod_cast hpos
      calc (2 : ℚ) ^ (-1074 : ℤ) ≤ 2 ^ b.exponent := zpow_le_zpow_right₀ (by norm_num) hb.exponent_ge
        _ = 1 * 2 ^ b.exponent := (one_mul _).symm
        _ ≤ b.size := mul_le_mul_of_nonneg_right h (by positivity)
    have := (zpow_lt_zpow_iff_right₀ (by norm_num : (1 : ℚ) < 2)).1 (hsize.trans_lt hhigh)
    omega
  · have hsize : b.size ≤ 2 ^ (1025 : ℤ) := by
      have h : (b.mantissa : ℚ) ≤ 2 ^ (53 : ℤ) := by exact_mod_cast hb.mantissa_lt.le
      calc b.size ≤ 2 ^ (53 : ℤ) * 2 ^ b.exponent := mul_le_mul_of_nonneg_right h (by positivity)
        _ = 2 ^ (53 + b.exponent) := (zpow_add₀ (by norm_num) _ _).symm
        _ ≤ 2 ^ (1025 : ℤ) := zpow_le_zpow_right₀ (by norm_num) (by have := hb.exponent_le; omega)
    exact (zpow_le_zpow_iff_right₀ (by norm_num : (1 : ℚ) < 2)).1 (hlow.trans hsize)

/-- The multiple of `10 ^ e` at or below the value. -/
def below (i : Interval) (e : ℤ) : ℕ := i.value * pow10 (-e).toNat / (pow10 e.toNat * i.scale)

/-- The value lies between its two neighbours on a decimal grid. -/
theorem size_mem_grid (b : Binary) (e : ℤ) :
    (below (Interval.of b) e : ℚ) * 10 ^ e ≤ b.size ∧
      b.size < ((below (Interval.of b) e + 1 : ℕ) : ℚ) * 10 ^ e := by
  have hfactor : (0 : ℚ) < (Interval.of b).scale * pow10 (-e).toNat :=
    mul_pos (scale_pos b) (pow10_pos _)
  have hnumerator : (((Interval.of b).value * pow10 (-e).toNat : ℕ) : ℚ) =
      b.size * ((Interval.of b).scale * pow10 (-e).toNat) := by
    rw [Nat.cast_mul, value_cast, mul_assoc]
  have hgrid (n : ℕ) : ((n * (pow10 e.toNat * (Interval.of b).scale) : ℕ) : ℚ) =
      n * 10 ^ e * ((Interval.of b).scale * pow10 (-e).toNat) := by
    rw [Nat.cast_mul, Nat.cast_mul, pow10_cast]
    ring
  have hdenominator : 0 < pow10 e.toNat * (Interval.of b).scale := by
    have h := mul_pos (pow10_pos e.toNat) (scale_pos b)
    exact_mod_cast h
  constructor
  · exact (scaled_le_iff hfactor (hgrid _) hnumerator).1 (Nat.div_mul_le_self _ _)
  · exact (scaled_lt_iff hfactor hnumerator (hgrid _)).1 
      ((Nat.div_lt_iff_lt_mul hdenominator).1 (Nat.lt_succ_self _))

/-- A candidate is one of the two neighbours and passes the test. -/
theorem holds_of_candidate {i : Interval} {magnitude : ℤ} {places : ℕ} {d : Decimal}
    (h : i.candidate? magnitude places = some d) : i.holds d.digits d.exponent = true := by
  simp only [Interval.candidate?] at h
  split at h
  next hbelow habove =>
    cases h
    dsimp only
    split
    · exact hbelow
    · exact habove
  next hbelow _ => cases h; exact hbelow
  next _ habove => cases h; exact habove
  next => cases h

theorem not_holds_of_candidate {i : Interval} {magnitude : ℤ} {places : ℕ}
    (h : i.candidate? magnitude places = none) :
    i.holds (below i (magnitude - places)) (magnitude - places) = false ∧
      i.holds (below i (magnitude - places) + 1) (magnitude - places) = false := by
  simp only [Interval.candidate?] at h
  split at h
  next => cases h
  next => cases h
  next => cases h
  next hbelow habove => exact ⟨hbelow, habove⟩

/-- Seventeen digits suffice: a grid without a point in the interval is at least as wide as it, and
the grid of seventeen digits is not. -/
theorem candidate_seventeen (hb : Canonical b) (hpos : 0 < b.mantissa) {magnitude : ℤ}
    (hmagnitude : (10 : ℚ) ^ (magnitude - 1) ≤ b.size) :
    (Interval.of b).candidate? magnitude 17 ≠ none := by
  intro hnone
  obtain ⟨hbelow, habove⟩ := not_holds_of_candidate hnone
  obtain ⟨hle, hlt⟩ := size_mem_grid b (magnitude - 17)
  rw [Nat.cast_ofNat] at hbelow habove
  have hlower : (below (Interval.of b) (magnitude - 17) : ℚ) * 10 ^ (magnitude - 17) ≤ lower b := by
    by_contra hgt
    have hrounds := Rounds.of_inside (not_le.1 hgt) (hle.trans_lt (size_lt_upper b))
    rw [(holds_iff hpos _ _).2 hrounds] at hbelow
    cases hbelow
  have hupper :
      upper b ≤ ((below (Interval.of b) (magnitude - 17) + 1 : ℕ) : ℚ) * 10 ^ (magnitude - 17) := by
    by_contra hgt
    have hrounds := Rounds.of_inside ((lower_lt_size b).trans hlt) (not_le.1 hgt)
    rw [(holds_iff hpos _ _).2 hrounds] at habove
    cases habove
  have hwidth : upper b - lower b ≤ (10 : ℚ) ^ (magnitude - 17) := by
    push_cast at hupper
    linarith
  have hgrid : (10 : ℚ) ^ (magnitude - 17) * 10 ^ 16 ≤ 4 * b.mantissa * quarter b := by
    rw [← size_eq, ← zpow_natCast, ← zpow_add₀ (by norm_num)]
    convert hmagnitude using 2
    push_cast
    ring
  have hquarters : ((2 + reach b) * 10 ^ 16 : ℚ) ≤ 4 * b.mantissa := by
    refine le_of_mul_le_mul_right ?_ (quarter_pos b)
    refine le_trans ?_ hgrid
    rw [upper, lower] at hwidth
    linarith
  have hquarters : (2 + reach b) * 10 ^ 16 ≤ 4 * b.mantissa := by exact_mod_cast hquarters
  have := hb.mantissa_lt
  rcases reach_cases b with ⟨hreach, hmantissa⟩ | hreach <;> omega

/-- The search ends with a candidate if it gets as far as seventeen digits. -/
theorem search_holds {i : Interval} {magnitude : ℤ} (h : i.candidate? magnitude 17 ≠ none) (fuel : ℕ)
    {places : ℕ} (hplaces : places ≤ 17) (hfuel : 17 < places + fuel) :
    i.holds (i.search magnitude fuel places).digits (i.search magnitude fuel places).exponent =
      true := by
  induction fuel generalizing places with
  | zero => omega
  | succ fuel ih =>
    rw [Interval.search]
    cases hcandidate : i.candidate? magnitude places with
    | some d => exact holds_of_candidate hcandidate
    | none =>
      have hne : places ≠ 17 := by
        rintro rfl
        exact h hcandidate
      exact ih (by omega) (by omega)

/-- Dropping zeros keeps the value. -/
theorem trim_value (fuel : ℕ) (d : Decimal) : (trim fuel d).value = d.value := by
  induction fuel generalizing d with
  | zero => rfl
  | succ fuel ih =>
    rw [trim]
    split
    next h =>
      have hdigits : (d.digits : ℚ) = (d.digits / 10 : ℕ) * 10 := by
        exact_mod_cast (by omega : d.digits = d.digits / 10 * 10)
      rw [ih, value, value, hdigits, zpow_add_one₀ (by norm_num)]
      ring
    next => rfl

/-- The shortest decimal of a positive double rounds to it. -/
theorem shortest_rounds (hb : Canonical b) (hpos : 0 < b.mantissa) :
    Rounds b (shortest b).value := by
  unfold shortest
  rw [trim_value]
  refine (holds_iff hpos _ _).1 ?_
  exact search_holds (candidate_seventeen hb hpos (magnitude_le hb hpos)) 17 (by norm_num) (by norm_num)

end Search

end Decimal

end Formula
