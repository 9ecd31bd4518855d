import Formula.Proofs.Double.Widening

/-!
How widened integers compare.

Two doubles made of integers compare as the integers that these are rounded to, and rounding never
turns an order around. So a widened comparison is right about any two integers that it tells apart,
and silent about those that are rounded to the same double.
-/
namespace Formula
namespace Double

open Float.Model UnpackedFloat

theorem rounded_mono {a b : ℕ} (k : ℕ) (h : a ≤ b) : rounded a k ≤ rounded b k := by
  have hpos := Nat.two_pow_pos k
  have hdiv : a / 2 ^ k ≤ b / 2 ^ k := Nat.div_le_div_right h
  obtain hlt | heq := Nat.lt_or_eq_of_le hdiv
  · unfold rounded
    split_ifs <;> omega
  · -- with one quotient the remainders decide
    have hmod : a % 2 ^ k ≤ b % 2 ^ k := by
      have ha := Nat.div_add_mod a (2 ^ k)
      have hb := Nat.div_add_mod b (2 ^ k)
      rw [heq] at ha
      omega
    unfold rounded
    rw [heq]
    split_ifs <;> omega

/-- Rounding does not leave the powers of two around a number. -/
theorem nearestNat_bounds {n : ℕ} (hn : n ≠ 0) :
    2 ^ n.log2 ≤ nearestNat n ∧ nearestNat n ≤ 2 ^ (n.log2 + 1) := by
  have hlo : 2 ^ n.log2 ≤ n := (Nat.le_log2 hn).1 le_rfl
  have hhi : n < 2 ^ (n.log2 + 1) := (Nat.log2_lt hn).1 (by omega)
  by_cases hshort : n.log2 ≤ 52
  · rw [nearestNat_of_short hshort]
    exact ⟨hlo, hhi.le⟩
  · obtain ⟨p, hp⟩ : ∃ p, n.log2 = 52 + p := ⟨n.log2 - 52, by omega⟩
    rw [hp] at hlo hhi
    obtain ⟨hrounded, hrounded'⟩ := rounded_bounds hlo hhi
    rw [nearestNat, hp, Nat.add_sub_cancel_left, Nat.pow_add, Nat.add_right_comm, Nat.pow_add]
    exact ⟨Nat.mul_le_mul_right _ hrounded, Nat.mul_le_mul_right _ hrounded'⟩

theorem nearestNat_mono {a b : ℕ} (h : a ≤ b) : nearestNat a ≤ nearestNat b := by
  by_cases ha : a = 0
  · rw [ha, nearestNat_of_short (by decide)]
    exact Nat.zero_le _
  · have hb : b ≠ 0 := by omega
    have hlog : a.log2 ≤ b.log2 := (Nat.le_log2 hb).2 (((Nat.le_log2 ha).1 le_rfl).trans h)
    obtain hlt | heq := Nat.lt_or_eq_of_le hlog
    · calc nearestNat a
        _ ≤ 2 ^ (a.log2 + 1) := (nearestNat_bounds ha).2
        _ ≤ 2 ^ b.log2 := Nat.pow_le_pow_right (by decide) hlt
        _ ≤ nearestNat b := (nearestNat_bounds hb).1
    · rw [nearestNat, nearestNat, heq]
      exact Nat.mul_le_mul_right _ (rounded_mono _ h)

theorem nearest_mono {a b : ℤ} (h : a ≤ b) : nearest a ≤ nearest b := by
  have hnat (n : ℤ) : (0 ≤ n → nearest n = nearestNat n.natAbs) ∧
      (n < 0 → nearest n = -nearestNat n.natAbs) := by
    unfold nearest
    refine ⟨fun hn => ?_, fun hn => by rw [Int.sign_eq_neg_one_of_neg hn, neg_one_mul]⟩
    obtain rfl | hpos := hn.eq_or_lt
    · rfl
    · rw [Int.sign_eq_one_of_pos hpos, one_mul]
  by_cases ha : a < 0
  · rw [(hnat a).2 ha]
    by_cases hb : b < 0
    · have hmono : nearestNat b.natAbs ≤ nearestNat a.natAbs := nearestNat_mono (by omega)
      rw [(hnat b).2 hb]
      omega
    · rw [(hnat b).1 (by omega)]
      omega
  · have hmono : nearestNat a.natAbs ≤ nearestNat b.natAbs := nearestNat_mono (by omega)
    rw [(hnat a).1 (by omega), (hnat b).1 (by omega)]
    omega

theorem lt_iff_unpacked (x y : Float) : x < y ↔ (unpacked x).lt (unpacked y) = true := by
  change decide ((unpacked x).lt (unpacked y) = true) = true ↔ _
  rw [decide_eq_true_iff]

theorem full_lt_of_exponent {m m' : ℕ} {e e' : ℤ} (hhi : m < 2 ^ 53) (hlo : 2 ^ 52 ≤ m')
    (he : e < e') : (m : ℚ) * 2 ^ e < m' * 2 ^ e' := by
  have hm : (m : ℚ) < 2 ^ 53 := by exact_mod_cast hhi
  have hm' : (2 : ℚ) ^ 52 ≤ m' := by exact_mod_cast hlo
  calc (m : ℚ) * 2 ^ e
    _ < 2 ^ 53 * 2 ^ e := mul_lt_mul_of_pos_right hm (zpow_pos (by norm_num) e)
    _ = 2 ^ 52 * 2 ^ (e + 1) := by rw [zpow_add_one₀ (by norm_num)]; ring
    _ ≤ m' * 2 ^ (e + 1) := mul_le_mul_of_nonneg_right hm' (zpow_nonneg (by norm_num) _)
    _ ≤ m' * 2 ^ e' :=
      mul_le_mul_of_nonneg_left (zpow_le_zpow_right₀ (by norm_num) he) (Nat.cast_nonneg m')

/-- Where mantissas are full the exponents decide, and only then the mantissas. -/
theorem compare_full {m m' : ℕ} {e e' : ℤ} (hm : 2 ^ 52 ≤ m ∧ m < 2 ^ 53)
    (hm' : 2 ^ 52 ≤ m' ∧ m' < 2 ^ 53) :
    (compare e e').then (compare m m') = .lt ↔ (m : ℚ) * 2 ^ e < m' * 2 ^ e' := by
  rw [Ordering.then_eq_lt, compare_lt_iff_lt, compare_eq_iff_eq, compare_lt_iff_lt]
  obtain hlt | rfl | hgt := lt_trichotomy e e'
  · exact iff_of_true (.inl hlt) (full_lt_of_exponent hm.2 hm'.1 hlt)
  · rw [mul_lt_mul_iff_left₀ (zpow_pos (by norm_num) e), Nat.cast_lt]
    simp
  · have hcross := full_lt_of_exponent hm'.2 hm.1 hgt
    exact iff_of_false (by omega) hcross.not_gt

/-- A double with a full mantissa, or zero, that is an integer. -/
inductive Placed (u : UnpackedFloat) : ℤ → Prop where
  | zero (sign : Sign) (h : u = .zero sign) : Placed u 0
  | above {n : ℕ} (h : Full u .positive n) : Placed u n
  | below {n : ℕ} (h : Full u .negative n) : Placed u (-n)

theorem Full.pos {u : UnpackedFloat} {sign : Sign} {n : ℕ} (h : Full u sign n) : 0 < n := by
  obtain ⟨m, e, hm, -, -, -, -, -, hvalue⟩ := h
  have hpos : (0 : ℚ) < m * 2 ^ e := mul_pos (Nat.cast_pos.2 hm) (zpow_pos (by norm_num) e)
  rw [hvalue] at hpos
  exact_mod_cast hpos

theorem Full.lt_positive {u v : UnpackedFloat} {n k : ℕ} (hu : Full u .positive n)
    (hv : Full v .positive k) : u.lt v = true ↔ n < k := by
  obtain ⟨m, e, hm, rfl, hlo, hhi, -, -, hvalue⟩ := hu
  obtain ⟨m', e', hm', rfl, hlo', hhi', -, -, hvalue'⟩ := hv
  change (some ((compare e e').then (compare m m')) == some .lt) = true ↔ _
  rw [beq_iff_eq, Option.some.injEq, compare_full ⟨hlo, hhi⟩ ⟨hlo', hhi'⟩, hvalue, hvalue',
    Nat.cast_lt]

theorem Full.lt_negative {u v : UnpackedFloat} {n k : ℕ} (hu : Full u .negative n)
    (hv : Full v .negative k) : u.lt v = true ↔ k < n := by
  obtain ⟨m, e, hm, rfl, hlo, hhi, -, -, hvalue⟩ := hu
  obtain ⟨m', e', hm', rfl, hlo', hhi', -, -, hvalue'⟩ := hv
  have hswap : ((compare e e').then (compare m m')).swap = (compare e' e).then (compare m' m) := by
    rw [Ordering.swap_then, ← Std.OrientedCmp.eq_swap, ← Std.OrientedCmp.eq_swap]
  change (some ((compare e e').then (compare m m')).swap == some .lt) = true ↔ _
  rw [hswap, beq_iff_eq, Option.some.injEq, compare_full ⟨hlo', hhi'⟩ ⟨hlo, hhi⟩, hvalue, hvalue',
    Nat.cast_lt]

theorem Placed.lt_iff {u v : UnpackedFloat} {z w : ℤ} (hu : Placed u z) (hv : Placed v w) :
    u.lt v = true ↔ z < w := by
  cases hu with
  | zero sign h =>
    subst h
    cases hv with
    | zero sign' h' =>
      subst h'
      exact iff_of_false Bool.false_ne_true (by omega)
    | above h' =>
      have hpos := h'.pos
      obtain ⟨m', e', hm', rfl, -⟩ := h'
      exact iff_of_true rfl (by omega)
    | below h' =>
      obtain ⟨m', e', hm', rfl, -⟩ := h'
      exact iff_of_false Bool.false_ne_true (by omega)
  | above h =>
    cases hv with
    | zero sign' h' =>
      subst h'
      obtain ⟨m, e, hm, rfl, -⟩ := h
      exact iff_of_false Bool.false_ne_true (by omega)
    | above h' => rw [h.lt_positive h', Nat.cast_lt]
    | below h' =>
      obtain ⟨m, e, hm, rfl, -⟩ := h
      obtain ⟨m', e', hm', rfl, -⟩ := h'
      exact iff_of_false Bool.false_ne_true (by omega)
  | below h =>
    have hpos := h.pos
    cases hv with
    | zero sign' h' =>
      subst h'
      obtain ⟨m, e, hm, rfl, -⟩ := h
      exact iff_of_true rfl (by omega)
    | above h' =>
      obtain ⟨m, e, hm, rfl, -⟩ := h
      obtain ⟨m', e', hm', rfl, -⟩ := h'
      exact iff_of_true rfl (by omega)
    | below h' => rw [h.lt_negative h', neg_lt_neg_iff, Nat.cast_lt]

theorem placed_ofInt64 (n : Int64) : Placed (unpacked (ofInt64 n)) (nearest n.toInt) := by
  by_cases hn : n.toInt = 0
  · obtain rfl : n = 0 := Int64.toInt_inj.1 hn
    exact .zero .positive rfl
  · have hfull := full_ofInt64 hn
    unfold nearest
    obtain hneg | hpos := lt_or_gt_of_ne hn
    · rw [if_pos hneg] at hfull
      rw [Int.sign_eq_neg_one_of_neg hneg, neg_one_mul]
      exact .below hfull
    · rw [if_neg (not_lt.2 hpos.le)] at hfull
      rw [Int.sign_eq_one_of_pos hpos, one_mul]
      exact .above hfull

/-- Two integers are compared, as doubles, by what they are rounded to. -/
theorem ofInt64_lt_iff (m n : Int64) :
    ofInt64 m < ofInt64 n ↔ nearest m.toInt < nearest n.toInt := by
  rw [lt_iff_unpacked]
  exact (placed_ofInt64 m).lt_iff (placed_ofInt64 n)

end Double

end Formula
