import Formula.Proofs.Double.Parts

/-!
When two doubles are equal.

Two doubles are equal if both are the same infinity, or both are zero, or both have the same sign,
mantissa and exponent. So equality of doubles is symmetric and transitive, and only a NaN differs
from itself.
-/
namespace Formula
namespace Double

open Float.Model

def unpacked (x : Float) : UnpackedFloat := UnpackedFloat.unpack Format.binary64 x.toBits.toBitVec

/-- What is equal: the two zeros, and whatever is the same and no NaN. -/
inductive Same : UnpackedFloat → UnpackedFloat → Prop where
  | infinity (sign : UnpackedFloat.Sign) : Same (.infinity sign) (.infinity sign)
  | zero (sign sign' : UnpackedFloat.Sign) : Same (.zero sign) (.zero sign')
  | finite (sign : UnpackedFloat.Sign) (mantissa : ℕ) (exponent : ℤ) (h h' : 0 < mantissa) :
    Same (.finite sign mantissa exponent h) (.finite sign mantissa exponent h')

theorem beq_eq (x y : Float) : (x == y) = (unpacked x).beq (unpacked y) := rfl

theorem compare_then_eq (e e' : ℤ) (m m' : ℕ) :
    (compare e e').then (compare m m') = .eq ↔ e = e' ∧ m = m' := by
  rw [Ordering.then_eq_eq, compare_eq_iff_eq, compare_eq_iff_eq]

theorem beq_iff (a b : UnpackedFloat) : a.beq b = true ↔ Same a b := by
  have heq (e e' : ℤ) (m m' : ℕ) (h : some ((compare e e').then (compare m m')) == some .eq) :
      e = e' ∧ m = m' := (compare_then_eq e e' m m').1 (by simpa using h)
  have hswap (e e' : ℤ) (m m' : ℕ)
      (h : some ((compare e e').then (compare m m')).swap == some .eq) : e = e' ∧ m = m' :=
    (compare_then_eq e e' m m').1 (Ordering.swap_eq_eq.1 (by simpa using h))
  constructor
  · intro h
    cases a with
    | notANumber => cases b <;> cases h
    | infinity s =>
      cases b with
      | infinity t => cases s <;> cases t <;> first | exact .infinity _ | cases h
      | notANumber => cases h
      | zero t => cases s <;> cases h
      | finite t m e hm => cases s <;> cases h
    | zero s =>
      cases b with
      | infinity t => cases t <;> cases h
      | notANumber => cases h
      | zero t => exact .zero s t
      | finite t m e hm => cases t <;> cases h
    | finite s m e hm =>
      cases b with
      | infinity t => cases t <;> cases h
      | notANumber => cases h
      | zero t => cases s <;> cases h
      | finite t m' e' hm' =>
        cases s <;> cases t
        · obtain ⟨rfl, rfl⟩ := hswap e e' m m' h
          exact .finite _ m e hm hm'
        · cases h
        · cases h
        · obtain ⟨rfl, rfl⟩ := heq e e' m m' h
          exact .finite _ m e hm hm'
  · intro h
    cases h with
    | infinity s => cases s <;> rfl
    | zero s t => rfl
    | finite s m e hm hm' =>
      have hcompare := (compare_then_eq e e m m).2 ⟨rfl, rfl⟩
      cases s
      · change (some ((compare e e).then (compare m m)).swap == some .eq) = true
        rw [hcompare]
        rfl
      · change (some ((compare e e).then (compare m m)) == some .eq) = true
        rw [hcompare]
        rfl

theorem Same.symm {a b : UnpackedFloat} (h : Same a b) : Same b a := by
  cases h with
  | infinity s => exact .infinity s
  | zero s t => exact .zero t s
  | finite s m e hm hm' => exact .finite s m e hm' hm

theorem Same.trans {a b c : UnpackedFloat} (h : Same a b) (h' : Same b c) : Same a c := by
  cases h with
  | infinity s => exact h'
  | zero s t =>
    cases h' with
    | zero t u => exact .zero s u
  | finite s m e hm hm' => exact h'

theorem beq_symm {x y : Float} (h : (x == y) = true) : (y == x) = true := by
  rw [beq_eq, beq_iff] at h ⊢
  exact h.symm

theorem beq_trans {x y z : Float} (h : (x == y) = true) (h' : (y == z) = true) :
    (x == z) = true := by
  rw [beq_eq, beq_iff] at h h' ⊢
  exact h.trans h'

/-- Only a NaN differs from itself. -/
theorem beq_self (x : Float) : (x == x) = !x.isNaN := by
  have hnan : x.isNaN = (unpacked x).isNaN := rfl
  rw [beq_eq, hnan]
  cases hx : unpacked x with
  | notANumber => rfl
  | infinity s => exact (beq_iff _ _).2 (.infinity s)
  | zero s => exact (beq_iff _ _).2 (.zero s s)
  | finite s m e hm => exact (beq_iff _ _).2 (.finite s m e hm hm)

end Double

end Formula
