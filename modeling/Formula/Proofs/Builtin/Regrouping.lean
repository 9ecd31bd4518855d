import Formula.Dialect.Standard
import Mathlib.Tactic.ByContra

/-!
Regrouping. An operator that is declared commutative may have its operands swapped and its
constants merged ahead of time: `(a op x) op c` then becomes `(a op c) op x`, and `(x op a) op c`
becomes `x op (a op c)`. For the logical operators of the standard dialect this changes nothing.
Products are another matter: two integers are multiplied modulo `2 ^ 64`, any other two numbers
as doubles, so merging picks another arithmetic and another rounding. What remains of the law is
one equation between doubles, which decides both forms at once.
-/
namespace Formula

variable {H W : Type}

def Operator.apply (m : Machine H W) (o : Operator H) (a b : Value H) :
    Run H W EvalError (Value H) :=
  o.callback.run m [a, b]

namespace Regrouping

/-- `(a op b) op c` -/
def leftward (m : Machine H W) (o : Operator H) (a b c : Value H) : Run H W EvalError (Value H) := do
  o.apply m (← o.apply m a b) c

/-- `a op (b op c)` -/
def rightward (m : Machine H W) (o : Operator H) (a b c : Value H) : Run H W EvalError (Value H) := do
  o.apply m a (← o.apply m b c)

/-- Both end in a fault, or both in the same value, and leave the same store. -/
def Alike : EStateM.Result (Stop EvalError) (Store H W) (Value H) →
    EStateM.Result (Stop EvalError) (Store H W) (Value H) → Prop
  | .ok v s, .ok w t => v = w ∧ s = t
  | .error (.fault _) s, .error (.fault _) t => s = t
  | _, _ => False

/-- Merging the constants `a` and `c` around `x` leaves the result as it is. -/
def Regroups (m : Machine H W) (o : Operator H) (s : Store H W) (a x c : Value H) : Prop :=
  Alike (leftward m o a x c s) (leftward m o a c x s) ∧
    Alike (leftward m o x a c s) (rightward m o x a c s)

/-- The product of two numbers as a double; two integers are multiplied before they are widened. -/
def product : Value H → Value H → Option Float
  | .int a, .int b => some (Double.ofInt64 (a * b))
  | a, b => do some ((← a.float?) * (← b.float?))

/-- All factors are integers, or the two ways to multiply them come to the same double. -/
def Coincide (a x c : Value H) : Prop :=
  (∃ i j k, a = .int i ∧ x = .int j ∧ c = .int k) ∨
    ∀ p q y z, product a x = some p → product a c = some q → x.float? = some y →
      c.float? = some z → p * z = q * y

theorem sign_mul_comm (s t : Float.Model.UnpackedFloat.Sign) : s * t = t * s := by
  cases s <;> cases t <;> rfl

theorem unpacked_mul_comm (a b : Float.Model.UnpackedFloat) :
    Float.Model.UnpackedFloat.mul .binary64 a b = Float.Model.UnpackedFloat.mul .binary64 b a := by
  cases a with
  | notANumber => cases b <;> rfl
  | infinity s =>
    cases b with
    | notANumber | zero t => rfl
    | infinity t | finite t n f => exact congrArg _ (sign_mul_comm s t)
  | zero s =>
    cases b with
    | notANumber | infinity t => rfl
    | zero t | finite t n f => exact congrArg _ (sign_mul_comm s t)
  | finite s m e =>
    cases b with
    | notANumber => rfl
    | infinity t | zero t => exact congrArg _ (sign_mul_comm s t)
    | finite t n f =>
      change Float.Model.UnpackedFloat.roundWithAccuracy .binary64 (s * t) (m * n) (e + f) .exact =
        Float.Model.UnpackedFloat.roundWithAccuracy .binary64 (t * s) (n * m) (f + e) .exact
      rw [sign_mul_comm, Nat.mul_comm, Int.add_comm]

/-- Multiplication rounds the exact product, whose factors can be swapped. -/
theorem float_mul_comm (x y : Float) : x * y = y * x := by
  change Float.ofModel (.pack (.mul .binary64 x.toModel.unpack y.toModel.unpack)) =
    Float.ofModel (.pack (.mul .binary64 y.toModel.unpack x.toModel.unpack))
  rw [unpacked_mul_comm]

section Pure

variable {m : Machine H W} {o : Operator H} {f : Value H → Value H → Except EvalError (Value H)}

theorem leftward_eq (h : ∀ a b, o.apply m a b = .ofExcept (f a b)) (a b c : Value H) :
    leftward m o a b c = .ofExcept (f a b >>= fun v => f v c) := by
  unfold leftward
  simp only [h]
  cases f a b <;> rfl

theorem rightward_eq (h : ∀ a b, o.apply m a b = .ofExcept (f a b)) (a b c : Value H) :
    rightward m o a b c = .ofExcept (f b c >>= fun v => f a v) := by
  unfold rightward
  simp only [h]
  cases f b c <;> rfl

theorem apply_eq_ok (h : ∀ a b, o.apply m a b = .ofExcept (f a b)) {a b k : Value H}
    {s s' : Store H W} (hk : o.apply m a b s = .ok k s') : f a b = .ok k := by
  rw [h] at hk
  cases hf : f a b with
  | ok v =>
    rw [hf] at hk
    cases hk
    rfl
  | error e =>
    rw [hf] at hk
    cases hk

end Pure

/-- Both fail, or both give the same value. -/
def Agree : Except EvalError (Value H) → Except EvalError (Value H) → Prop
  | .ok v, .ok w => v = w
  | .error _, .error _ => True
  | _, _ => False

theorem Agree.of_errors {x y : Except EvalError (Value H)} (hx : ∃ e, x = .error e)
    (hy : ∃ e, y = .error e) : Agree x y := by
  obtain ⟨e, rfl⟩ := hx
  obtain ⟨e', rfl⟩ := hy
  exact trivial

theorem bind_error {x : Except EvalError (Value H)} {f : Value H → Except EvalError (Value H)}
    (h : (∃ e, x = .error e) ∨ ∀ v, ∃ e, f v = .error e) : ∃ e, (x >>= f) = .error e := by
  cases hx : x with
  | error e => exact ⟨e, rfl⟩
  | ok v =>
    obtain ⟨e, he⟩ | hf := h
    · rw [hx] at he
      cases he
    · exact hf v

theorem alike_ofExcept (s : Store H W) (x y : Except EvalError (Value H)) :
    Alike ((.ofExcept x : Run H W EvalError (Value H)) s) ((.ofExcept y : Run H W EvalError (Value H)) s) ↔
      Agree x y := by
  cases x <;> cases y <;> simp [Alike, Agree]

theorem logic_eq_ok {op : String} {f : Bool → Bool → Bool} {a c k : Value H}
    (h : Builtin.logic op f a c = .ok k) : ∃ p q, a = .bool p ∧ c = .bool q := by
  cases a with
  | bool p =>
    cases c with
    | bool q => exact ⟨p, q, rfl, rfl⟩
    | _ => cases h
  | _ => cases h

/-- A logical operator that is commutative and associative on bools can be regrouped. -/
theorem logic_regroups (op : String) {f : Bool → Bool → Bool} (hcomm : ∀ p q, f p q = f q p)
    (hassoc : ∀ p q r, f (f p q) r = f p (f q r)) (p q : Bool) (x : Value H) :
    Agree (Builtin.logic op f (.bool p) x >>= fun v => Builtin.logic op f v (.bool q))
        (Builtin.logic op f (.bool p) (.bool q) >>= fun v => Builtin.logic op f v x) ∧
      Agree (Builtin.logic op f x (.bool p) >>= fun v => Builtin.logic op f v (.bool q))
        (Builtin.logic op f (.bool p) (.bool q) >>= fun v => Builtin.logic op f x v) := by
  cases x with
  | bool r =>
    have hswap : f (f p r) q = f (f p q) r := by rw [hassoc, hcomm r q, ← hassoc]
    exact ⟨congrArg Value.bool hswap, congrArg Value.bool (hassoc r p q)⟩
  | _ => exact ⟨trivial, trivial⟩

/-- Multiplication as the standard dialect has it. -/
abbrev times (a b : Value H) : Except EvalError (Value H) :=
  Builtin.arithmetic "*" (· * ·) (· * ·) a b

/-- An integer or a double. -/
inductive IsNumber : Value H → Prop where
  | int (i : Int64) : IsNumber (.int i)
  | float (y : Float) : IsNumber (.float y)

theorem float?_of_not_number {x : Value H} (hx : ¬ IsNumber x) : x.float? = none := by
  cases x with
  | int i => exact absurd (.int i) hx
  | float y => exact absurd (.float y) hx
  | _ => rfl

/-- Whatever is no number fails as a factor, on either side. -/
theorem times_not_number {x : Value H} (hx : ¬ IsNumber x) (a : Value H) :
    (∃ e, times a x = .error e) ∧ ∃ e, times x a = .error e := by
  cases x with
  | int i => exact absurd (.int i) hx
  | float y => exact absurd (.float y) hx
  | _ => cases a <;> exact ⟨⟨_, rfl⟩, ⟨_, rfl⟩⟩

theorem times_eq_ok {a c k : Value H} (h : times a c = .ok k) : IsNumber a ∧ IsNumber c := by
  constructor
  · by_contra ha
    obtain ⟨-, e, he⟩ := times_not_number ha c
    rw [he] at h
    cases h
  · by_contra hc
    obtain ⟨⟨e, he⟩, -⟩ := times_not_number hc a
    rw [he] at h
    cases h

theorem product_comm (a b : Value H) : product a b = product b a := by
  cases a <;> cases b <;> simp [product, Value.float?, Int64.mul_comm, float_mul_comm]

/-- Three factors of which one is a double: the first product is widened if it has to be, and the
last factor multiplied to it as a double. -/
theorem times_times {a b c : Value H} (ha : IsNumber a) (hb : IsNumber b) (hc : IsNumber c)
    (hkinds : ¬ ∃ i j k, a = .int i ∧ b = .int j ∧ c = .int k) :
    ∃ p z, product a b = some p ∧ c.float? = some z ∧
      (times a b >>= fun v => times v c) = .ok (.float (p * z)) ∧
      (times a b >>= fun v => times c v) = .ok (.float (z * p)) := by
  cases ha with
  | int i =>
    cases hb with
    | int j =>
      cases hc with
      | int k => exact absurd ⟨i, j, k, rfl, rfl, rfl⟩ hkinds
      | float z => exact ⟨_, z, rfl, rfl, rfl, rfl⟩
    | float y => cases hc <;> exact ⟨_, _, rfl, rfl, rfl, rfl⟩
  | float x => cases hb <;> cases hc <;> exact ⟨_, _, rfl, rfl, rfl, rfl⟩

/-- Products can be regrouped exactly where the doubles coincide. -/
theorem times_regroups_iff {a c : Value H} (ha : IsNumber a) (hc : IsNumber c) (x : Value H) :
    Agree (times a x >>= fun v => times v c) (times a c >>= fun v => times v x) ∧
        Agree (times x a >>= fun v => times v c) (times a c >>= fun v => times x v) ↔
      Coincide a x c := by
  by_cases hx : IsNumber x
  · by_cases hkinds : ∃ i j k, a = .int i ∧ x = .int j ∧ c = .int k
    · obtain ⟨i, j, k, rfl, rfl, rfl⟩ := hkinds
      have hswap : i * j * k = i * k * j := by rw [Int64.mul_assoc, Int64.mul_comm j, ← Int64.mul_assoc]
      have hassoc : j * i * k = j * (i * k) := Int64.mul_assoc j i k
      refine iff_of_true ⟨?_, ?_⟩ (.inl ⟨i, j, k, rfl, rfl, rfl⟩)
      · exact congrArg Value.int hswap
      · exact congrArg Value.int hassoc
    · have hkinds' : ¬ ∃ i j k, a = .int i ∧ c = .int j ∧ x = .int k := by
        rintro ⟨i, j, k, rfl, rfl, rfl⟩
        exact hkinds ⟨i, k, j, rfl, rfl, rfl⟩
      have hkinds'' : ¬ ∃ i j k, x = .int i ∧ a = .int j ∧ c = .int k := by
        rintro ⟨i, j, k, rfl, rfl, rfl⟩
        exact hkinds ⟨j, i, k, rfl, rfl, rfl⟩
      obtain ⟨p, z, hp, hz, hleft, -⟩ := times_times ha hx hc hkinds
      obtain ⟨q, y, hq, hy, hright, hmerged⟩ := times_times ha hc hx hkinds'
      obtain ⟨p', z', hp', hz', hfirst, -⟩ := times_times hx ha hc hkinds''
      rw [product_comm, hp] at hp'
      rw [hz] at hz'
      cases hp'
      cases hz'
      rw [hleft, hright, hfirst, hmerged, float_mul_comm y q]
      have hagree : Agree (.ok (.float (p * z) : Value H)) (.ok (.float (q * y))) ↔ p * z = q * y := by
        simp [Agree]
      simp only [hagree, and_self, Coincide, hkinds, false_or, hp, hq, hy, hz]
      constructor
      · rintro h _ _ _ _ ⟨⟩ ⟨⟩ ⟨⟩ ⟨⟩
        exact h
      · intro h
        exact h p q y z rfl rfl rfl rfl
  · have hfails := times_not_number hx
    refine iff_of_true ⟨?_, ?_⟩ (.inr fun p q y z _ _ hy _ => ?_)
    · exact .of_errors (bind_error (.inl (hfails a).1)) (bind_error (.inr fun v => (hfails v).1))
    · exact .of_errors (bind_error (.inl (hfails a).2)) (bind_error (.inr fun v => (hfails v).2))
    · rw [float?_of_not_number hx] at hy
      cases hy

theorem apply_or (m : Machine H W) (a b : Value H) :
    (Dialect.standardOperator .or).apply m a b = .ofExcept (Builtin.logic "|" (· || ·) a b) := rfl

theorem apply_and (m : Machine H W) (a b : Value H) :
    (Dialect.standardOperator .and).apply m a b = .ofExcept (Builtin.logic "&" (· && ·) a b) := rfl

theorem apply_mul (m : Machine H W) (a b : Value H) :
    (Dialect.standardOperator .mul).apply m a b = .ofExcept (times a b) := rfl

/-- Wherever `a op c` can be computed ahead of time, for an operator that the standard dialect
declares commutative, merging the two constants is sound for `|` and `&`, and for `*` exactly if
the doubles coincide. -/
theorem regroups_iff_coincide {o : Operator H} (ho : o ∈ (Dialect.standard : Dialect H).operators)
    (hcommutative : o.commutative = true) (m : Machine H W) {s s' : Store H W} {a c k : Value H}
    (hmerged : o.apply m a c s = .ok k s') (x : Value H) :
    Regroups m o s a x c ↔ (o.symbol = "*" → Coincide a x c) := by
  obtain ⟨op, -, rfl⟩ := List.mem_map.1 ho
  cases op with
  | or =>
    obtain ⟨p, q, rfl, rfl⟩ := logic_eq_ok (apply_eq_ok (apply_or m) hmerged)
    have hlaw := logic_regroups "|" Bool.or_comm Bool.or_assoc p q x
    have hsymbol : "|" ≠ "*" := by decide
    simp only [Regroups, leftward_eq (apply_or m), rightward_eq (apply_or m), alike_ofExcept]
    exact iff_of_true hlaw fun h => absurd h hsymbol
  | and =>
    obtain ⟨p, q, rfl, rfl⟩ := logic_eq_ok (apply_eq_ok (apply_and m) hmerged)
    have hlaw := logic_regroups "&" Bool.and_comm Bool.and_assoc p q x
    have hsymbol : "&" ≠ "*" := by decide
    simp only [Regroups, leftward_eq (apply_and m), rightward_eq (apply_and m), alike_ofExcept]
    exact iff_of_true hlaw fun h => absurd h hsymbol
  | mul =>
    obtain ⟨ha, hc⟩ := times_eq_ok (apply_eq_ok (apply_mul m) hmerged)
    simp only [Regroups, leftward_eq (apply_mul m), rightward_eq (apply_mul m), alike_ofExcept]
    rw [times_regroups_iff ha hc x]
    exact ⟨fun h _ => h, fun h => h rfl⟩
  | _ => cases hcommutative

/-- A machine without a host. -/
def alone : Machine Empty Unit where
  host := { call := fun h => h.elim, truth := fun h => h.elim }
  budget := 0
  call := fun _ _ => Run.exhausted

def nothing : Store Empty Unit := { world := () }

/-- Six times five times a half, with the half merged into the six. -/
theorem regroups_iff_coincide_halved :
    (Dialect.standardOperator .mul : Operator Empty) ∈ (Dialect.standard : Dialect Empty).operators ∧
    (Dialect.standardOperator .mul : Operator Empty).commutative = true ∧
    (Dialect.standardOperator .mul).apply alone (.int 6) (.float 0.5) nothing =
      .ok (.float (Double.ofInt64 6 * 0.5)) nothing ∧
    Regroups alone (Dialect.standardOperator .mul) nothing (.int 6) (.int 5) (.float 0.5) := by
  have hmem : (Dialect.standardOperator .mul : Operator Empty) ∈
      (Dialect.standard : Dialect Empty).operators := List.mem_map_of_mem (by decide)
  refine ⟨hmem, rfl, rfl, (regroups_iff_coincide hmem rfl alone rfl (.int 5)).2 fun _ => .inr ?_⟩
  rintro p q y z ⟨⟩ ⟨⟩ ⟨⟩ ⟨⟩
  decide +kernel

/-- Two integers whose product wraps, and a double: merged with the double, neither integer
wraps any more. -/
theorem mul_not_regroups :
    (Dialect.standardOperator .mul).apply alone (.int 4294967296) (.float 1.0) nothing =
      .ok (.float 4294967296.0) nothing ∧
    leftward alone (Dialect.standardOperator .mul) (.int 4294967296) (.int 4294967296) (.float 1.0)
      nothing = .ok (.float 0.0) nothing ∧
    leftward alone (Dialect.standardOperator .mul) (.int 4294967296) (.float 1.0) (.int 4294967296)
      nothing = .ok (.float 18446744073709551616.0) nothing ∧
    ¬ Regroups alone (Dialect.standardOperator .mul) nothing (.int 4294967296) (.int 4294967296)
      (.float 1.0) := by
  have hwidened : Double.ofInt64 4294967296 * 1.0 = 4294967296.0 := by decide
  have hwrapped : Double.ofInt64 (4294967296 * 4294967296) * 1.0 = 0.0 := by decide
  have hmerged : 4294967296.0 * Double.ofInt64 4294967296 = 18446744073709551616.0 := by decide
  have happly : (Dialect.standardOperator .mul).apply alone (.int 4294967296) (.float 1.0) nothing =
      .ok (.float 4294967296.0) nothing := by
    rw [← hwidened]
    rfl
  have hleft : leftward alone (Dialect.standardOperator .mul) (.int 4294967296) (.int 4294967296)
      (.float 1.0) nothing = .ok (.float 0.0) nothing := by
    rw [← hwrapped]
    rfl
  have hright : leftward alone (Dialect.standardOperator .mul) (.int 4294967296) (.float 1.0)
      (.int 4294967296) nothing = .ok (.float 18446744073709551616.0) nothing := by
    rw [← hmerged, ← hwidened]
    rfl
  refine ⟨happly, hleft, hright, fun h => ?_⟩
  have halike := h.1
  rw [hleft, hright] at halike
  have hequal : (0.0 : Float) = 18446744073709551616.0 := Value.float.inj halike.1
  exact absurd hequal (by decide)

end Regrouping

end Formula
