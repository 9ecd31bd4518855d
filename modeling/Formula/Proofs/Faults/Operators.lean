import Formula.Proofs.Faults.Methods

/-!
The operators and functions of the library under a regime. Those that call nothing give values that
fit, and the faults they raise are their own and have no line.
-/
namespace Formula
namespace Faults

variable {H W : Type} {R : Regime H W} {m : Machine H W}

/-- A result of an operation on values: a value that fits, or a fault without a line. -/
def Answers (R : Regime H W) (r : Except EvalError (Value H)) : Prop :=
  (∀ v, r = .ok v → R.Holds v) ∧ ∀ e, r = .error e → Unplaced e

theorem Answers.ok {v : Value H} (h : R.Holds v) : Answers R (.ok v) :=
  ⟨fun _ hw => Except.ok.inj hw ▸ h, fun _ he => by cases he⟩

theorem Answers.error {e : EvalError} (h : Unplaced e) : Answers R (.error e) :=
  ⟨fun _ hv => (by cases hv), fun _ he => Except.error.inj he ▸ h⟩

/-- A number is read first. -/
theorem Answers.number (name : String) (v : Value H) {f : Float → Except EvalError (Value H)}
    (h : ∀ x, Answers R (f x)) : Answers R (Builtin.number name v >>= f) := by
  unfold Builtin.number
  cases v.float? with
  | some x => exact h x
  | none => exact .error (.number name v.kind)

theorem Answers.ensures {r : Except EvalError (Value H)} (h : Answers R r) :
    Ensures R R.Holds (fun e _ => Unplaced e) (Run.ofExcept r : Run H W _ _) :=
  .ofExcept h.1 fun e he _ => h.2 e he

theorem answers_arithmetic (op : String) (int : Int64 → Int64 → Int64)
    (float : Float → Float → Float) (a b : Value H) :
    Answers R (Builtin.arithmetic op int float a b) := by
  unfold Builtin.arithmetic
  split
  · exact .ok (.int _)
  · split
    · exact .ok (.float _)
    · exact .error (.operands op _ _)

theorem answers_compare (op : String) (accepts : Ordering → Bool) (a b : Value H) :
    Answers R (Builtin.compare op accepts a b) := by
  unfold Builtin.compare
  split
  · exact .ok (.bool _)
  · exact .error (.operands op _ _)

theorem answers_logic (op : String) (f : Bool → Bool → Bool) (a b : Value H) :
    Answers R (Builtin.logic op f a b) := by
  unfold Builtin.logic
  split
  · exact .ok (.bool _)
  · exact .error (.operands op _ _)

theorem answers_remainder (a b : Value H) : Answers R (Builtin.remainder a b) := by
  unfold Builtin.remainder
  split
  · exact .error .divisionByZero
  · exact answers_arithmetic _ _ _ _ _

theorem answers_unary (op : UnaryOp) (a : Value H) : Answers R (Builtin.unary op a) := by
  unfold Builtin.unary
  split
  · exact .ok (.int _)
  · exact .ok (.float _)
  · exact .error (.negated _)
  · exact .ok (.bool _)
  · exact .error (.denied _)

theorem answers_best (name : String) (better : Float → Float → Bool) {held : Value H}
    (hheld : R.Holds held) (x : Float) {vs : List (Value H)} (hvs : R.HoldsAll vs) :
    Answers R (Builtin.best name better held x vs) := by
  induction vs generalizing held x with
  | nil => exact .ok hheld
  | cons v rest ih =>
    obtain ⟨hv, hrest⟩ := List.forall_mem_cons.1 hvs
    refine .number name v fun y => ?_
    cases better y x with
    | true => exact ih hv y hrest
    | false => exact ih hheld x hrest

theorem answers_extreme (name : String) (better : Float → Float → Bool) {vs : List (Value H)}
    (hvs : R.HoldsAll vs) : Answers R (Builtin.extreme name better vs) := by
  cases vs with
  | nil => exact .error (.noArguments name)
  | cons v rest =>
    obtain ⟨hv, hrest⟩ := List.forall_mem_cons.1 hvs
    exact .number name v fun x => answers_best name better hv x hrest

theorem answers_absolute (v : Value H) : Answers R (Builtin.absolute v) := by
  cases v with
  | int n => exact .ok (.int _)
  | _ => exact .number "abs" _ fun x => .ok (.float _)

theorem answers_unaryNumber (name : String) (f : Float → Float) (v : Value H) :
    Answers R (Builtin.unaryNumber name f v) := .number name v fun _ => .ok (.float _)

/-- The callback is one of the library, and does not join lists. -/
def Plain : Callback H → List (Value H) → Prop
  | .host _, _ => False
  | .binary .add, .list _ :: .list _ :: _ => False
  | _, _ => True

theorem ensures_add (hm : Serves R m) {a b : Value H} (hplain : Plain (.binary .add) [a, b])
    (ha : R.Holds a) (hb : R.Holds b) :
    Ensures R R.Holds (fun e _ => Unplaced e) (Builtin.add m a b) := by
  have joined : Ensures R R.Holds (fun e _ => Unplaced e) (do
      let left ← (Value.text m a).lift
      let right ← (Value.text m b).lift
      return .str (left ++ right) : Run H W EvalError (Value H)) := by
    refine (ensures_text hm (F := fun _ _ => True) ha).lift.bind fun left _ => ?_
    exact (ensures_text hm (F := fun _ _ => True) hb).lift.bind fun right _ => .pure (.str _)
  unfold Builtin.add
  split
  · exact joined
  · exact joined
  · exact hplain.elim
  · exact (answers_arithmetic _ _ _ _ _).ensures

theorem ensures_binary (hm : Serves R m) {op : BinaryOp} {a b : Value H}
    (hplain : Plain (.binary op) [a, b]) (ha : R.Holds a) (hb : R.Holds b) :
    Ensures R R.Holds (fun e _ => Unplaced e) (Builtin.binary m op a b) := by
  have equal : Ensures R (fun _ => True) (fun e _ => Unplaced e)
      ((Value.equal m a b).lift : Run H W EvalError Bool) :=
    (ensures_equal hm (F := fun _ _ => True) ha hb).lift
  cases op with
  | or => exact (answers_logic _ _ _ _).ensures
  | and => exact (answers_logic _ _ _ _).ensures
  | eq => exact equal.bind fun r _ => .pure (.bool _)
  | ne => exact equal.bind fun r _ => .pure (.bool _)
  | lt => exact (answers_compare _ _ _ _).ensures
  | le => exact (answers_compare _ _ _ _).ensures
  | gt => exact (answers_compare _ _ _ _).ensures
  | ge => exact (answers_compare _ _ _ _).ensures
  | add => exact ensures_add hm hplain ha hb
  | sub => exact (answers_arithmetic _ _ _ _ _).ensures
  | mul => exact (answers_arithmetic _ _ _ _ _).ensures
  | div => exact (Answers.number "/" a fun x => .number "/" b fun y => .ok (.float _)).ensures
  | rem => exact (answers_remainder _ _).ensures
  | pow => exact (Answers.number "^" a fun x => .number "^" b fun y => .ok (.float _)).ensures

theorem ensures_function (f : StandardFn) {args : List (Value H)} (hargs : R.HoldsAll args) :
    Ensures R R.Holds (fun e _ => Unplaced e)
      (Builtin.function f args : Run H W EvalError (Value H)) := by
  unfold Builtin.function
  split
  · exact (answers_unaryNumber _ _ _).ensures
  · exact (answers_absolute _).ensures
  · exact (answers_unaryNumber _ _ _).ensures
  · exact (answers_unaryNumber _ _ _).ensures
  · exact ensures_newLazy trivial
  · exact .fault fun _ => .bound _
  · exact (answers_extreme _ _ hargs).ensures
  · exact (answers_extreme _ _ hargs).ensures
  · exact .fault fun _ => .arity _ _ _

/-- Operators and functions of the library that call nothing raise faults of their own. -/
theorem ensures_plain (hm : Serves R m) {c : Callback H} {args : List (Value H)}
    (hplain : Plain c args) (hargs : R.HoldsAll args) :
    Ensures R R.Holds (fun e _ => Unplaced e) (c.run m args) := by
  cases c with
  | binary op =>
    match args with
    | [] => exact .panic _
    | [_] => exact .panic _
    | a :: b :: _ =>
      refine ensures_binary hm ?_ (hargs a ?_) (hargs b ?_)
      · cases op <;> cases a <;> cases b <;> exact hplain
      · exact List.mem_cons_self
      · exact List.mem_cons_of_mem _ List.mem_cons_self
  | unary op =>
    match args with
    | [] => exact .panic _
    | a :: _ => exact (answers_unary op a).ensures
  | function f => exact ensures_function f hargs
  | host h => exact hplain.elim

end Faults

end Formula
