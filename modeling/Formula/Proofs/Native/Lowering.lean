import Formula.Compilation
import Formula.Dialect.Standard
import Formula.Evaluation
import Formula.Proofs.Scope

/-!
Lowered bodies compute what the interpreter computes. Where a body has integer constants the two
disagree on what an operation is: native code has doubles only, the interpreter adds two integers
as integers. They meet because every operation of a lowered body depends on a parameter: one of
its operands is then a float, and the interpreter widens the other one too.
-/
namespace Formula

variable {H W : Type}

namespace Native

/-- The operators, the unary operators and the way to native code of the standard dialect.
Functions, constants and the worker are free. -/
structure Preset (d : Dialect H) : Prop where
  operators : d.operators = (Dialect.standard : Dialect H).operators
  unaries : d.unaries = (Dialect.standard : Dialect H).unaries
  marshal : d.marshal = some valueMarshal
  rules : d.rules = none

/-- What an operator with a template does to doubles. -/
def doubleOp? : BinaryOp → Option (Float → Float → Float)
  | .add => some (· + ·)
  | .sub => some (· - ·)
  | .mul => some (· * ·)
  | .div => some (· / ·)
  | .rem => some Double.remainder
  | .pow => some Float.pow
  | _ => none

theorem binary_template_cases {op : String} {template : BinaryTemplate}
    (h : Templates.standard.binary.get? op = some template) :
    op = "+" ∧ template = .infixed "+" ∨ op = "-" ∧ template = .infixed "-" ∨
      op = "*" ∧ template = .infixed "*" ∨ op = "/" ∧ template = .infixed "/" ∨
      op = "%" ∧ template = .call "fmod" ∨ op = "^" ∧ template = .call "pow" := by
  simpa [Templates.standard] using Assoc.mem_of_get? h

theorem unary_template_cases {op : String} {template : UnaryTemplate}
    (h : Templates.standard.unary.get? op = some template) :
    op = "-" ∧ template = .prefixed "-" := by
  simpa [Templates.standard] using Assoc.mem_of_get? h

theorem Preset.binary_template {d : Dialect H} (hd : Preset d) {op : String}
    {template : BinaryTemplate} (h : Templates.standard.binary.get? op = some template) :
    ∃ o f, d.operator? op = some (Dialect.standardOperator o) ∧ doubleOp? o = some f ∧
      ∀ (args : List Signed) (a b : CExpr) (x y : Signed), a.number? args = some (.double x) →
        b.number? args = some (.double y) →
        (template.apply a b).number? args = some (.double (.lift2 f x y)) := by
  unfold Dialect.operator?
  rw [hd.operators]
  obtain ⟨rfl, rfl⟩ | ⟨rfl, rfl⟩ | ⟨rfl, rfl⟩ | ⟨rfl, rfl⟩ | ⟨rfl, rfl⟩ | ⟨rfl, rfl⟩ :=
    binary_template_cases h
  · refine ⟨.add, _, rfl, rfl, fun args a b x y ha hb => ?_⟩
    simp only [BinaryTemplate.apply, CExpr.number?, ha, hb]
    rfl
  · refine ⟨.sub, _, rfl, rfl, fun args a b x y ha hb => ?_⟩
    simp only [BinaryTemplate.apply, CExpr.number?, ha, hb]
    rfl
  · refine ⟨.mul, _, rfl, rfl, fun args a b x y ha hb => ?_⟩
    simp only [BinaryTemplate.apply, CExpr.number?, ha, hb]
    rfl
  · refine ⟨.div, _, rfl, rfl, fun args a b x y ha hb => ?_⟩
    simp only [BinaryTemplate.apply, CExpr.number?, ha, hb]
    rfl
  · refine ⟨.rem, _, rfl, rfl, fun args a b x y ha hb => ?_⟩
    simp only [BinaryTemplate.apply, CExpr.number?, ha, hb]
    rfl
  · refine ⟨.pow, _, rfl, rfl, fun args a b x y ha hb => ?_⟩
    simp only [BinaryTemplate.apply, CExpr.number?, ha, hb]
    rfl

theorem Preset.unary_template {d : Dialect H} (hd : Preset d) {op : String}
    {template : UnaryTemplate} (h : Templates.standard.unary.get? op = some template) :
    d.unary? op = some (Dialect.standardUnary .neg) ∧
      ∀ (args : List Signed) (a : CExpr) (x : Signed), a.number? args = some (.double x) →
        (template.apply a).number? args = some (.double x.neg) := by
  obtain ⟨rfl, rfl⟩ := unary_template_cases h
  unfold Dialect.unary?
  rw [hd.unaries]
  refine ⟨rfl, fun args a x ha => ?_⟩
  simp only [UnaryTemplate.apply, CExpr.number?, ha]
  rfl

/-- An operation on numbers of which one is a float is carried out on doubles. -/
theorem binary_float {o : BinaryOp} {f : Float → Float → Float} (ho : doubleOp? o = some f)
    (m : Machine H W) {a b : Value H} {x y : Float} (ha : a.float? = some x) (hb : b.float? = some y)
    (hfloat : a = .float x ∨ b = .float y) (s : Store H W) :
    Builtin.binary m o a b s = .ok (.float (f x y)) s := by
  cases a with
  | int i =>
    cases b with
    | int j =>
      obtain h | h := hfloat
      · cases h
      · cases h
    | float z => cases o <;> cases ho <;> cases ha <;> cases hb <;> rfl
    | _ => cases hb
  | float w =>
    cases b with
    | int j => cases o <;> cases ho <;> cases ha <;> cases hb <;> rfl
    | float z => cases o <;> cases ho <;> cases ha <;> cases hb <;> rfl
    | _ => cases hb
  | _ => cases ha

/-- A value and a number of native code agree. What depends on a parameter is a float. -/
structure Agree (dependent : Bool) (v : Value H) (n : Number) : Prop where
  number : ∃ x : Signed, n = .double x ∧ v.float? = some x.value ∧
    (dependent = true → v = .float x.value)

/-- The code of a tree and the expression it is lowered to, on the same arguments. -/
def Computes (code : Code H) (e : CExpr) (dependent : Bool) (params : List String) (W : Type) : Prop :=
  ∀ (xs : List Float), xs.length = params.length → ∀ (m : Machine H W) (env : Env H)
    (s : Store H W), ∃ v n,
      Evaluation.exec m code (env.bindParams params (xs.map .float)) s = .ok v s ∧
      e.number? (xs.map .ofFloat) = some n ∧ Agree dependent v n

theorem getElem?_of_idxOf? {params : List String} {name : String} {i : Nat}
    (h : params.idxOf? name = some i) {xs : List Float} (hlen : xs.length = params.length) :
    ∃ x, xs[i]? = some x := by
  have hi : i < params.length := by
    rw [List.idxOf?_eq_some_iff] at h
    exact h.1
  exact ⟨xs[i], List.getElem?_eq_getElem (by omega)⟩

theorem computes_param {params : List String} (hnodup : params.Nodup) {name : String} {i : Nat}
    (hi : params.idxOf? name = some i) (line : Line) (fallback : Option (Value H)) :
    Computes (.var line name fallback) (.param i) true params W := by
  intro xs hlen m env s
  obtain ⟨x, hx⟩ := getElem?_of_idxOf? hi hlen
  have hvalue : (xs.map (Value.float (H := H)))[i]? = some (.float x) := by simp [hx]
  have hnative : (xs.map Signed.ofFloat)[i]? = some (.ofFloat x) := by simp [hx]
  refine ⟨.float x, .double (.ofFloat x), ?_, ?_, ⟨.ofFloat x, rfl, rfl, fun _ => rfl⟩⟩
  · simp [Evaluation.exec, Evaluation.lookup, env.find?_bindParams hnodup hi hvalue]
  · simp [CExpr.number?, hnative]

theorem computes_const {v : Value H} {x : Float} (h : v.float? = some x) (params : List String) :
    Computes (.const v) (.literal x) false params W := by
  intro xs _ m env s
  exact ⟨v, .double (.ofFloat x), rfl, rfl, ⟨.ofFloat x, rfl, h, fun hf => by cases hf⟩⟩

theorem computes_unary {d : Dialect H} (hd : Preset d) {params : List String} {op : String}
    {template : UnaryTemplate} (h : Templates.standard.unary.get? op = some template)
    {o : UnaryOperator H} (ho : d.unary? op = some o) {code : Code H} {e : CExpr}
    (ih : Computes code e true params W) (line : Line) :
    Computes (.unary line o.callback code) (template.apply e) true params W := by
  intro xs hlen m env s
  obtain ⟨hop, happly⟩ := hd.unary_template h
  cases ho.symm.trans hop
  obtain ⟨v, n, hv, hn, x, rfl, -, hfloat⟩ := ih xs hlen m env s
  cases hfloat rfl
  refine ⟨.float (-x.value), .double x.neg, ?_, happly _ _ _ hn, ⟨x.neg, rfl, rfl, fun _ => rfl⟩⟩
  simp only [Evaluation.exec, Run.bind_eq_ok]
  exact ⟨_, s, hv, rfl⟩

/-- At least one operand depends on a parameter, so the operation is one on doubles. -/
theorem computes_binary {d : Dialect H} (hd : Preset d) {params : List String} {op : String}
    {template : BinaryTemplate} (h : Templates.standard.binary.get? op = some template)
    {o : Operator H} (ho : d.operator? op = some o) {left right : Code H} {a b : CExpr}
    {inLeft inRight : Bool} (hl : Computes left a inLeft params W)
    (hr : Computes right b inRight params W) (hdep : (inLeft || inRight) = true) (line : Line) :
    Computes (.binary line o.callback left right) (template.apply a b) true params W := by
  intro xs hlen m env s
  obtain ⟨o', f, hop, hf, happly⟩ := hd.binary_template h
  cases ho.symm.trans hop
  obtain ⟨v, n, hv, hn, x, rfl, hx, hleft⟩ := hl xs hlen m env s
  obtain ⟨w, k, hw, hk, y, rfl, hy, hright⟩ := hr xs hlen m env s
  have hfloat : v = .float x.value ∨ w = .float y.value := by
    rw [Bool.or_eq_true] at hdep
    exact hdep.imp hleft hright
  refine ⟨.float (f x.value y.value), .double (.lift2 f x y), ?_, happly _ _ _ _ _ hn hk,
    ⟨.lift2 f x y, rfl, ?_, fun _ => ?_⟩⟩
  · simp only [Evaluation.exec, Run.bind_eq_ok]
    refine ⟨v, s, hv, w, s, hw, ?_⟩
    rw [Run.atLine, Run.mapFault_ok]
    exact binary_float hf m hx hy hfloat s
  · rw [Signed.value_lift2]
    rfl
  · rw [Signed.value_lift2]

/-- Lowered code computes what the interpreted code computes. -/
theorem lower_computes {d : Dialect H} (hd : Preset d) {params : List String}
    (hnodup : params.Nodup) {m₀ : Machine H W} (t : Tree (Value H)) {scope : List String}
    {e : CExpr} {dependent : Bool} {code : Code H} {s₀ s₁ : Store H W}
    (h : lower params Value.float? .standard t = .ok (e, dependent))
    (hc : Compilation.compile m₀ d t scope s₀ = .ok code s₁) (W' : Type) :
    Computes code e dependent params W' := by
  match t with
  | .ident line name =>
    simp only [lower] at h
    cases hi : params.idxOf? name with
    | none => simp only [hi] at h; cases h
    | some i =>
      simp only [hi] at h
      cases h
      simp only [Compilation.compile, hd.rules, Option.bind_none] at hc
      cases hc
      exact computes_param hnodup hi line _
  | .const line v =>
    simp only [lower] at h
    cases hv : v.float? with
    | none => simp only [hv] at h; cases h
    | some x =>
      simp only [hv] at h
      cases h
      cases hc
      exact computes_const hv params
  | .unary line op operand =>
    simp only [lower] at h
    cases ht : Templates.standard.unary.get? op with
    | none => simp only [ht] at h; cases h
    | some template =>
      simp only [ht] at h
      cases ho : lower params Value.float? .standard operand with
      | error err => simp only [ho] at h; cases h
      | ok r =>
        obtain ⟨e', dep⟩ := r
        cases dep with
        | false => simp only [ho] at h; cases h
        | true =>
          simp only [ho] at h
          cases h
          have hu := (hd.unary_template ht).1
          simp only [Compilation.compile, hd.rules, Option.any_none, hu, Bool.false_eq_true,
            if_false, Run.bind_eq_ok] at hc
          obtain ⟨code', u, hcode, hc⟩ := hc
          cases hc
          exact computes_unary hd ht hu (lower_computes hd hnodup operand ho hcode W') line
  | .binary line op left right =>
    simp only [lower] at h
    cases ht : Templates.standard.binary.get? op with
    | none => simp only [ht] at h; cases h
    | some template =>
      simp only [ht] at h
      cases hl : lower params Value.float? .standard left with
      | error err => simp only [hl] at h; cases h
      | ok p =>
        obtain ⟨a, inLeft⟩ := p
        simp only [hl] at h
        cases hr : lower params Value.float? .standard right with
        | error err => simp only [hr] at h; cases h
        | ok q =>
          obtain ⟨b, inRight⟩ := q
          simp only [hr] at h
          cases hdep : (inLeft || inRight) with
          | false => simp only [hdep, Bool.false_eq_true, if_false] at h; cases h
          | true =>
            simp only [hdep, if_true] at h
            cases h
            obtain ⟨o, f, hop, -, -⟩ := hd.binary_template ht
            simp only [Compilation.compile, hop, Run.bind_eq_ok] at hc
            obtain ⟨l, u, hlc, r, u', hrc, hc⟩ := hc
            cases hc
            exact computes_binary hd ht hop (lower_computes hd hnodup left hl hlc W')
              (lower_computes hd hnodup right hr hrc W') hdep line
  | .letIn .. | .cond .. | .closure .. | .list .. | .index .. | .map .. | .field .. | .call ..
  | .method .. =>
    simp only [lower] at h
    cases h

end Native

end Formula
