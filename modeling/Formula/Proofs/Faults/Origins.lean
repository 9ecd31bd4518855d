import Formula.Proofs.Faults.Operators
import Mathlib.Logic.Relation

/-!
The way of a fault. An evaluation is looked at as the points it comes to: code in a scope, calls,
callbacks and operations, each with the store that it is run from. `Raises` says which fault a point
raises by itself, `Passes` which of the points that it runs end it with their faults, and which line
a fault is given there. A fault that is attempted, or that an access to a list quotes, does not
pass. `Stems` is the whole way of a fault from the point that raised it.
-/
namespace Formula

theorem Machine.host_ofHost {H W : Type} (host : Host H W) (budget : Nat) :
    (Machine.ofHost host budget).host = host := rfl

namespace Faults

open Evaluation (exec execAll execEntries)

variable {H W : Type} {R : Regime H W}

/-- The operations of the library that can call functions. -/
inductive Operation (H : Type) where
  | method (v : Value H) (name : String) (args : List (Value H))
  | join (a b : ListRef)

def Operation.run (m : Machine H W) : Operation H → Run H W CollectionError (Value H)
  | .method v name args => Method.call m v name args
  | .join a b => Sequence.concat m a b

/-- How a fault of the operation is reported. -/
def Operation.report : Operation H → CollectionError → EvalError
  | .method _ name _, c => c.toMethod name
  | .join _ _, c => c.toEval

/-- A fault of a function that was called is reported as it is. -/
@[simp] theorem Operation.report_eval (o : Operation H) (e : EvalError) :
    o.report (.eval e) = e := by
  cases o <;> rfl

/-- What is run at a point. -/
inductive Task (H : Type) where
  | code (c : Code H) (env : Env H)
  | codes (cs : List (Code H)) (env : Env H)
  | entries (es : List (String × Code H)) (env : Env H)
  | method (line : Line) (fields methods : Bool) (v : Value H) (name : String)
      (args : List (Value H))
  | call (f : Function H) (args : List (Value H))
  | callback (c : Callback H) (args : List (Value H))
  | operation (o : Operation H)

/-- A point of an evaluation: what is run, with which budget of nested calls, from which store. -/
structure Point (H W : Type) where
  budget : Nat
  task : Task H
  store : Store H W

/-- What is run at the point ends in the fault and leaves the store. -/
def Point.Ends (host : Host H W) : Point H W → EvalError → Store H W → Prop
  | ⟨n, .code c env, s⟩, e, t => exec (.ofHost host n) c env s = .error (.fault e) t
  | ⟨n, .codes cs env, s⟩, e, t => execAll (.ofHost host n) cs env s = .error (.fault e) t
  | ⟨n, .entries es env, s⟩, e, t => execEntries (.ofHost host n) es env s = .error (.fault e) t
  | ⟨n, .method line fields methods v name args, s⟩, e, t =>
    Evaluation.callMethod (.ofHost host n) line fields methods v name args s = .error (.fault e) t
  | ⟨n, .call f args, s⟩, e, t => Evaluation.call host n f args s = .error (.fault e) t
  | ⟨n, .callback c args, s⟩, e, t => c.run (.ofHost host n) args s = .error (.fault e) t
  | ⟨n, .operation o, s⟩, e, t =>
    ((o.run (.ofHost host n)).mapFault o.report) s = .error (.fault e) t

/-- Who raises a fault: a node of the code, the library, or functions and lists from outside. -/
inductive Origin where
  | node (site : Site) (line : Line)
  | library
  | outside

/-- The method that a field of the value stands for. -/
abbrev fieldMethod? (fields : Bool) (v : Value H) (name : String) : Option (Function H) :=
  if fields then Evaluation.fieldClosure? v name else none

/-- The point itself raises the fault, in the store. -/
inductive Raises (R : Regime H W) : Point H W → Origin → EvalError → Store H W → Prop where
  -- nodes
  | name {n line name env s} (hnone : env.find? name = none) :
    Raises R ⟨n, .code (.var line name none) env, s⟩ (.node (.name name) line)
      ⟨.notFound name, line⟩ s
  | test {n line truth test yes no env s v u text t}
      (hv : exec (.ofHost R.host n) test env s = .ok v u) (hread : truth.read R.host v = none)
      (htext : (Value.inspect (.ofHost R.host n) v).lift u =
        (.ok text t : EStateM.Result (Stop EvalError) _ _)) :
    Raises R ⟨n, .code (.cond line truth test yes no) env, s⟩ (.node .test line)
      ⟨.notABool text, line⟩ t
  | index {n line source position env s v u i w e t}
      (hv : exec (.ofHost R.host n) source env s = .ok v u)
      (hi : exec (.ofHost R.host n) position env u = .ok i w)
      (h : Evaluation.index (.ofHost R.host n) line v i w = .error (.fault e) t) :
    Raises R ⟨n, .code (.index line source position) env, s⟩ (.node .index line) e t
  | field {n line record key env s v u e} (hv : exec (.ofHost R.host n) record env s = .ok v u)
      (h : Evaluation.field line v key = .error e) :
    Raises R ⟨n, .code (.field line record key) env, s⟩ (.node .field line) e u
  | callee {n line callee function args env s v u e}
      (hv : exec (.ofHost R.host n) function env s = .ok v u)
      (h : Evaluation.callable line callee v args.length = .error e) :
    Raises R ⟨n, .code (.call line callee function args) env, s⟩ (.node .call line) e u
  | methodArity {n line fields methods v name args s f e} (hf : fieldMethod? fields v name = some f)
      (h : Evaluation.checkArity line name f args.length = .error e) :
    Raises R ⟨n, .method line fields methods v name args, s⟩ (.node (.method name) line) e s
  | noMethod {n line fields v name args s} (hnone : fieldMethod? fields v name = none) :
    Raises R ⟨n, .method line fields false v name args, s⟩ (.node (.method name) line)
      ⟨.method name "method not found", line⟩ s
  | literal {n f args s e} (h : Evaluation.checkArity f.line f.name f args.length = .error e) :
    Raises R ⟨n + 1, .call f args, s⟩ (.node .literal f.line) e s
  -- the library
  | arity {n f args s e} (hline : f.line = .unknown)
      (h : Evaluation.checkArity f.line f.name f args.length = .error e) :
    Raises R ⟨n + 1, .call f args, s⟩ .library e s
  | operator {n c args s e t} (hplain : Plain c args)
      (h : c.run (.ofHost R.host n) args s = .error (.fault e) t) :
    Raises R ⟨n, .callback c args, s⟩ .library e t
  | operation {n o s c t} (hc : Own c) (h : o.run (.ofHost R.host n) s = .error (.fault c) t) :
    Raises R ⟨n, .operation o, s⟩ .library (o.report c) t
  -- outside
  | host {n h args s e t} (hrun : R.host.call h args s = .error (.fault e) t) :
    Raises R ⟨n, .callback (.host h) args, s⟩ .outside e t
  | given {n f args s e t} (hf : R.given f)
      (h : Evaluation.call R.host n f args s = .error (.fault e) t) :
    Raises R ⟨n, .call f args, s⟩ .outside e t
  | ending {n o s e t} (he : R.ends e)
      (h : o.run (.ofHost R.host n) s = .error (.fault (.eval e)) t) :
    Raises R ⟨n, .operation o, s⟩ .outside e t

/-- The first point runs the second one, and a fault of the second ends the first. It may be given
a line on the way, if it has none. -/
inductive Passes (R : Regime H W) : Point H W → Option (Site × Line) → Point H W → Prop where
  -- what a node runs before it raises or calls anything
  | value {n name value inner env s} :
    Passes R ⟨n, .code (.letIn name value inner) env, s⟩ none ⟨n, .code value env, s⟩
  | inner {n name value inner env s v u} (hv : exec (.ofHost R.host n) value env s = .ok v u) :
    Passes R ⟨n, .code (.letIn name value inner) env, s⟩ none ⟨n, .code inner (env.bind name v), u⟩
  | innerRec {n name template inner env s} :
    Passes R ⟨n, .code (.letRec name template inner) env, s⟩ none
      ⟨n, .code inner (env.bindRecursive name template), s⟩
  | test {n line truth test yes no env s} :
    Passes R ⟨n, .code (.cond line truth test yes no) env, s⟩ none ⟨n, .code test env, s⟩
  | yes {n line truth test yes no env s v u} (hv : exec (.ofHost R.host n) test env s = .ok v u)
      (hread : truth.read R.host v = some true) :
    Passes R ⟨n, .code (.cond line truth test yes no) env, s⟩ none ⟨n, .code yes env, u⟩
  | no {n line truth test yes no env s v u} (hv : exec (.ofHost R.host n) test env s = .ok v u)
      (hread : truth.read R.host v = some false) :
    Passes R ⟨n, .code (.cond line truth test yes no) env, s⟩ none ⟨n, .code no env, u⟩
  | operand {n line c operand env s} :
    Passes R ⟨n, .code (.unary line c operand) env, s⟩ none ⟨n, .code operand env, s⟩
  | left {n line c left right env s} :
    Passes R ⟨n, .code (.binary line c left right) env, s⟩ none ⟨n, .code left env, s⟩
  | right {n line c left right env s v u} (hv : exec (.ofHost R.host n) left env s = .ok v u) :
    Passes R ⟨n, .code (.binary line c left right) env, s⟩ none ⟨n, .code right env, u⟩
  | items {n items env s} :
    Passes R ⟨n, .code (.list items) env, s⟩ none ⟨n, .codes items env, s⟩
  | source {n line source position env s} :
    Passes R ⟨n, .code (.index line source position) env, s⟩ none ⟨n, .code source env, s⟩
  | position {n line source position env s v u}
      (hv : exec (.ofHost R.host n) source env s = .ok v u) :
    Passes R ⟨n, .code (.index line source position) env, s⟩ none ⟨n, .code position env, u⟩
  | entries {n entries env s} :
    Passes R ⟨n, .code (.map entries) env, s⟩ none ⟨n, .entries entries env, s⟩
  | record {n line record key env s} :
    Passes R ⟨n, .code (.field line record key) env, s⟩ none ⟨n, .code record env, s⟩
  | staticArgs {n line f args env s} :
    Passes R ⟨n, .code (.callStatic line f args) env, s⟩ none ⟨n, .codes args env, s⟩
  | callee {n line callee function args env s} :
    Passes R ⟨n, .code (.call line callee function args) env, s⟩ none ⟨n, .code function env, s⟩
  | args {n line callee function args env s v u f}
      (hv : exec (.ofHost R.host n) function env s = .ok v u)
      (hf : Evaluation.callable line callee v args.length = .ok f) :
    Passes R ⟨n, .code (.call line callee function args) env, s⟩ none ⟨n, .codes args env, u⟩
  | receiver {n line fields methods receiver name args env s} :
    Passes R ⟨n, .code (.method line fields methods receiver name args) env, s⟩ none
      ⟨n, .code receiver env, s⟩
  | methodArgs {n line fields methods receiver name args env s v u}
      (hv : exec (.ofHost R.host n) receiver env s = .ok v u) :
    Passes R ⟨n, .code (.method line fields methods receiver name args) env, s⟩ none
      ⟨n, .codes args env, u⟩
  | once {n code env s} : Passes R ⟨n, .code (.pair code) env, s⟩ none ⟨n, .code code env, s⟩
  | twice {n code env s v u} (hv : exec (.ofHost R.host n) code env s = .ok v u) :
    Passes R ⟨n, .code (.pair code) env, s⟩ none ⟨n, .code code env, u⟩
  | head {n c cs env s} : Passes R ⟨n, .codes (c :: cs) env, s⟩ none ⟨n, .code c env, s⟩
  | tail {n c cs env s v u} (hv : exec (.ofHost R.host n) c env s = .ok v u) :
    Passes R ⟨n, .codes (c :: cs) env, s⟩ none ⟨n, .codes cs env, u⟩
  | entry {n key c es env s} :
    Passes R ⟨n, .entries ((key, c) :: es) env, s⟩ none ⟨n, .code c env, s⟩
  | rest {n key c es env s v u} (hv : exec (.ofHost R.host n) c env s = .ok v u) :
    Passes R ⟨n, .entries ((key, c) :: es) env, s⟩ none ⟨n, .entries es env, u⟩
  -- what a node calls
  | unary {n line c operand env s v u} (hv : exec (.ofHost R.host n) operand env s = .ok v u) :
    Passes R ⟨n, .code (.unary line c operand) env, s⟩ (some (.operation, line))
      ⟨n, .callback c [v], u⟩
  | binary {n line c left right env s v u w t} (hv : exec (.ofHost R.host n) left env s = .ok v u)
      (hw : exec (.ofHost R.host n) right env u = .ok w t) :
    Passes R ⟨n, .code (.binary line c left right) env, s⟩ (some (.operation, line))
      ⟨n, .callback c [v, w], t⟩
  | static {n line f args env s vs u} (hvs : execAll (.ofHost R.host n) args env s = .ok vs u) :
    Passes R ⟨n, .code (.callStatic line f args) env, s⟩ (some (.call, line)) ⟨n, .call f vs, u⟩
  | call {n line callee function args env s v u f vs t}
      (hv : exec (.ofHost R.host n) function env s = .ok v u)
      (hf : Evaluation.callable line callee v args.length = .ok f)
      (hvs : execAll (.ofHost R.host n) args env u = .ok vs t) :
    Passes R ⟨n, .code (.call line callee function args) env, s⟩ (some (.call, line))
      ⟨n, .call f vs, t⟩
  | method {n line fields methods receiver name args env s v u vs t}
      (hv : exec (.ofHost R.host n) receiver env s = .ok v u)
      (hvs : execAll (.ofHost R.host n) args env u = .ok vs t) :
    Passes R ⟨n, .code (.method line fields methods receiver name args) env, s⟩ none
      ⟨n, .method line fields methods v name vs, t⟩
  | ofField {n line fields methods v name args s f} (hf : fieldMethod? fields v name = some f)
      (harity : Evaluation.checkArity line name f args.length = .ok ()) :
    Passes R ⟨n, .method line fields methods v name args, s⟩ (some (.method name, line))
      ⟨n, .call f args, s⟩
  | ofKind {n line fields v name args s} (hnone : fieldMethod? fields v name = none) :
    Passes R ⟨n, .method line fields true v name args, s⟩ (some (.method name, line))
      ⟨n, .operation (.method v name args), s⟩
  -- what functions run
  | callback {n f args s u c}
      (harity : Evaluation.checkArity f.line f.name f args.length = .ok ())
      (hnative : Evaluation.tryNative f args s = .ok none u) (hbody : f.body = .callback c) :
    Passes R ⟨n + 1, .call f args, s⟩ none ⟨n, .callback c args, u⟩
  | body {n f args s u params c env}
      (harity : Evaluation.checkArity f.line f.name f args.length = .ok ())
      (hnative : Evaluation.tryNative f args s = .ok none u) (hbody : f.body = .code params c env) :
    Passes R ⟨n + 1, .call f args, s⟩ none ⟨n, .code c (Scope.bindParams env params args), u⟩
  | join {n a b args s} :
    Passes R ⟨n, .callback (.binary .add) (.list a :: .list b :: args), s⟩ none
      ⟨n, .operation (.join a b), s⟩
  | inside {n o s f args u e t} (h : o.run (.ofHost R.host n) s = .error (.fault (.eval e)) t)
      (hf : R.Runs f) (hargs : R.HoldsAll args) (hu : Sound R u)
      (hcall : Evaluation.call R.host n f args u = .error (.fault e) t) :
    Passes R ⟨n, .operation o, s⟩ none ⟨n, .call f args, u⟩

/-- The fault as it leaves a point that it passes. -/
def passed : Option (Site × Line) → EvalError → EvalError
  | none, e => e
  | some (_, line), e => e.atLine line

/-- From the point on, the fault `e₀` comes to be raised, in the store. The point ends in `e`. -/
inductive Stems (R : Regime H W) : Point H W → Origin → (e₀ e : EvalError) → Store H W → Prop where
  | raised {p o e t} (h : Raises R p o e t) : Stems R p o e e t
  | passed {p mark q o e₀ e t} (hpass : Passes R p mark q) (h : Stems R q o e₀ e t) :
    Stems R p o e₀ (passed mark e) t

/-- The evaluation comes to the second point, and faults of it can end the first. -/
def Reaches (R : Regime H W) : Point H W → Point H W → Prop :=
  Relation.ReflTransGen fun p q => ∃ mark, Passes R p mark q

variable {p q : Point H W} {mark : Option (Site × Line)} {o : Origin} {e₀ e : EvalError}
  {t : Store H W}

theorem Raises.ends (h : Raises R p o e t) : p.Ends R.host e t := by
  cases h with
  | name hnone =>
    simp only [Point.Ends, exec, Evaluation.lookup, hnone]
    rfl
  | test hv hread htext =>
    simp only [Point.Ends, exec, Run.bind_apply_ok hv, Machine.host_ofHost, hread,
      Run.bind_apply_ok htext]
    rfl
  | index hv hi h => simp only [Point.Ends, exec, Run.bind_apply_ok hv, Run.bind_apply_ok hi, h]
  | field hv h | callee hv h =>
    simp only [Point.Ends, exec, Run.bind_apply_ok hv, h]
    rfl
  | methodArity hf h =>
    simp only [Point.Ends, Evaluation.callMethod, hf, h]
    rfl
  | noMethod hnone =>
    simp only [Point.Ends, Evaluation.callMethod, hnone]
    rfl
  | literal h | arity _ h =>
    simp only [Point.Ends, Evaluation.call, Evaluation.invoke, h]
    rfl
  | operator _ h | host h | given _ h => exact h
  | operation _ h => exact Run.mapFault_fault _ h
  | ending _ h => simp only [Point.Ends, Run.mapFault_fault _ h, Operation.report_eval]

theorem Passes.ends (h : Passes R p mark q) (hq : q.Ends R.host e t) :
    p.Ends R.host (passed mark e) t := by
  cases h with
  -- the first part of the point
  | value | test | operand | left | items | source | entries | record | staticArgs | callee
  | receiver | once | head | entry => exact Run.bind_apply_error hq
  -- a part that is run after others
  | inner hv =>
    simp only [Point.Ends, exec, Run.bind_apply_ok hv]
    exact hq
  | innerRec => exact hq
  | yes hv hread =>
    simp only [Point.Ends, exec, Run.bind_apply_ok hv, Machine.host_ofHost, hread]
    exact hq
  | no hv hread =>
    simp only [Point.Ends, exec, Run.bind_apply_ok hv, Machine.host_ofHost, hread]
    exact hq
  | right hv | position hv | methodArgs hv | twice hv =>
    simp only [Point.Ends, exec, Run.bind_apply_ok hv]
    exact Run.bind_apply_error hq
  | args hv hf =>
    simp only [Point.Ends, exec, Run.bind_apply_ok hv, hf, Run.ofExcept_ok, pure_bind]
    exact Run.bind_apply_error hq
  | tail hv =>
    simp only [Point.Ends, execAll, Run.bind_apply_ok hv]
    exact Run.bind_apply_error hq
  | rest hv =>
    simp only [Point.Ends, execEntries, Run.bind_apply_ok hv]
    exact Run.bind_apply_error hq
  | method hv hvs =>
    simp only [Point.Ends, exec, Run.bind_apply_ok hv, Run.bind_apply_ok hvs]
    exact hq
  -- what is called at a line
  | unary hv | static hv =>
    simp only [Point.Ends, exec, Run.bind_apply_ok hv]
    exact Run.mapFault_fault _ hq
  | binary hv hw =>
    simp only [Point.Ends, exec, Run.bind_apply_ok hv, Run.bind_apply_ok hw]
    exact Run.mapFault_fault _ hq
  | call hv hf hvs =>
    simp only [Point.Ends, exec, Run.bind_apply_ok hv, hf, Run.ofExcept_ok, pure_bind,
      Run.bind_apply_ok hvs]
    exact Run.mapFault_fault _ hq
  | ofField hf harity =>
    simp only [Point.Ends, Evaluation.callMethod, hf, harity, Run.ofExcept_ok, pure_bind]
    exact Run.mapFault_fault _ hq
  | ofKind hnone =>
    simp only [Point.Ends, Evaluation.callMethod, hnone]
    exact Run.mapFault_fault _ hq
  -- what functions run
  | callback harity hnative hbody | body harity hnative hbody =>
    simp only [Point.Ends, Evaluation.call, Evaluation.invoke, harity, Run.ofExcept_ok, pure_bind,
      Run.bind_apply_ok hnative, hbody]
    exact hq
  | join => exact hq
  | inside h _ _ _ hcall =>
    -- the call ends in one way only
    cases hcall.symm.trans hq
    simp only [Point.Ends, Run.mapFault_fault _ h, Operation.report_eval]
    rfl

theorem Passes.attaches {site : Site} {line : Line} (h : Passes R p (some (site, line)) q) :
    site.attaches = true := by
  cases h <;> rfl

theorem passed_of_known (mark : Option (Site × Line)) (hknown : e.line.known = true) :
    passed mark e = e := by
  cases mark with
  | none => rfl
  | some place => rw [passed, EvalError.atLine, Line.or_of_known hknown]

/-- A fault that has a known line wherever it comes by ends the evaluation as it is. -/
theorem Reaches.ends (h : Reaches R p q) (hq : q.Ends R.host e t) (hknown : e.line.known = true) :
    p.Ends R.host e t := by
  induction h using Relation.ReflTransGen.head_induction_on with
  | refl => exact hq
  | head hpass _ ih =>
    obtain ⟨mark, hpass⟩ := hpass
    exact passed_of_known mark hknown ▸ hpass.ends ih

/-- A fault that is raised on the way ends the evaluation. -/
theorem Stems.ends (h : Stems R p o e₀ e t) : p.Ends R.host e t := by
  induction h with
  | raised h => exact h.ends
  | passed hpass _ ih => exact hpass.ends ih

/-- Nodes that stand at these places raise faults of their own at their line, the library raises its
own without a line. -/
def Origin.Explains (places : Site → Line → Prop) : Origin → EvalError → Prop
  | .node site line, e => places site line ∧ site.Raises line e
  | .library, e => Unplaced e
  | .outside, _ => True

/-- The places where the fault was raised and where it was given its line may be reached. -/
structure Told (R : Regime H W) (o : Origin) (e₀ e : EvalError) : Prop where
  origin : o.Explains R.places e₀
  /-- in place of a line that is not known comes that of a place that was passed -/
  attached : e₀.line.known = false → e.line.known = true →
    ∃ site, R.places site e.line ∧ site.attaches = true

/-- The fault that ends the point is of some kind, and stems from one that was raised. -/
def Regime.Reports (R : Regime H W) (P : EvalError → Prop) (p : Point H W) (e : EvalError)
    (t : Store H W) : Prop :=
  P e ∧ ∃ o e₀, Stems R p o e₀ e t ∧ Told R o e₀ e

namespace Regime

variable {P : EvalError → Prop} {site : Site} {line : Line}

/-- A point raises a fault that is explained. -/
theorem reports_raised (h : Raises R p o e t) (he : P e) (ho : o.Explains R.places e) :
    R.Reports P p e t :=
  ⟨he, o, e, .raised h, ho, fun hunknown hknown => by rw [hunknown] at hknown; cases hknown⟩

/-- A node raises a fault of its own. -/
theorem Admits.raises (h : R.Admits site line) (hraises : Raises R p (.node site line) e t)
    (he : site.Raises line e) : R.Reports R.final p e t :=
  reports_raised hraises (h.own e he) ⟨h.place, he⟩

theorem Reports.pass (h : R.Reports P q e t) (hpass : Passes R p none q) : R.Reports P p e t := by
  obtain ⟨he, o, e₀, hstems, htold⟩ := h
  exact ⟨he, o, e₀, .passed hpass hstems, htold⟩

/-- A fault passes a place that attaches its line. -/
theorem Reports.attach (h : R.Reports R.raw q e t) (hline : R.Admits site line)
    (hpass : Passes R p (some (site, line)) q) : R.Reports R.final p (e.atLine line) t := by
  obtain ⟨he, o, e₀, hstems, htold⟩ := h
  refine ⟨hline.pass hpass.attaches e he, o, e₀, .passed hpass hstems, htold.origin, ?_⟩
  intro hunknown hknown
  rw [EvalError.atLine_line] at hknown ⊢
  cases hl : e.line.known with
  | true =>
    rw [Line.or_of_known hl]
    exact htold.attached hunknown hl
  | false =>
    simp only [Line.or, hl, Bool.false_eq_true, if_false]
    exact ⟨site, hline.place, hpass.attaches⟩

end Regime

end Faults

end Formula
