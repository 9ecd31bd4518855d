import Formula.Builtin
import Formula.Method
import Formula.Native.Worker

/-!
Running code and calling functions. Code is followed by its structure; only a call of a
function spends the budget, so an evaluation that needs no more nested calls than it is given
always ends.

Operands are evaluated from left to right. A callee is checked before the arguments of its call
are evaluated, the receiver and the arguments of a method before the method is looked for. A
fault raised by a callback is reported at the line of the operation or call that ran it.
-/
namespace Formula

variable {H W : Type}

def Truth.read (host : Host H W) : Truth H → Value H → Option Bool
  | .strict, v => v.bool?
  | .host h, v => host.truth h v

namespace Evaluation

/-- A new closure of a literal over a scope. -/
def close (template : Template H) (env : Env H) : Run H W EvalError (Value H) := do
  return .closure (template.close (← Store.freshIdentity) env)

/-- The value of a name: that of the scope, else the one known when the code was made. A
recursive binding gives a new closure each time it is read. -/
def lookup (line : Line) (name : String) (fallback : Option (Value H)) (env : Env H) :
    Run H W EvalError (Value H) :=
  match env.find? name with
  | some (.value v) => pure v
  | some (.recursive template here) => close template here
  | none =>
    match fallback with
    | some v => pure v
    | none => Run.fault ⟨.notFound name, line⟩

/-- An item of a list. -/
def index (m : Machine H W) (line : Line) (source position : Value H) :
    Run H W EvalError (Value H) :=
  match source, position with
  | .list ref, .int i => (Sequence.get m ref i).mapFault fun e => ⟨.list e.message, line⟩
  | .list _, v => Run.fault ⟨.list ("index must be an int, got " ++ v.kind), line⟩
  | v, _ => Run.fault ⟨.list (v.kind ++ " is not a list"), line⟩

/-- The value under a key of a map. -/
def field (line : Line) (record : Value H) (key : String) : Except EvalError (Value H) :=
  match record with
  | .map _ d =>
    match d.get? key with
    | some v => .ok v
    | none => .error ⟨.map ("key " ++ key ++ " not found in map"), line⟩
  | v => .error ⟨.map (v.kind ++ " is not a map"), line⟩

/-- Refuses a number of arguments that a function does not take. -/
def checkArity (line : Line) (callee : String) (f : Function H) (args : Nat) :
    Except EvalError Unit :=
  if f.arity.accepts args then .ok ()
  else .error ⟨.arityMismatch callee (f.arity.fixed?.getD 0) args, line⟩

/-- The function to call, which must take so many arguments. -/
def callable (line : Line) (callee : String) (v : Value H) (args : Nat) :
    Except EvalError (Function H) :=
  match v with
  | .closure f => (checkArity line callee f args).map fun _ => f
  | _ => .error ⟨.notAFunction callee, line⟩

/-- The closure in a field of a map. -/
def fieldClosure? (v : Value H) (name : String) : Option (Function H) :=
  match v with
  | .map _ d => (d.get? name).bind Value.closure?
  | _ => none

/-- Calls a method: the closure in a field of that name comes before the methods of the kind of
value. -/
def callMethod (m : Machine H W) (line : Line) (fields methods : Bool) (v : Value H) (name : String)
    (args : List (Value H)) : Run H W EvalError (Value H) :=
  match if fields then fieldClosure? v name else none with
  | some f => do
    Run.ofExcept (checkArity line name f args.length)
    (m.call f args).atLine line
  | none =>
    if methods then ((Method.call m v name args).mapFault (·.toMethod name)).atLine line
    else Run.fault ⟨.method name "method not found", line⟩

mutual

/-- The value of code in a scope. -/
def exec (m : Machine H W) : Code H → Env H → Run H W EvalError (Value H)
  | .const v, _ => pure v
  | .var line name fallback, env => lookup line name fallback env
  | .letIn name value inner, env => do
    let v ← exec m value env
    exec m inner (env.bind name v)
  | .letRec name template inner, env => exec m inner (env.bindRecursive name template)
  | .cond line truth test yes no, env => do
    let v ← exec m test env
    match truth.read m.host v with
    | some true => exec m yes env
    | some false => exec m no env
    | none => Run.fault ⟨.notABool (← (Value.inspect m v).lift), line⟩
  | .unary line callback operand, env => do
    let v ← exec m operand env
    (callback.run m [v]).atLine line
  | .binary line callback left right, env => do
    let a ← exec m left env
    let b ← exec m right env
    (callback.run m [a, b]).atLine line
  | .closure template, env => close template env
  | .list items, env => do Store.newList (← execAll m items env)
  | .index line source position, env => do
    let v ← exec m source env
    let i ← exec m position env
    index m line v i
  | .map entries, env => do Store.newMap (.ofList (← execEntries m entries env))
  | .field line record key, env => do
    let v ← exec m record env
    Run.ofExcept (field line v key)
  | .callStatic line f args, env => do
    let vs ← execAll m args env
    (m.call f vs).atLine line
  | .call line callee function args, env => do
    let v ← exec m function env
    let f ← Run.ofExcept (callable line callee v args.length)
    let vs ← execAll m args env
    (m.call f vs).atLine line
  | .method line fields methods receiver name args, env => do
    let v ← exec m receiver env
    let vs ← execAll m args env
    callMethod m line fields methods v name vs
  | .pair code, env => do
    let a ← exec m code env
    let b ← exec m code env
    Store.newList [a, b]

def execAll (m : Machine H W) : List (Code H) → Env H → Run H W EvalError (List (Value H))
  | [], _ => pure []
  | code :: rest, env => do
    let v ← exec m code env
    return v :: (← execAll m rest env)

def execEntries (m : Machine H W) : List (String × Code H) → Env H →
    Run H W EvalError (List (String × Value H))
  | [], _ => pure []
  | (key, code) :: rest, env => do
    let v ← exec m code env
    return (key, v) :: (← execEntries m rest env)

end

/-- The answer of native code; a call that it does not take is counted. -/
def tryNative (f : Function H) (args : List (Value H)) : Run H W EvalError (Option (Value H)) := do
  match f.slot with
  | none => pure none
  | some ref =>
    match (← Store.slot? ref).bind (·.callNative args) with
    | some v => pure (some v)
    | none =>
      Native.recordCall ref
      pure none

/-- Runs the body of a function. -/
def runBody (m : Machine H W) (args : List (Value H)) : Body H → Run H W EvalError (Value H)
  | .callback c => c.run m args
  | .code params code captured => exec m code (Scope.bindParams captured params args)

/-- Calls a function on a machine that the body runs on. -/
def invoke (m : Machine H W) (f : Function H) (args : List (Value H)) :
    Run H W EvalError (Value H) := do
  Run.ofExcept (checkArity f.line f.name f args.length)
  match ← tryNative f args with
  | some v => pure v
  | none => runBody m args f.body

/-- Calls a function with a budget of nested calls. -/
def call (host : Host H W) : Nat → Function H → List (Value H) → Run H W EvalError (Value H)
  | 0, _, _ => Run.exhausted
  | budget + 1, f, args => invoke ⟨host, budget, call host budget⟩ f args

end Evaluation

/-- The machine with a budget of nested calls. -/
def Machine.ofHost (host : Host H W) (budget : Nat) : Machine H W :=
  ⟨host, budget, Evaluation.call host budget⟩

end Formula
