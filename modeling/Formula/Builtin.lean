import Formula.Sequence.Ops

/-!
The operators and functions of the standard dialect. Two integers stay integers, with
arithmetic modulo `2 ^ 64`; division and power always give floats; any other pair of numbers
is computed in floats. `+` also joins texts and lists.
-/
namespace Formula

variable {H W : Type}

namespace BinaryOp

def symbol : BinaryOp → String
  | or => "|"
  | and => "&"
  | eq => "="
  | ne => "!="
  | lt => "<"
  | le => "<="
  | gt => ">"
  | ge => ">="
  | add => "+"
  | sub => "-"
  | mul => "*"
  | div => "/"
  | rem => "%"
  | pow => "^"

/-- All operators, those that bind weakest first. -/
def all : List BinaryOp := [or, and, eq, ne, lt, le, gt, ge, add, sub, mul, div, rem, pow]

/-- The operators declared commutative, which allows regrouping. -/
def commutative : BinaryOp → Bool
  | or | and | mul => true
  | _ => false

end BinaryOp

namespace UnaryOp

def symbol : UnaryOp → String
  | neg => "-"
  | not => "!"

def all : List UnaryOp := [neg, not]

end UnaryOp

namespace StandardFn

def name : StandardFn → String
  | sqrt => "sqrt"
  | abs => "abs"
  | sin => "sin"
  | cos => "cos"
  | list => "list"
  | min => "min"
  | max => "max"

def all : List StandardFn := [sqrt, abs, sin, cos, list, min, max]

def arity : StandardFn → Arity
  | min | max => .variadic
  | _ => .fixed 1

end StandardFn

namespace Builtin

def invalid (op : String) (a b : Value H) : EvalError :=
  .custom ("invalid types for " ++ op ++ ": " ++ a.kind ++ " and " ++ b.kind)

def number (name : String) (v : Value H) : Except EvalError Float :=
  match v.float? with
  | some x => .ok x
  | none => .error (.custom (name ++ " requires a number, got " ++ v.kind))

/-- Integer arithmetic on two integers, float arithmetic on any other two numbers. -/
def arithmetic (op : String) (int : Int64 → Int64 → Int64) (float : Float → Float → Float)
    (a b : Value H) : Except EvalError (Value H) :=
  match a, b with
  | .int x, .int y => .ok (.int (int x y))
  | a, b =>
    match a.float?, b.float? with
    | some x, some y => .ok (.float (float x y))
    | _, _ => .error (invalid op a b)

def compare (op : String) (accepts : Ordering → Bool) (a b : Value H) :
    Except EvalError (Value H) :=
  match a.compare? b with
  | some o => .ok (.bool (accepts o))
  | none => .error (invalid op a b)

def logic (op : String) (f : Bool → Bool → Bool) (a b : Value H) : Except EvalError (Value H) :=
  match a, b with
  | .bool x, .bool y => .ok (.bool (f x y))
  | a, b => .error (invalid op a b)

def remainder (a b : Value H) : Except EvalError (Value H) :=
  match a, b with
  | .int _, .int 0 => .error (.custom "division by zero in %")
  | a, b => arithmetic "%" (· % ·) Double.remainder a b

def add (m : Machine H W) (a b : Value H) : Run H W EvalError (Value H) :=
  let joined : Run H W EvalError (Value H) := do
    let left ← (Value.text m a).lift
    let right ← (Value.text m b).lift
    return .str (left ++ right)
  match a, b with
  | .str _, _ => joined
  | _, .str _ => joined
  | .list x, .list y => (Sequence.concat m x y).mapFault (·.toEval)
  | a, b => .ofExcept (arithmetic "+" (· + ·) (· + ·) a b)

def binary (m : Machine H W) (op : BinaryOp) (a b : Value H) : Run H W EvalError (Value H) :=
  match op with
  | .or => .ofExcept (logic "|" (· || ·) a b)
  | .and => .ofExcept (logic "&" (· && ·) a b)
  | .eq => do return .bool (← (Value.equal m a b).lift)
  | .ne => do return .bool (!(← (Value.equal m a b).lift))
  | .lt => .ofExcept (compare "<" (·.isLT) a b)
  | .le => .ofExcept (compare "<=" (·.isLE) a b)
  | .gt => .ofExcept (compare ">" (·.isGT) a b)
  | .ge => .ofExcept (compare ">=" (·.isGE) a b)
  | .add => add m a b
  | .sub => .ofExcept (arithmetic "-" (· - ·) (· - ·) a b)
  | .mul => .ofExcept (arithmetic "*" (· * ·) (· * ·) a b)
  | .div => .ofExcept do return .float ((← number "/" a) / (← number "/" b))
  | .rem => .ofExcept (remainder a b)
  | .pow => .ofExcept do return .float (Float.pow (← number "^" a) (← number "^" b))

def unary (op : UnaryOp) (a : Value H) : Except EvalError (Value H) :=
  match op, a with
  | .neg, .int n => .ok (.int (-n))
  | .neg, .float x => .ok (.float (-x))
  | .neg, a => .error (.custom ("invalid type for unary -: " ++ a.kind))
  | .not, .bool b => .ok (.bool (!b))
  | .not, a => .error (.custom ("invalid type for !: " ++ a.kind))

/-- The first of the best values, going by their doubles. -/
def best (name : String) (better : Float → Float → Bool) :
    Value H → Float → List (Value H) → Except EvalError (Value H)
  | held, _, [] => .ok held
  | held, x, v :: rest => do
    let y ← number name v
    if better y x then best name better v y rest else best name better held x rest

def extreme (name : String) (better : Float → Float → Bool) :
    List (Value H) → Except EvalError (Value H)
  | [] => .error (.custom (name ++ " requires at least one argument"))
  | v :: rest => do best name better v (← number name v) rest

def absolute : Value H → Except EvalError (Value H)
  | .int n => .ok (.int n.abs)
  | v => do return .float (← number "abs" v).abs

/-- A function of one number. -/
def unaryNumber (name : String) (f : Float → Float) (v : Value H) : Except EvalError (Value H) := do
  return .float (f (← number name v))

def function (f : StandardFn) (args : List (Value H)) : Run H W EvalError (Value H) :=
  match f, args with
  | .sqrt, [v] => .ofExcept (unaryNumber "sqrt" Float.sqrt v)
  | .abs, [v] => .ofExcept (absolute v)
  | .sin, [v] => .ofExcept (unaryNumber "sin" Float.sin v)
  | .cos, [v] => .ofExcept (unaryNumber "cos" Float.cos v)
  | .list, [.int n] => Store.newLazy (.range n)
  | .list, [v] => Run.fault (.custom ("list requires an int, got " ++ v.kind))
  | .min, args => .ofExcept (extreme "min" (· < ·) args)
  | .max, args => .ofExcept (extreme "max" (· > ·) args)
  | f, args => Run.fault ⟨.arityMismatch f.name 1 args.length, .unknown⟩

/-- Reading an operand that is not there ends host code. -/
def missing (args : List (Value H)) : Run H W EvalError (Value H) :=
  let len := toString args.length
  Run.panic ("index out of bounds: the len is " ++ len ++ " but the index is " ++ len)

end Builtin

/-- Runs a callback on its arguments. -/
def Callback.run (m : Machine H W) : Callback H → List (Value H) → Run H W EvalError (Value H)
  | .binary op, a :: b :: _ => Builtin.binary m op a b
  | .binary _, args => Builtin.missing args
  | .unary op, a :: _ => .ofExcept (Builtin.unary op a)
  | .unary _, [] => Builtin.missing []
  | .function f, args => Builtin.function f args
  | .host h, args => m.host.call h args

end Formula
