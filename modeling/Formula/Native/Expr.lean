import Formula.Decimal.Text
import Formula.Native.Functions

/-!
The C expressions that closure bodies are written as, their text and their value. An
expression reads the parameters `p0`, `p1`, ….
-/
namespace Formula
namespace Native

inductive CExpr where
  | param (index : Nat)
  | literal (x : Float)
  | prefixed (symbol : String) (operand : CExpr)
  | infixed (symbol : String) (left right : CExpr)
  | call1 (name : String) (arg : CExpr)
  | call2 (name : String) (left right : CExpr)
  deriving Inhabited

/-- A constant of the source text; negative ones stand in parentheses. -/
def literalText (x : Float) : String :=
  if x.isNaN then "NAN"
  else if x.isInf then (if x > 0 then "INFINITY" else "(-INFINITY)")
  else if x < 0 then "(" ++ Decimal.Layout.literal.text x ++ ")"
  else Decimal.Layout.literal.text x

namespace CExpr

def text : CExpr → String
  | .param i => "p" ++ toString i
  | .literal x => literalText x
  | .prefixed symbol e => "(" ++ symbol ++ e.text ++ ")"
  | .infixed symbol a b => "(" ++ a.text ++ " " ++ symbol ++ " " ++ b.text ++ ")"
  | .call1 name e => name ++ "(" ++ e.text ++ ")"
  | .call2 name a b => name ++ "(" ++ a.text ++ ", " ++ b.text ++ ")"

/-- Whether a compiler that is free to order two operands takes the first one last. Computed
operands come before parameters, the right one of two first; parameters follow by number, and
constants are the last. -/
def comesAfter : CExpr → CExpr → Bool
  | _, .literal _ => false
  | .literal _, _ => true
  | .param i, .param j => j < i
  | _, .param _ => false
  | _, _ => true

/-- The functions whose operands the compiler orders. -/
def symmetric (name : String) : Bool := name = "fmax" || name = "fmin"

/-- The value of an expression; `none` where it is not a C expression at all. -/
def number? (args : List Signed) : CExpr → Option Number
  | .param i => some (.double (args[i]?.getD (.ofFloat 0)))
  | .literal x => some (.double (.ofFloat x))
  | .prefixed symbol e => do Number.unary? symbol (← e.number? args)
  | .infixed symbol a b => do Number.binary? symbol (← a.number? args) (← b.number? args)
  | .call1 name e => do Number.call1? name (← e.number? args)
  | .call2 name a b => do
    let x ← a.number? args
    let y ← b.number? args
    if symmetric name && a.comesAfter b then Number.call2? name y x else Number.call2? name x y

/-- The value as the emitted function returns it. -/
def run (args : List Signed) (e : CExpr) : Signed :=
  match e.number? args with
  | some n => n.toDouble
  | none => .ofFloat Double.nan

/-- The value for arguments that do not tell NaNs apart. -/
def eval (args : List Float) (e : CExpr) : Float := (e.run (args.map .ofFloat)).value

/-- Whether a compiler accepts the expression. It does not depend on the arguments, because
the operators that exist are decided by the types alone. -/
def valid (e : CExpr) : Bool := (e.number? []).isSome

end CExpr

end Native

end Formula
