import Formula.Builtin
import Formula.Decimal.Reader
import Formula.Dialect

/-!
The standard dialect: arithmetic, comparison and logic on values, a few functions and
constants, and all capabilities.
-/
namespace Formula

variable {H : Type}

/-- A number literal, in which `_` is ignored: an integer if it can be one, else a float. -/
def readNumber (s : String) : Except String (Value H) :=
  let digits := s.toList.filter (· ≠ '_')
  match Decimal.readInt64? digits with
  | some n => .ok (.int n)
  | none =>
    match Decimal.readFloat? digits with
    | some x => .ok (.float x)
    | none => .error ("invalid number '" ++ s ++ "': " ++ Decimal.refusal digits)

/-- Native code computes with floats. Integer arithmetic wraps and stays integer, so a call with
an integer argument is left to the interpreter. -/
def valueMarshal : Native.Marshal (Value H) where
  toNative
    | .float x => some x
    | _ => none
  fromNative := .float
  constant := Value.float?

namespace Dialect

def standardOperator (op : BinaryOp) : Operator H :=
  { symbol := op.symbol, callback := .binary op, commutative := op.commutative }

def standardUnary (op : UnaryOp) : UnaryOperator H := { symbol := op.symbol, callback := .unary op }

def standardFunction (f : StandardFn) : Function H :=
  (Function.ofCallback (.builtin f.name) f.arity true (.function f)).named f.name

def pi : Float := Float.ofBits 0x400921FB54442D18

def standard : Dialect H where
  operators := BinaryOp.all.map standardOperator
  unaries := UnaryOp.all.map standardUnary
  functions := StandardFn.all.map fun f => (f.name, standardFunction f)
  constants := [("pi", .float pi), ("true", .bool true), ("false", .bool false)]
  closures := true
  lists := true
  maps := true
  methods := true
  truth := some .strict
  readNumber := some Formula.readNumber
  ofString := some .str
  marshal := some valueMarshal

end Dialect

end Formula
