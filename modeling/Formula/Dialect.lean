import Formula.Native.Slot
import Formula.Text.Quoted
import Formula.Tree
import Formula.Value

/-!
Dialects: everything a tree can refer to. Operators are kept in the order of their first
registration, which is their order of precedence, weakest first; what is registered again takes
the place of what was there. The kinds of values beyond plain ones are capabilities: a node
whose capability is missing cannot be compiled.
-/
namespace Formula

variable {H : Type}

/-- A binary operator. A pure one may be computed ahead of time, a commutative one regrouped. -/
structure Operator (H : Type) where
  symbol : String
  callback : Callback H
  isPure : Bool := true
  commutative : Bool := false

structure UnaryOperator (H : Type) where
  symbol : String
  callback : Callback H

/-- What the host makes of an identifier. -/
inductive Directive (H : Type) where
  | constant (v : Value H)
  | reject (message : String)
  | abort (message : String)

/-- How the host compiles some nodes by itself: identifiers, and unary operations whose operand
is to be evaluated twice, in a scope of its own, into the list of both results. -/
structure Rules (H : Type) where
  ident : String → Option (Directive H)
  pairs : String → Bool

/-- The language of a tree. Its values are the ones of this library, and so is the handling of
closures, lists, maps and methods, which a dialect has or lacks. Operators, functions, constants and
the host, with its callbacks and rules, are arbitrary. -/
structure Dialect (H : Type) where
  operators : List (Operator H) := []
  unaries : List (UnaryOperator H) := []
  functions : Assoc (Function H) := []
  constants : Assoc (Value H) := []
  closures : Bool := false
  lists : Bool := false
  maps : Bool := false
  methods : Bool := false
  truth : Option (Truth H) := none
  rules : Option (Rules H) := none
  readNumber : Option (String → Except String (Value H)) := none
  ofString : Option (String → Value H) := none
  marshal : Option (Native.Marshal (Value H)) := none
  trigger : Option Native.Trigger := none
  foldConstants : Bool := true

namespace Operator

def inspect (o : Operator H) : String :=
  "Operator \x7b symbol: " ++ Text.quoted o.symbol ++ ", is_pure: " ++ toString o.isPure ++
    ", is_commutative: " ++ toString o.commutative ++ " \x7d"

/-- Replaces the operator of the same symbol, or adds one that binds strongest. -/
def register (o : Operator H) : List (Operator H) → List (Operator H)
  | [] => [o]
  | p :: rest => if p.symbol = o.symbol then o :: rest else p :: register o rest

end Operator

namespace UnaryOperator

def inspect (o : UnaryOperator H) : String :=
  "UnaryOperator \x7b symbol: " ++ Text.quoted o.symbol ++ " \x7d"

def register (o : UnaryOperator H) : List (UnaryOperator H) → List (UnaryOperator H)
  | [] => [o]
  | p :: rest => if p.symbol = o.symbol then o :: rest else p :: register o rest

end UnaryOperator

namespace Dialect

def empty : Dialect H := {}

def operator? (d : Dialect H) (symbol : String) : Option (Operator H) :=
  d.operators.find? (·.symbol == symbol)

def unary? (d : Dialect H) (symbol : String) : Option (UnaryOperator H) :=
  d.unaries.find? (·.symbol == symbol)

def function? (d : Dialect H) (name : String) : Option (Function H) := d.functions.get? name

def constant? (d : Dialect H) (name : String) : Option (Value H) := d.constants.get? name

/-- The function of the dialect that a call names, if nothing around it binds the name. -/
def static? (d : Dialect H) (scope : List String) : Tree (Value H) → Option (String × Function H)
  | .ident _ name =>
    if scope.contains name then none else (d.function? name).map fun f => (name, f)
  | _ => none

def addOperator (d : Dialect H) (o : Operator H) : Dialect H :=
  { d with operators := o.register d.operators }

def addUnary (d : Dialect H) (o : UnaryOperator H) : Dialect H :=
  { d with unaries := o.register d.unaries }

/-- Registers a function, which takes the name it is registered under. -/
def addFunction (d : Dialect H) (name : String) (f : Function H) : Dialect H :=
  { d with functions := d.functions.upsert name (f.named name) }

def addConstant (d : Dialect H) (name : String) (v : Value H) : Dialect H :=
  { d with constants := d.constants.upsert name v }

def quotedList (items : List String) : String :=
  "[" ++ ", ".intercalate (items.map Text.quoted) ++ "]"

/-- A summary of what is registered. -/
def inspect (d : Dialect H) : String :=
  "FunctionGenerator \x7b operators: " ++ quotedList (d.operators.map (·.symbol)) ++
    ", unary_operators: " ++ quotedList (d.unaries.map (·.symbol)) ++
    ", static_functions: " ++ quotedList (d.functions.keys.mergeSort fun a b => !(b < a)) ++
    ", options: Options \x7b optimize: " ++ toString d.foldConstants ++ " \x7d, .. \x7d"

end Dialect

end Formula
