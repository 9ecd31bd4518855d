import Formula.Dict
import Formula.Line
import Formula.Scope

/-!
Values, functions and code. The three refer to one another: a closure is code together with
the scope it was made in, and code holds the values it was made from.

`H` names the functions of the host. Lists live in the store and are referred to by number,
because all holders of a list share its cache; maps and functions are plain data that carry an
identity, because two of them are told apart even where their contents agree.
-/
namespace Formula

/-- What tells one map or function from another. -/
inductive Identity where
  | builtin (name : String)
  | made (number : Nat)
  deriving DecidableEq, Repr, Inhabited

/-- A list of the store. -/
structure ListRef where
  number : Nat
  deriving DecidableEq, Repr, Inhabited

/-- The escalation record of a closure literal in the store. -/
structure SlotRef where
  number : Nat
  deriving DecidableEq, Repr, Inhabited

/-- How many arguments a function takes. -/
inductive Arity where
  | fixed (n : Nat)
  | variadic
  deriving DecidableEq, Repr, Inhabited

namespace Arity

def accepts : Arity → Nat → Bool
  | .fixed n, args => n == args
  | .variadic, _ => true

def fixed? : Arity → Option Nat
  | .fixed n => some n
  | .variadic => none

def text : Arity → String
  | .fixed n => toString n
  | .variadic => "any"

end Arity

/-- The operators of the standard dialect. -/
inductive BinaryOp where
  | or | and | eq | ne | lt | le | gt | ge | add | sub | mul | div | rem | pow
  deriving DecidableEq, Repr, Inhabited

inductive UnaryOp where
  | neg | not
  deriving DecidableEq, Repr, Inhabited

/-- The named functions of the standard dialect. -/
inductive StandardFn where
  | sqrt | abs | sin | cos | list | min | max
  deriving DecidableEq, Repr, Inhabited

/-- What runs when an operator is applied or a function without code is called. -/
inductive Callback (H : Type) where
  | binary (op : BinaryOp)
  | unary (op : UnaryOp)
  | function (f : StandardFn)
  | host (h : H)
  deriving Inhabited

/-- How a condition is read: bools only, or as a function of the host says. -/
inductive Truth (H : Type) where
  | strict
  | host (h : H)

/-- What is known of a function without calling it. -/
structure Signature where
  name : String
  arity : Arity
  isPure : Bool
  line : Line := .unknown
  slot : Option SlotRef := none
  deriving DecidableEq, Repr, Inhabited

mutual

inductive Value (H : Type) where
  | int (n : Int64)
  | float (x : Float)
  | bool (b : Bool)
  | str (s : String)
  | list (ref : ListRef)
  | map (id : Identity) (entries : Dict (Value H))
  | closure (f : Function H)

inductive Function (H : Type) where
  | mk (id : Identity) (signature : Signature) (body : Body H)

inductive Body (H : Type) where
  | callback (c : Callback H)
  | code (params : List String) (code : Code H) (captured : List (Frame (Value H) (Template H)))

/-- A closure literal that still lacks the scope to capture. -/
inductive Template (H : Type) where
  | mk (name : String) (line : Line) (params : List String) (body : Code H)
      (slot : Option SlotRef)

inductive Code (H : Type) where
  | const (v : Value H)
  | var (line : Line) (name : String) (fallback : Option (Value H))
  | letIn (name : String) (value inner : Code H)
  | letRec (name : String) (template : Template H) (inner : Code H)
  | cond (line : Line) (truth : Truth H) (test yes no : Code H)
  | unary (line : Line) (callback : Callback H) (operand : Code H)
  | binary (line : Line) (callback : Callback H) (left right : Code H)
  | closure (template : Template H)
  | list (items : List (Code H))
  | index (line : Line) (source position : Code H)
  | map (entries : List (String × Code H))
  | field (line : Line) (record : Code H) (key : String)
  | callStatic (line : Line) (function : Function H) (args : List (Code H))
  | call (line : Line) (callee : String) (function : Code H) (args : List (Code H))
  | method (line : Line) (fields methods : Bool) (receiver : Code H) (name : String)
      (args : List (Code H))
  | pair (code : Code H)

end

variable {H : Type}

instance : Inhabited (Value H) := ⟨.bool false⟩

/-- The scopes that code runs in. -/
abbrev Env (H : Type) := Scope (Value H) (Template H)

namespace Function

def id : Function H → Identity
  | .mk id _ _ => id

def signature : Function H → Signature
  | .mk _ signature _ => signature

def body : Function H → Body H
  | .mk _ _ body => body

def name (f : Function H) : String := f.signature.name
def arity (f : Function H) : Arity := f.signature.arity
def isPure (f : Function H) : Bool := f.signature.isPure
def line (f : Function H) : Line := f.signature.line
def slot (f : Function H) : Option SlotRef := f.signature.slot

/-- A function that runs a callback, without a name of its own. -/
def ofCallback (id : Identity) (arity : Arity) (isPure : Bool) (c : Callback H) : Function H :=
  .mk id { name := "function", arity, isPure } (.callback c)

def named (name : String) : Function H → Function H
  | .mk id signature body => .mk id { signature with name } body

/-- Both run the same code, whatever they are named. -/
def same (f g : Function H) : Bool := f.id == g.id

end Function

namespace Template

/-- A closure of the literal over a scope. -/
def close (id : Identity) (captured : Env H) : Template H → Function H
  | .mk name line params body slot =>
    .mk id { name, arity := .fixed params.length, isPure := false, line, slot }
      (.code params body captured)

end Template

namespace Value

def kind : Value H → String
  | .int _ => "int"
  | .float _ => "float"
  | .bool _ => "bool"
  | .str _ => "string"
  | .list _ => "list"
  | .map _ _ => "map"
  | .closure _ => "closure"

def int? : Value H → Option Int64
  | .int n => some n
  | _ => none

def bool? : Value H → Option Bool
  | .bool b => some b
  | _ => none

def str? : Value H → Option String
  | .str s => some s
  | _ => none

def closure? : Value H → Option (Function H)
  | .closure f => some f
  | _ => none

end Value

end Formula
