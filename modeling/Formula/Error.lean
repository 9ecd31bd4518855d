import Formula.Line

/-!
What can go wrong, as causes. Each family of faults has one function that words it; a fault
of a tree also carries the line it is reported at, and a line once known is never replaced.
-/
namespace Formula

/-- Why an evaluation failed. -/
inductive EvalCause where
  | notFound (name : String)
  | arityMismatch (callee : String) (expected got : Nat)
  | notAFunction (callee : String)
  | notABool (value : String)
  | list (message : String)
  | map (message : String)
  | method (name message : String)
  | custom (message : String)
  | panic (message : String)
  deriving DecidableEq, Repr, Inhabited

structure EvalError where
  cause : EvalCause
  line : Line := .unknown
  deriving DecidableEq, Repr, Inhabited

def EvalCause.text : EvalCause → String
  | .notFound name => "variable '" ++ name ++ "' not found"
  | .arityMismatch callee expected got =>
    "wrong number of arguments in call to " ++ callee ++ ", expected " ++ toString expected ++
      ", got " ++ toString got
  | .notAFunction callee => "not a function: " ++ callee
  | .notABool value => "condition is not a bool: " ++ value
  | .list message => "list error: " ++ message
  | .map message => "map error: " ++ message
  | .method name message => "error calling " ++ name ++ ": " ++ message
  | .custom message => message
  | .panic message => "panic in host code: " ++ message

namespace EvalError

/-- A fault of host code, raised where no line is known. -/
def custom (message : String) : EvalError := ⟨.custom message, .unknown⟩

def method (name message : String) : EvalError := ⟨.method name message, .unknown⟩

def message (e : EvalError) : String := e.line.text ++ ": " ++ e.cause.text

/-- Attaches a line unless a more precise one is already known. -/
def atLine (e : EvalError) (l : Line) : EvalError := { e with line := e.line.or l }

@[simp] theorem atLine_cause (e : EvalError) (l : Line) : (e.atLine l).cause = e.cause := rfl
@[simp] theorem atLine_line (e : EvalError) (l : Line) : (e.atLine l).line = e.line.or l := rfl

end EvalError

/-- Why a tree cannot be turned into code. -/
inductive CompileCause where
  | unknownOperator (op : String)
  | unknownUnary (op : String)
  | arityMismatch (name : String) (expected got : Nat)
  | missingCapability (node capability : String)
  | custom (message : String)
  | panic (message : String)
  deriving DecidableEq, Repr, Inhabited

structure CompileError where
  cause : CompileCause
  line : Line := .unknown
  deriving DecidableEq, Repr, Inhabited

def CompileError.message (e : CompileError) : String :=
  let located (text : String) := e.line.text ++ ": " ++ text
  match e.cause with
  | .unknownOperator op => located ("operator \"" ++ op ++ "\" is not registered")
  | .unknownUnary op => located ("unary operator \"" ++ op ++ "\" is not registered")
  | .arityMismatch name expected got =>
    located ("wrong number of arguments in call to " ++ name ++ ", expected " ++
      toString expected ++ ", got " ++ toString got)
  | .missingCapability node capability =>
    located ("not supported: " ++ node ++ " requires a registered " ++ capability)
  | .custom message => located ("custom generator failed: " ++ message)
  | .panic message => "panic while generating code: " ++ message

/-- Why folding constants failed; the first three carry the fault of the callback that was
run ahead of time. -/
inductive FoldCause where
  | operator (op : String) (source : EvalError)
  | unary (op : String) (source : EvalError)
  | call (name : String) (source : EvalError)
  | arityMismatch (name : String) (expected got : Nat)
  | notABool (value : String)
  deriving DecidableEq, Repr, Inhabited

structure FoldError where
  cause : FoldCause
  line : Line := .unknown
  deriving DecidableEq, Repr, Inhabited

def FoldCause.text : FoldCause → String
  | .operator op source => "error in const operation " ++ op ++ ": " ++ source.message
  | .unary op source => "error in const unary operation " ++ op ++ ": " ++ source.message
  | .call name source => "error in const function call " ++ name ++ ": " ++ source.message
  | .arityMismatch name expected got =>
    "number of args wrong in call to " ++ name ++ ", expected " ++ toString expected ++
      ", got " ++ toString got
  | .notABool value => "if condition is not a bool: " ++ value

def FoldError.message (e : FoldError) : String := e.line.text ++ ": " ++ e.cause.text

/-- Any fault that reaches the host. -/
inductive Fault where
  | compile (e : CompileError)
  | eval (e : EvalError)
  | fold (e : FoldError)
  deriving DecidableEq, Repr, Inhabited

namespace Fault

def message : Fault → String
  | .compile e => e.message
  | .eval e => e.message
  | .fold e => e.message

def line : Fault → Line
  | .compile e => e.line
  | .eval e => e.line
  | .fold e => e.line

/-- Advice shown beside a fault of folding. -/
def help? : Fault → Option String
  | .fold _ =>
    some "the failing call is evaluated ahead of time because it only has constant arguments"
  | _ => none

end Fault

/-- Why an operation on a list or a map failed. -/
inductive CollectionError where
  | methodNotFound (kind name : String)
  | arityMismatch (name : String) (expected got : Nat)
  | notAClosure (name : String) (position : Nat)
  | closureArity (name : String) (position expected : Nat)
  | notABool (name : String)
  | invalidType (name expected : String)
  | noItems (name : String)
  | keyNotFound (key : String)
  | indexOutOfBounds (index : Int) (len : Nat)
  | eval (e : EvalError)
  deriving DecidableEq, Repr, Inhabited

namespace CollectionError

def message : CollectionError → String
  | .methodNotFound kind name => "method " ++ name ++ " not found on " ++ kind
  | .arityMismatch name expected got =>
    "number of args wrong in " ++ name ++ ", expected " ++ toString expected ++ ", got " ++
      toString got
  | .notAClosure name position =>
    toString position ++ ". argument of " ++ name ++ " needs to be a closure"
  | .closureArity name position expected =>
    toString position ++ ". argument of " ++ name ++ " needs to be a closure with " ++
      toString expected ++ " arguments"
  | .notABool name => "closure in " ++ name ++ " does not return a bool"
  | .invalidType name expected => name ++ " requires " ++ expected ++ " as argument"
  | .noItems name => "error in " ++ name ++ ", no items in list"
  | .keyNotFound key => "key " ++ key ++ " not found in map"
  | .indexOutOfBounds index len =>
    "index " ++ toString index ++ " out of bounds, list has " ++ toString len ++ " items"
  | .eval e => e.message

/-- The fault as raised by an operator: faults of closures pass through unchanged. -/
def toEval : CollectionError → EvalError
  | .eval e => e
  | e => .custom e.message

/-- The fault as raised by the method `name`: faults of closures pass through unchanged. -/
def toMethod (name : String) : CollectionError → EvalError
  | .eval e => e
  | e => .method name e.message

end CollectionError

end Formula
