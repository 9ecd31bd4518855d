import Formula.Compilation
import Formula.Evaluation
import Formula.Folding

/-!
What a host does with a dialect: folds trees, makes expressions of them, evaluates expressions
and calls functions. A panic of host code becomes a fault when an expression is made or
evaluated or a function is called from outside, but not when a tree is only folded.
-/
namespace Formula

variable {H W : Type}

/-- A tree with its code, ready to be evaluated any number of times. -/
structure Expression (H : Type) where
  tree : Tree (Value H)
  code : Code H

namespace Engine

/-- Folds the constants of a tree. -/
def optimize (m : Machine H W) (d : Dialect H) (t : Tree (Value H)) :
    Run H W FoldError (Folding.Folded H) :=
  Folding.fold m d t []

/-- The tree that code is made of: the folded one, unless the dialect does not fold. -/
def prepare (m : Machine H W) (d : Dialect H) (t : Tree (Value H)) :
    Run H W Fault (Tree (Value H)) :=
  if d.foldConstants then return (← (optimize m d t).mapFault .fold).tree else pure t

/-- Makes an expression of a tree. -/
def generate (m : Machine H W) (d : Dialect H) (t : Tree (Value H)) :
    Run H W Fault (Expression H) :=
  Run.catchPanic (fun message => .compile ⟨.panic message, .unknown⟩) do
    let tree ← prepare m d t
    let code ← (Compilation.compile m d tree []).mapFault .compile
    return { tree, code }

/-- Turns a panic of host code into a fault of the evaluation. -/
def guarded {α : Type} (x : Run H W EvalError α) : Run H W Fault α :=
  Run.catchPanic (fun message => .eval ⟨.panic message, .unknown⟩) (x.mapFault .eval)

/-- Evaluates an expression. -/
def eval (m : Machine H W) (e : Expression H) (env : Env H) : Run H W Fault (Value H) :=
  guarded (Evaluation.exec m e.code env)

/-- Evaluates an expression with some variables. -/
def evalWith (m : Machine H W) (e : Expression H) (vars : List (String × Value H)) :
    Run H W Fault (Value H) :=
  eval m e (Scope.bindAll .empty vars)

/-- Calls a function from outside. -/
def call (m : Machine H W) (f : Function H) (args : List (Value H)) : Run H W Fault (Value H) :=
  guarded (m.call f args)

end Engine

/-- Inspected text of an expression. -/
def Expression.inspect (m : Machine H W) (e : Expression H) : Run H W Empty String := do
  return "Expression \x7b ast: " ++ (← e.tree.text m) ++ " \x7d"

end Formula
