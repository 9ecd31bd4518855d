import Formula.Store

/-!
What the library's own operations need of the world around them: the functions of the host,
and a way to call functions. A machine calls with a budget of nested calls one smaller than
its own, which is what makes everything built on it total.
-/
namespace Formula

/-- The functions of the host: what they do when called, and how they read conditions. -/
structure Host (H W : Type) where
  call : H → List (Value H) → Run H W EvalError (Value H)
  truth : H → Value H → Option Bool

structure Machine (H W : Type) where
  host : Host H W
  /-- Bounds how deep values are followed through the store, too. -/
  budget : Nat
  call : Function H → List (Value H) → Run H W EvalError (Value H)

namespace Machine

variable {H W : Type}

/-- Calls a function from inside an operation on a list or a map. -/
def apply (m : Machine H W) (f : Function H) (args : List (Value H)) :
    Run H W CollectionError (Value H) :=
  (m.call f args).mapFault .eval

end Machine

end Formula
