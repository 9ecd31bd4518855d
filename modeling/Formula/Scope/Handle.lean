import Formula.Scope

/-!
Handles on scopes. Equal scopes may have been made apart from each other; a handle knows which
frame is its innermost one, by the number that a frame is given when it is made.
-/
namespace Formula

/-- A scope and the number of its innermost frame; the empty scope has none. -/
structure Handle (V R : Type) where
  frame : Option Nat
  scope : Scope V R

namespace Handle

variable {V R : Type}

def root : Handle V R := ⟨none, .empty⟩

/-- A handle on a scope whose innermost frame is new. The state is the number of the next frame. -/
def new (scope : Scope V R) : StateM Nat (Handle V R) := fun next =>
  (⟨some next, scope⟩, next + 1)

def bind (h : Handle V R) (name : String) (v : V) : StateM Nat (Handle V R) :=
  new (h.scope.bind name v)

/-- No frame is made for no pairs. -/
def bindAll (h : Handle V R) (vars : List (String × V)) : StateM Nat (Handle V R) :=
  if vars.isEmpty then pure h else new (h.scope.bindAll vars)

def bindRecursive (h : Handle V R) (name : String) (recipe : R) : StateM Nat (Handle V R) :=
  new (h.scope.bindRecursive name recipe)

/-- Both are on the same frame, or on none. -/
def same (a b : Handle V R) : Bool := a.frame == b.frame

end Handle

end Formula
