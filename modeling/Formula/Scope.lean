import Formula.Assoc

/-!
Lexical scopes. A scope is a chain of frames, innermost first; binding a name puts a new frame
in front and leaves the chain behind it alone, so whoever holds an older scope keeps seeing
what was there. A recursive frame holds no value but the recipe `R` of one, to be carried out
in the chain that begins with this very frame.
-/
namespace Formula

inductive Frame (V R : Type) where
  | value (name : String) (v : V)
  | vars (entries : List (String × V))
  | recursive (name : String) (recipe : R)

abbrev Scope (V R : Type) := List (Frame V R)

/-- What a name stands for: a value, or a recipe with the chain to carry it out in. -/
inductive Binding (V R : Type) where
  | value (v : V)
  | recursive (recipe : R) (here : Scope V R)

namespace Scope

variable {V R : Type}

def empty : Scope V R := []

def bind (s : Scope V R) (name : String) (v : V) : Scope V R := .value name v :: s

/-- All pairs in one frame, the last one of a repeated name; no frame for no pairs. -/
def bindAll (s : Scope V R) (vars : List (String × V)) : Scope V R :=
  if vars.isEmpty then s else .vars (Assoc.ofList vars) :: s

def bindRecursive (s : Scope V R) (name : String) (recipe : R) : Scope V R :=
  .recursive name recipe :: s

/-- Binds parameters to arguments from left to right, as far as both reach. -/
def bindParams (s : Scope V R) (params : List String) (args : List V) : Scope V R :=
  (params.zip args).foldl (fun s p => s.bind p.1 p.2) s

/-- The innermost binding of a name. -/
def find? : Scope V R → String → Option (Binding V R)
  | [], _ => none
  | .value n v :: outer, name => if n = name then some (.value v) else find? outer name
  | .vars entries :: outer, name =>
    match Assoc.get? entries name with
    | some v => some (.value v)
    | none => find? outer name
  | .recursive n recipe :: outer, name =>
    if n = name then some (.recursive recipe (.recursive n recipe :: outer)) else find? outer name

def contains : Scope V R → String → Bool
  | [], _ => false
  | .value n _ :: outer, name => n == name || contains outer name
  | .vars entries :: outer, name => Assoc.contains entries name || contains outer name
  | .recursive n _ :: outer, name => n == name || contains outer name

/-- Number of frames. -/
def depth (s : Scope V R) : Nat := s.length

@[simp] theorem find?_empty (name : String) : find? (empty : Scope V R) name = none := rfl

@[simp] theorem find?_bind_self (s : Scope V R) (name : String) (v : V) :
    (s.bind name v).find? name = some (.value v) := by
  simp [bind, find?]

theorem find?_bind_other (s : Scope V R) {name other : String} (h : name ≠ other) (v : V) :
    (s.bind name v).find? other = s.find? other := by
  simp [bind, find?, h]

@[simp] theorem find?_bindRecursive_self (s : Scope V R) (name : String) (recipe : R) :
    (s.bindRecursive name recipe).find? name =
      some (.recursive recipe (s.bindRecursive name recipe)) := by
  simp [bindRecursive, find?]

end Scope

end Formula
