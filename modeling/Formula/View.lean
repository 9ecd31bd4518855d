import Formula.Sequence

/-!
What can be seen of a value at one moment. A look at a value leaves its lists as they are and
shows those without items as lazy; forcing a value runs its lists, a list before its items.
-/
namespace Formula

variable {H W : Type}

inductive View where
  | int (n : Int64)
  | float (x : Float)
  | bool (b : Bool)
  | str (s : String)
  /-- a list with its items, which had to be run for them or not -/
  | list (items : List View) (wasLazy : Bool)
  /-- a list that was not run -/
  | lazy
  /-- a list that failed when it was run -/
  | failed (e : CollectionError)
  | map (entries : List (String × View))
  | function (signature : Signature) (state : Native.SlotState)

/-- The state of the escalation of a function; one that is no closure literal is never
escalated. -/
def Function.state {ε : Type} (f : Function H) : Run H W ε Native.SlotState := do
  match f.slot with
  | none => pure .notRequested
  | some ref => return ((← Store.slot? ref).map (·.state)).getD .notRequested

/-- Whether calls of a function go to native code. -/
def Function.isNative {ε : Type} (f : Function H) : Run H W ε Bool := do
  match f.slot with
  | none => pure false
  | some ref => return ((← Store.slot? ref).map (·.isReady)).getD false

namespace Value

/-- A value nested at most so deep, with the given way to look at a list. -/
def viewAt (look : ListRef → Run H W Empty (View ⊕ (List (Value H) × Bool))) :
    Nat → Value H → Run H W Empty View
  | _, .int n => pure (.int n)
  | _, .float x => pure (.float x)
  | _, .bool b => pure (.bool b)
  | _, .str s => pure (.str s)
  | _, .closure f => return .function f.signature (← f.state)
  | 0, .list _ => Run.exhausted
  | 0, .map _ _ => Run.exhausted
  | depth + 1, .list ref => do
    match ← look ref with
    | .inl view => pure view
    | .inr (items, wasLazy) => return .list (← items.mapM (viewAt look depth)) wasLazy
  | depth + 1, .map _ d => do
    return .map (← d.entries.mapM fun (key, v) => return (key, ← viewAt look depth v))

/-- A look at a list, which is not run. -/
def glance (ref : ListRef) : Run H W Empty (View ⊕ (List (Value H) × Bool)) := do
  match (← Store.cell ref).items with
  | some items => return .inr (items, false)
  | none => return .inl .lazy

/-- A look at a list, which is run if need be. -/
def demand (m : Machine H W) (ref : ListRef) :
    Run H W Empty (View ⊕ (List (Value H) × Bool)) := do
  let wasLazy := (← Store.cell ref).items.isNone
  match ← (Sequence.items m ref).attempt with
  | .ok items => return .inr (items, wasLazy)
  | .error e => return .inl (.failed e)

/-- What a value shows without running anything, nested at most so deep. -/
def peek (depth : Nat) (v : Value H) : Run H W Empty View := viewAt glance depth v

/-- What a value shows when its lists are run. -/
def force (m : Machine H W) (v : Value H) : Run H W Empty View := viewAt (demand m) m.budget v

end Value

end Formula
