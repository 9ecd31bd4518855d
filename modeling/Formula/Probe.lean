import Formula.Engine
import Formula.Sequence.Ops
import Formula.View

/-!
A host for trying out dialects: its functions return their arguments, count, record how they
were called, fail or panic.
-/
namespace Formula

inductive Probe where
  /-- the list of the arguments -/
  | args
  /-- the last argument, `false` if there is none -/
  | last
  /-- records the arguments and returns the last one -/
  | trace
  /-- one more than at the call before -/
  | count
  | fail
  | failLine
  | failMethod
  | panicText
  | panicCount
  | panicOther
  /-- reads integers as conditions, too -/
  | truthy
  deriving DecidableEq, Repr, Inhabited

namespace Probe

/-- What is remembered: the recorded calls, latest first, the counter, and what the watched
traversal has shown so far, latest first. -/
structure Notes where
  calls : List (List View) := []
  count : Nat := 0
  seen : List View := []

abbrev ProbeRun (ε α : Type) := Run Probe Notes ε α

/-- How deep recorded arguments are followed. -/
def recordDepth : Nat := 1000000

def lastOf (vs : List (Value Probe)) : Value Probe := vs.getLastD (.bool false)

def record (vs : List (Value Probe)) : ProbeRun Empty Unit := do
  let views ← vs.mapM (Value.peek recordDepth)
  modify fun s => { s with world := { s.world with calls := views :: s.world.calls } }

def nextCount : ProbeRun EvalError (Value Probe) := do
  modify fun s => { s with world := { s.world with count := s.world.count + 1 } }
  return .int (Int64.ofNat (← get).world.count)

def run : Probe → List (Value Probe) → ProbeRun EvalError (Value Probe)
  | .args, vs => Store.newList vs
  | .last, vs => pure (lastOf vs)
  | .trace, vs => do
    (record vs).lift
    pure (lastOf vs)
  | .count, _ => nextCount
  | .fail, _ => Run.fault (.custom "always fails")
  | .failLine, _ => Run.fault ⟨.custom "lined failure", ⟨77⟩⟩
  | .failMethod, _ => Run.fault (.method "m" "host method failure")
  | .panicText, _ => Run.panic "host exploded"
  | .panicCount, vs => Run.panic ("host exploded with " ++ toString vs.length ++ " args")
  | .panicOther, _ => Run.panic "unknown panic"
  | .truthy, vs => pure (lastOf vs)

def truth : Probe → Value Probe → Option Bool
  | .truthy, .int n => some (n ≠ 0)
  | _, v => v.bool?

def host : Host Probe Notes where
  call := run
  truth := truth

/-- Rules with one name for each thing a host can do, and one operator that evaluates twice. -/
def rules : Rules Probe where
  ident
    | "answer" => some (.constant (.int 42))
    | "bad" => some (.reject "bad identifier")
    | "boom" => some (.abort "custom generator exploded")
    | _ => none
  pairs op := op == "pair"

/-- The recorded calls, first one first, which are forgotten. -/
def takeCalls {ε : Type} : ProbeRun ε (List (List View)) := fun s =>
  .ok s.world.calls.reverse { s with world := { s.world with calls := [] } }

/-- Traverses a list with a sink that notes something of each item and stops after `limit` of them.
What was noted is told even if the traversal fails. -/
def watch {ε : Type} (m : Machine Probe Notes) (ref : ListRef) (limit : Option Nat)
    (note : Value Probe → ProbeRun CollectionError View) :
    ProbeRun ε (List View × Except CollectionError Bool) := do
  modify fun s => { s with world := { s.world with seen := [] } }
  let outcome ← Run.attempt <| Sequence.traverse m ref 0 fun n v => do
    let view ← note v
    modify fun s => { s with world := { s.world with seen := view :: s.world.seen } }
    return (n + 1, limit.all (n + 1 < ·))
  return ((← get).world.seen.reverse, outcome.map (·.2))

/-- Watches the items themselves. -/
def watchItems {ε : Type} (m : Machine Probe Notes) (ref : ListRef) (limit : Nat) :
    ProbeRun ε (List View × Except CollectionError Bool) :=
  watch m ref (some limit) fun v => (v.peek recordDepth).lift

/-- Watches the size of the list from inside its own traversal. -/
def watchSizes {ε : Type} (m : Machine Probe Notes) (ref : ListRef) :
    ProbeRun ε (List View × Except CollectionError Bool) :=
  watch m ref none fun _ => return .int (Int64.ofNat (← Sequence.size m ref))

/-- Numbers of either kind travel to native code, and come back as floats. -/
def numericMarshal : Native.Marshal (Value Probe) where
  toNative := Value.float?
  fromNative := .float
  constant := Value.float?

/-- Only floats travel to native code, as arguments and as constants. -/
def floatMarshal : Native.Marshal (Value Probe) where
  toNative
    | .float x => some x
    | _ => none
  fromNative := .float
  constant
    | .float x => some x
    | _ => none

/-- Code that adds its arguments to a thousand, from left to right. -/
def sumEntry : Native.Entry := fun xs => xs.foldl (· + ·) 1000.0

/-- The escalators to try: those that do not compile, and the toolchains that do. -/
inductive EscalatorKind where
  | none
  | sum
  | fail
  | gate
  | native (t : Native.Toolchain)

def EscalatorKind.toEscalator : EscalatorKind → Escalator (Value Probe)
  | .none => { attempt := fun _ _ => .error .disabled }
  | .sum => { attempt := fun _ _ => .ok sumEntry }
  | .fail => { attempt := fun _ _ => .error (.marshal "refused") }
  | .gate =>
    { attempt := fun _ cancelled => if cancelled then .error .cancelled else .ok sumEntry
      gated := true }
  | .native t => { attempt := t.escalate }

end Probe

end Formula
