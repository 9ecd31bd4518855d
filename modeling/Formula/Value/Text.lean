import Formula.Decimal.Text
import Formula.Sequence
import Formula.Text.Quoted

/-!
Values as text. The plain text of a value writes strings bare and runs the lists that it
reaches; a list that fails is written as its fault. The inspected text differs at the top of
the value only: a string is quoted and a whole float keeps one fraction digit.
-/
namespace Formula

variable {H W : Type}

def bracketed (items : List String) : String := "[" ++ ", ".intercalate items ++ "]"

def braced (entries : List String) : String := "\x7b" ++ ", ".intercalate entries ++ "\x7d"

namespace Value

/-- Plain text of a value nested at most so deep. -/
def textAt (m : Machine H W) : Nat → Value H → Run H W Empty String
  | _, .int n => pure (toString n.toInt)
  | _, .float x => pure (Decimal.Layout.plain.text x)
  | _, .bool b => pure (if b then "true" else "false")
  | _, .str s => pure s
  | _, .closure f => pure ("<function/" ++ f.arity.text ++ ">")
  | 0, .list _ => Run.exhausted
  | 0, .map _ _ => Run.exhausted
  | depth + 1, .list ref => do
    match ← (Sequence.items m ref).attempt with
    | .ok items => return bracketed (← items.mapM (textAt m depth))
    | .error e => return "[<" ++ e.message ++ ">]"
  | depth + 1, .map _ d => do
    return braced (← d.entries.mapM fun (key, v) => return key ++ ":" ++ (← textAt m depth v))

def text (m : Machine H W) (v : Value H) : Run H W Empty String := textAt m m.budget v

def inspect (m : Machine H W) : Value H → Run H W Empty String
  | .str s => pure (Text.quoted s)
  | .float x =>
    pure (if Double.integral x then Decimal.wholeText x else Decimal.Layout.plain.text x)
  | v => text m v

end Value

/-- Inspected text of a function; a slot shows only that it is there. -/
def Function.inspect (f : Function H) : String :=
  let args := match f.arity with
    | .fixed n => "Fixed(" ++ toString n ++ ")"
    | .variadic => "Variadic"
  "Function \x7b name: " ++ Text.quoted f.name ++ ", args: " ++ args ++ ", is_pure: " ++
    toString f.isPure ++ ", jit: " ++ (if f.slot.isSome then "Some(ID)" else "None") ++ " \x7d"

namespace Sequence

/-- Plain text of a list, or the fault of running it. -/
def text (m : Machine H W) (ref : ListRef) : Run H W CollectionError String := do
  return bracketed (← (← items m ref).mapM fun v => (Value.text m v).lift)

/-- Inspected text of a list, which is not run. -/
def inspect (m : Machine H W) (ref : ListRef) : Run H W Empty String := do
  match (← Store.cell ref).items with
  | some items => return bracketed (← items.mapM (Value.inspect m))
  | none => return "[<lazy>]"

end Sequence

/-- Inspected text of the entries of a map. -/
def inspectEntries (m : Machine H W) (entries : List (String × Value H)) :
    Run H W Empty String := do
  return braced (← entries.mapM fun (key, v) =>
    return Text.quoted key ++ ": " ++ (← Value.inspect m v))

namespace Scope

variable {R : Type}

def inspectFrame (m : Machine H W) : Frame (Value H) R → Run H W Empty String
  | .value name v => return name ++ "=" ++ (← Value.inspect m v)
  | .vars entries => inspectEntries m entries
  | .recursive name _ => return name ++ "=<recursive>"

/-- Inspected text of a scope, innermost frame first. -/
def inspect (m : Machine H W) (s : Scope (Value H) R) : Run H W Empty String := do
  return bracketed (← s.mapM (inspectFrame m))

end Scope

end Formula
