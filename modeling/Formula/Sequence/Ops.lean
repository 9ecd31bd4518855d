import Formula.Sequence.Sort
import Formula.Value.Compare
import Formula.Value.Text

/-!
The operations on lists. Those that give a list per item, or fewer items, make a lazy list and
do no work; the others run the list, some of them only as far as they need.
-/
namespace Formula
namespace Sequence

variable {H W : Type}

def size (m : Machine H W) (ref : ListRef) : Run H W CollectionError Nat := do
  return (← items m ref).length

def get (m : Machine H W) (ref : ListRef) (index : Int64) : Run H W CollectionError (Value H) := do
  let items ← items m ref
  let found := if index < 0 then none else items[index.toInt.toNat]?
  match found with
  | some v => pure v
  | none => Run.fault (.indexOutOfBounds index.toInt items.length)

/-- The first item; nothing behind it is produced. -/
def first (m : Machine H W) (ref : ListRef) : Run H W CollectionError (Value H) := do
  let (found, _) ← traverse m ref none fun _ v => pure (some v, false)
  match found with
  | some v => pure v
  | none => Run.fault (.noItems "first")

/-- Folds from the left, beginning with the first item. -/
def reduce (m : Machine H W) (ref : ListRef) (f : Function H) :
    Run H W CollectionError (Value H) := do
  let (result, _) ← traverse m ref none fun (acc : Option (Value H)) v => do
    match acc with
    | none => pure (some v, true)
    | some acc => return (some (← m.apply f [acc, v]), true)
  match result with
  | some v => pure v
  | none => Run.fault (.noItems "reduce")

/-- Threads a visitor through all items. -/
def visit (m : Machine H W) (ref : ListRef) (visitor : Value H) (f : Function H) :
    Run H W CollectionError (Value H) := do
  let (visitor, _) ← traverse m ref visitor fun current v =>
    return (← m.apply f [current, v], true)
  pure visitor

/-- Index of the first item that is equal to a value, or -1. -/
def indexOf (m : Machine H W) (ref : ListRef) (wanted : Value H) :
    Run H W CollectionError Int64 := do
  let ((index, found), _) ← traverse m ref ((0 : Int64), false) fun (index, _) v => do
    if ← (Value.equal m v wanted).lift then pure ((index, true), false)
    else pure ((index + 1, false), true)
  pure (if found then index else -1)

/-- What the members of a group have in common. -/
inductive GroupKey where
  | int (n : Int64)
  | str (s : String)
  deriving DecidableEq, Hashable

def GroupKey.value : GroupKey → Value H
  | .int n => .int n
  | .str s => .str s

/-- Groups in the order in which their keys were first seen, and the position of each key among
them. -/
structure Groups (H : Type) where
  entries : Array (GroupKey × Array (Value H)) := #[]
  index : Std.HashMap GroupKey Nat := {}

/-- Adds a member behind those of its group, or a new group behind all others. -/
def Groups.add (g : Groups H) (key : GroupKey) (v : Value H) : Groups H :=
  match g.index[key]? with
  | some i => { g with entries := g.entries.modify i fun p => (p.1, p.2.push v) }
  | none => ⟨g.entries.push (key, #[v]), g.index.insert key g.entries.size⟩

/-- The groups of a list. -/
def groups (m : Machine H W) (ref : ListRef)
    (keyOf : Value H → Run H W CollectionError GroupKey) : Run H W CollectionError (Groups H) := do
  let (groups, _) ← traverse m ref ({} : Groups H) fun groups v =>
    return (groups.add (← keyOf v) v, true)
  pure groups

/-- The groups as a list of maps. -/
def groupList (groups : Groups H) : Run H W CollectionError (Value H) := do
  Store.newList (← groups.entries.toList.mapM fun (key, members) => do
    entryMap key.value (← Store.newList members.toList))

/-- Groups by the text of a key. -/
def groupByString (m : Machine H W) (ref : ListRef) (key : Function H) :
    Run H W CollectionError (Value H) := do
  groupList (← groups m ref fun v => return .str (← (Value.text m (← m.apply key [v])).lift))

/-- Groups by an integer; a finite float counts as the integer towards zero. -/
def groupByInt (m : Machine H W) (ref : ListRef) (key : Function H) :
    Run H W CollectionError (Value H) := do
  groupList (← groups m ref fun v => do
    let refused := Run.fault (.invalidType "groupByInt" "an int as key")
    match ← m.apply key [v] with
    | .int n => return .int n
    | .float x => if x.isFinite then return .int (Double.truncate x) else refused
    | _ => refused)

/-- Sorts by a function that says whether its first argument comes before its second. -/
def order (m : Machine H W) (ref : ListRef) (less : Function H) :
    Run H W CollectionError (Value H) := do
  Store.newList (← sort (M := Run H W CollectionError) (fun a b => do
    match ← m.apply less [a, b] with
    | .bool r => pure r
    | _ => Run.fault (.notABool "order")) (← items m ref))

def reverse (m : Machine H W) (ref : ListRef) : Run H W CollectionError (Value H) := do
  Store.newList (← items m ref).reverse

/-- A new list with one more item; the given one is unchanged. -/
def append (m : Machine H W) (ref : ListRef) (v : Value H) : Run H W CollectionError (Value H) := do
  Store.newList ((← items m ref) ++ [v])

def concat (m : Machine H W) (a b : ListRef) : Run H W CollectionError (Value H) := do
  let xs ← items m a
  let ys ← items m b
  Store.newList (xs ++ ys)

end Sequence

end Formula
