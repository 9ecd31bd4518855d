import Formula.Sequence

/-!
Equality and order of values. An integer and a float compare by their doubles, two integers
exactly. A list is equal to itself without being run, and to another list if both can be run
and their items agree; a list that fails equals no other. Maps agree if they have the same keys
with equal values, in whatever order. Functions are told apart by identity.
-/
namespace Formula

variable {H W : Type}

namespace Value

/-- The double of a number. -/
def float? : Value H → Option Float
  | .int n => some (Double.ofInt64 n)
  | .float x => some x
  | _ => none

/-- All corresponding pairs agree, checked from the left up to the first that does not. -/
def allEqual {ε : Type} (equal : Value H → Value H → Run H W ε Bool) :
    List (Value H) → List (Value H) → Run H W ε Bool
  | [], [] => pure true
  | x :: xs, y :: ys => do
    if ← equal x y then allEqual equal xs ys else pure false
  | _, _ => pure false

/-- Every entry has an equal one in the other dictionary. -/
def allFound {ε : Type} (equal : Value H → Value H → Run H W ε Bool) (other : Dict (Value H)) :
    List (String × Value H) → Run H W ε Bool
  | [] => pure true
  | (key, v) :: rest => do
    match other.get? key with
    | none => pure false
    | some w => if ← equal w v then allFound equal other rest else pure false

/-- The items of two lists agree, or the fault of running them. -/
def listsEqual (m : Machine H W) (equal : Value H → Value H → Run H W Empty Bool)
    (a b : ListRef) : Run H W CollectionError Bool := do
  if a = b then return true
  let xs ← Sequence.items m a
  let ys ← Sequence.items m b
  if xs.length = ys.length then (allEqual equal xs ys).lift else return false

/-- Equality of values nested at most so deep. -/
def equalAt (m : Machine H W) : Nat → Value H → Value H → Run H W Empty Bool
  | _, .int a, .int b => pure (a == b)
  | _, .int a, .float y => pure (Double.ofInt64 a == y)
  | _, .float x, .int b => pure (x == Double.ofInt64 b)
  | _, .float x, .float y => pure (x == y)
  | _, .bool a, .bool b => pure (a == b)
  | _, .str a, .str b => pure (a == b)
  | _, .closure f, .closure g => pure (f.same g)
  | 0, .list _, .list _ => Run.exhausted
  | 0, .map _ _, .map _ _ => Run.exhausted
  | depth + 1, .list a, .list b => do
    match ← (listsEqual m (equalAt m depth) a b).attempt with
    | .ok r => pure r
    | .error _ => pure false
  | depth + 1, .map i a, .map j b =>
    if i = j then pure true
    else if a.size = b.size then allFound (equalAt m depth) b a.entries
    else pure false
  | _, _, _ => pure false

def equal (m : Machine H W) (v w : Value H) : Run H W Empty Bool := equalAt m m.budget v w

def compareFloat (x y : Float) : Option Ordering :=
  if x < y then some .lt else if x == y then some .eq else if y < x then some .gt else none

/-- The order of two numbers, two bools or two strings; no other values are ordered, nor is
anything with a NaN. -/
def compare? : Value H → Value H → Option Ordering
  | .int a, .int b => some (compare a.toInt b.toInt)
  | .int a, .float y => compareFloat (Double.ofInt64 a) y
  | .float x, .int b => compareFloat x (Double.ofInt64 b)
  | .float x, .float y => compareFloat x y
  | .bool a, .bool b => some (compare a b)
  | .str a, .str b => some (if a < b then .lt else if a = b then .eq else .gt)
  | _, _ => none

end Value

namespace Sequence

/-- Equality of two lists, or the fault of running them. -/
def equal (m : Machine H W) (a b : ListRef) : Run H W CollectionError Bool :=
  Value.listsEqual m (Value.equal m) a b

end Sequence

end Formula
