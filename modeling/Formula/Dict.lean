import Formula.Assoc
import Std.Data.HashMap

/-!
Persistent dictionaries that keep the order of insertion. A dictionary is a plain list while
it is small, carries a hash index above sixteen entries, and takes a single change as a layer
over the unchanged dictionary below it; a chain of thirty-two layers is flattened by the next
change. Whatever its storage, a dictionary is read as an association list.
-/
namespace Formula

inductive Dict (V : Type) where
  | plain (entries : List (String × V))
  | indexed (entries : Array (String × V)) (index : Std.HashMap String Nat)
  | layer (key : String) (value : V) (below : Dict V) (size depth : Nat)

namespace Dict

variable {V : Type}

/-- Dictionaries with more entries than this carry an index. -/
def indexThreshold : Nat := 16

/-- The longest chain of layers. -/
def maxDepth : Nat := 32

instance : Inhabited (Dict V) := ⟨.plain []⟩

def empty : Dict V := .plain []

def size : Dict V → Nat
  | .plain es => es.length
  | .indexed es _ => es.size
  | .layer _ _ _ n _ => n

def depth : Dict V → Nat
  | .layer _ _ _ _ d => d
  | _ => 0

def get? : Dict V → String → Option V
  | .plain es, key => Assoc.get? es key
  | .indexed es index, key => do
    let i ← index[key]?
    let entry ← es[i]?
    some entry.2
  | .layer k v below _ _, key => if k = key then some v else below.get? key

def contains (d : Dict V) (key : String) : Bool := (d.get? key).isSome

/-- Distinct entries so far and the position of each key among them. -/
structure Builder (V : Type) where
  entries : Array (String × V) := #[]
  index : Std.HashMap String Nat := {}

def Builder.add (b : Builder V) (key : String) (value : V) : Builder V :=
  match b.index[key]? with
  | some i => { b with entries := b.entries.setIfInBounds i (key, value) }
  | none => ⟨b.entries.push (key, value), b.index.insert key b.entries.size⟩

/-- Sets one key after the other. -/
def Builder.addAll (b : Builder V) (pairs : List (String × V)) : Builder V :=
  pairs.foldl (fun b p => b.add p.1 p.2) b

def Builder.ofList (pairs : List (String × V)) : Builder V := Builder.addAll {} pairs

/-- Entries that are distinct already. -/
def Builder.ofEntries (es : Array (String × V)) : Builder V :=
  ⟨es, .ofList (es.toList.zipIdx.map fun p => (p.1.1, p.2))⟩

/-- The entries below all layers. -/
def base : Dict V → Array (String × V)
  | .plain es => es.toArray
  | .indexed es _ => es
  | .layer _ _ below _ _ => below.base

/-- What the layers set, the lowest layer first. -/
def changes : Dict V → List (String × V)
  | .layer key value below _ _ => below.changes ++ [(key, value)]
  | _ => []

/-- The entries with their positions, all layers applied. -/
def builder (d : Dict V) : Builder V := (Builder.ofEntries d.base).addAll d.changes

/-- Entries in order of insertion. Positions are only looked up if there are layers. -/
def entries (d : Dict V) : Assoc V :=
  if d.changes.isEmpty then d.base.toList else d.builder.entries.toList

/-- The dictionary of some pairs; of a repeated key the first position and the last value
remain. -/
def ofList (pairs : List (String × V)) : Dict V :=
  let b := Builder.ofList pairs
  if indexThreshold < b.entries.size then .indexed b.entries b.index else .plain b.entries.toList

/-- A dictionary with one key set, over the unchanged given one. -/
def put (d : Dict V) (key : String) (value : V) : Dict V :=
  if maxDepth ≤ d.depth then ofList (d.entries ++ [(key, value)])
  else .layer key value d (if d.contains key then d.size else d.size + 1) (d.depth + 1)

def keys (d : Dict V) : List String := d.entries.keys

@[simp] theorem entries_empty : (empty : Dict V).entries = [] := rfl
@[simp] theorem size_empty : (empty : Dict V).size = 0 := rfl

end Dict

end Formula
