import Formula.Machine

/-!
Traversing lists. A traversal feeds the items of a list to a sink one after the other until
the sink has enough; it is complete if the sink never had. A list without items runs its
source, and a complete run stores what it sent, so that no later traversal runs the source
again; a run that was stopped or failed leaves the list as it was.

A derived list has the traversal of its own source inside: each of its stages wraps the sink
and keeps what it must remember beside the sink's state, so that every run starts afresh.
-/
namespace Formula

/-- Takes one item; the flag asks for more. -/
abbrev Sink (H W S : Type) := S → Value H → Run H W CollectionError (S × Bool)

/-- Traverses a list with any sink; the flag says that the traversal was complete. -/
abbrev Traversal (H W : Type) :=
  {S : Type} → ListRef → S → Sink H W S → Run H W CollectionError (S × Bool)

namespace Sequence

variable {H W S : Type}

/-- Sends the items of a list. -/
def feed (sink : Sink H W S) : List (Value H) → S → Run H W CollectionError (S × Bool)
  | [], s => pure (s, true)
  | v :: rest, s => do
    let (s, more) ← sink s v
    if more then feed sink rest s else pure (s, false)

/-- Sends `count` consecutive integers. -/
def feedRange (sink : Sink H W S) : (count : Nat) → (next : Int64) → S →
    Run H W CollectionError (S × Bool)
  | 0, _, s => pure (s, true)
  | count + 1, next, s => do
    let (s, more) ← sink s (.int next)
    if more then feedRange sink count (next + 1) s else pure (s, false)

/-- The map that stands for an entry in a list of entries. -/
def entryMap (key value : Value H) : Run H W CollectionError (Value H) :=
  Store.newMap (.ofList [("key", key), ("value", value)])

/-- Sends the entries of a map. -/
def feedEntries (sink : Sink H W S) : List (String × Value H) → S →
    Run H W CollectionError (S × Bool)
  | [], s => pure (s, true)
  | (key, value) :: rest, s => do
    let (s, more) ← sink s (← entryMap (.str key) value)
    if more then feedEntries sink rest s else pure (s, false)

/-- Passes on the items that a predicate accepts. -/
def acceptStage (m : Machine H W) (predicate : Function H) (sink : Sink H W S) : Sink H W S :=
  fun s v => do
    match ← m.apply predicate [v] with
    | .bool true => sink s v
    | .bool false => pure (s, true)
    | _ => Run.fault (.notABool "accept")

def mapStage (m : Machine H W) (f : Function H) (sink : Sink H W S) : Sink H W S :=
  fun s v => do sink s (← m.apply f [v])

/-- Remembers the item before. -/
def combineStage (m : Machine H W) (f : Function H) (sink : Sink H W S) :
    Sink H W (Option (Value H) × S) :=
  fun (last, s) v => do
    match last with
    | none => pure ((some v, s), true)
    | some previous =>
      let (s, more) ← sink s (← m.apply f [previous, v])
      pure ((some v, s), more)

/-- Remembers the result before. -/
def iirStage (m : Machine H W) (initial f : Function H) (sink : Sink H W S) :
    Sink H W (Option (Value H) × S) :=
  fun (last, s) v => do
    let next ← match last with
      | none => m.apply initial [v]
      | some previous => m.apply f [v, previous]
    let (s, more) ← sink s next
    pure ((some next, s), more)

/-- Remembers how many items are still wanted and whether the sink stopped. -/
def topStage (sink : Sink H W S) : Sink H W (Nat × Bool × S) :=
  fun (remaining, _, s) v => do
    let (s, more) ← sink s v
    if more then pure ((remaining - 1, false, s), 1 < remaining)
    else pure ((remaining, true, s), false)

/-- Remembers the index of the next item. -/
def numberStage (m : Machine H W) (f : Function H) (sink : Sink H W S) : Sink H W (Int64 × S) :=
  fun (index, s) v => do
    let (s, more) ← sink s (← m.apply f [.int index, v])
    pure ((index + 1, s), more)

/-- Runs a source into a sink. -/
def produce (m : Machine H W) (traverse : Traversal H W) (source : Source H) (s : S)
    (sink : Sink H W S) : Run H W CollectionError (S × Bool) :=
  match source with
  | .given items ending => do
    let (s, complete) ← feed sink items s
    match complete, ending with
    | true, some e => Run.fault e
    | _, _ => pure (s, complete)
  | .range bound => feedRange sink bound.toInt.toNat 0 s
  | .entries map => feedEntries sink map.entries s
  | .accept source predicate => traverse source s (acceptStage m predicate sink)
  | .map source f => traverse source s (mapStage m f sink)
  | .combine source f => do
    let ((_, s), complete) ← traverse source (none, s) (combineStage m f sink)
    pure (s, complete)
  | .iir source initial f => do
    let ((_, s), complete) ← traverse source (none, s) (iirStage m initial f sink)
    pure (s, complete)
  | .top source n =>
    if n = 0 then pure (s, true)
    else do
      let ((_, stopped, s), _) ← traverse source (n, false, s) (topStage sink)
      pure (s, !stopped)
  | .number source f => do
    let ((_, s), complete) ← traverse source (0, s) (numberStage m f sink)
    pure (s, complete)

/-- Counts what a list's source sends. -/
def metered (ref : ListRef) (sink : Sink H W S) : Sink H W S := fun s v => do
  Store.modifyCell ref fun c => { c with sent := c.sent + 1 }
  sink s v

/-- Starts the source of a list. -/
def start (m : Machine H W) (traverse : Traversal H W) (ref : ListRef) (source : Source H) (s : S)
    (sink : Sink H W S) : Run H W CollectionError (S × Bool) := do
  Store.modifyCell ref fun c => { c with runs := c.runs + 1 }
  produce m traverse source s (metered ref sink)

/-- Collects what is sent, last item first. -/
def collect : Sink H W (List (Value H)) := fun seen v => pure (v :: seen, true)

/-- Collects what is sent beside another sink. -/
def recording (sink : Sink H W S) : Sink H W (List (Value H) × S) := fun (seen, s) v => do
  let (s, more) ← sink s v
  pure ((v :: seen, s), more)

/-- Traverses a list whose chain of sources is at most so deep. -/
def traverseAt (m : Machine H W) : Nat → Traversal H W
  | 0, _, _, _, _ => Run.exhausted
  | depth + 1, _, ref, s, sink => do
    let cell ← Store.cell ref
    match cell.items with
    | some items => feed sink items s
    | none =>
      let ((seen, s), complete) ←
        start m (traverseAt m depth) ref cell.source ([], s) (recording sink)
      if complete then Store.fill ref seen.reverse
      pure (s, complete)

def traverse (m : Machine H W) : Traversal H W := traverseAt m m.budget

/-- All items of a list. The list keeps what an inner traversal may have stored meanwhile;
the result is what this run has collected. -/
def items (m : Machine H W) (ref : ListRef) : Run H W CollectionError (List (Value H)) := do
  let cell ← Store.cell ref
  match cell.items with
  | some items => pure items
  | none =>
    let (seen, _) ← start m (traverse m) ref cell.source [] collect
    let items := seen.reverse
    Store.fill ref items
    pure items

def isMaterialized (ref : ListRef) : Run H W CollectionError Bool := do
  return (← Store.cell ref).items.isSome

end Sequence

end Formula
