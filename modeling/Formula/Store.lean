import Formula.Error
import Formula.Native.Slot
import Formula.Value

/-!
What an evaluation can observe and change, and the computations that do so.

The store holds the lists with their caches, the escalation records with their workers, the
supply of identities and whatever the host remembers. A computation ends in a value, in a
fault, in a panic of the host, or because its budget of nested calls ran out; the store keeps
every change made before.
-/
namespace Formula

variable {H W : Type}

/-- How the items of a list come about. -/
inductive Source (H : Type) where
  /-- some items, then the end or a fault -/
  | given (items : List (Value H)) (ending : Option CollectionError)
  /-- the integers from zero up to below a bound -/
  | range (bound : Int64)
  /-- the entries of a map, each as a map of its key and value -/
  | entries (map : Dict (Value H))
  | accept (source : ListRef) (predicate : Function H)
  | map (source : ListRef) (f : Function H)
  | combine (source : ListRef) (f : Function H)
  | iir (source : ListRef) (initial f : Function H)
  | top (source : ListRef) (n : Nat)
  | number (source : ListRef) (f : Function H)

/-- A list: its source, its items once a run has reached the end, and how often the source
was started and how many items it has sent in all. -/
structure Cell (H : Type) where
  source : Source H
  items : Option (List (Value H)) := none
  runs : Nat := 0
  sent : Nat := 0

instance : Inhabited (Cell H) := ⟨{ source := .given [] none, items := some [] }⟩

/-- How a worker or a caller tries to escalate a request. A gated escalator waits for the
gate of the store to open before it answers. -/
structure Escalator (V : Type) where
  attempt : Native.Request V → (cancelled : Bool) → Except NativeError Native.Entry
  gated : Bool := false

/-- A worker with its bounded queue and the request that it holds while the gate is closed. -/
structure Worker (V : Type) where
  escalator : Escalator V
  capacity : Nat
  queue : List SlotRef := []
  busy : Option SlotRef := none
  cancelled : Bool := false

/-- The gate that gated escalators wait at. -/
structure Gate where
  isOpen : Bool := false
  started : Nat := 0

structure Store (H W : Type) where
  lists : Array (Cell H) := #[]
  slots : Array (Native.Slot (Value H)) := #[]
  workers : Array (Worker (Value H)) := #[]
  gate : Gate := {}
  identities : Nat := 0
  world : W

/-- Why a computation ended without a value. -/
inductive Stop (ε : Type) where
  | fault (e : ε)
  | panic (message : String)
  | exhausted

/-- Computations on the store with faults of a type. -/
abbrev Run (H W ε α : Type) := EStateM (Stop ε) (Store H W) α

namespace Run

variable {ε δ α : Type}

def fault (e : ε) : Run H W ε α := throw (.fault e)

def panic (message : String) : Run H W ε α := throw (.panic message)

def exhausted : Run H W ε α := throw .exhausted

/-- A value or the fault instead of it. -/
def ofExcept : Except ε α → Run H W ε α
  | .ok a => pure a
  | .error e => fault e

/-- Turns a fault into a result; a panic still ends the computation. -/
def attempt (x : Run H W ε α) : Run H W δ (Except ε α) := fun s =>
  match x s with
  | .ok a s => .ok (.ok a) s
  | .error (.fault e) s => .ok (.error e) s
  | .error (.panic p) s => .error (.panic p) s
  | .error .exhausted s => .error .exhausted s

def mapFault (f : ε → δ) (x : Run H W ε α) : Run H W δ α := fun s =>
  match x s with
  | .ok a s => .ok a s
  | .error (.fault e) s => .error (.fault (f e)) s
  | .error (.panic p) s => .error (.panic p) s
  | .error .exhausted s => .error .exhausted s

/-- A computation that cannot fault, where faults are possible. -/
def lift (x : Run H W Empty α) : Run H W ε α := x.mapFault Empty.elim

/-- Turns a panic of the host into a fault. -/
def catchPanic (f : String → ε) (x : Run H W ε α) : Run H W ε α := fun s =>
  match x s with
  | .error (.panic p) s => .error (.fault (f p)) s
  | r => r

/-- Attaches a line to a fault that has none. -/
def atLine (line : Line) (x : Run H W EvalError α) : Run H W EvalError α :=
  x.mapFault (·.atLine line)

@[simp] theorem pure_apply (a : α) (s : Store H W) : (pure a : Run H W ε α) s = .ok a s := rfl
@[simp] theorem fault_apply (e : ε) (s : Store H W) :
    (fault e : Run H W ε α) s = .error (.fault e) s := rfl
@[simp] theorem panic_apply (p : String) (s : Store H W) :
    (panic p : Run H W ε α) s = .error (.panic p) s := rfl
@[simp] theorem exhausted_apply (s : Store H W) :
    (exhausted : Run H W ε α) s = .error .exhausted s := rfl

@[simp] theorem ofExcept_ok (a : α) : (ofExcept (.ok a) : Run H W ε α) = pure a := rfl
@[simp] theorem ofExcept_error (e : ε) : (ofExcept (.error e) : Run H W ε α) = fault e := rfl

/-- A computation that goes on has a first part that ended in a value. -/
theorem bind_eq_ok {β : Type} {x : Run H W ε α} {f : α → Run H W ε β} {s t : Store H W} {b : β} :
    (x >>= f) s = .ok b t ↔ ∃ a u, x s = .ok a u ∧ f a u = .ok b t := by
  change EStateM.bind x f s = .ok b t ↔ _
  unfold EStateM.bind
  cases h : x s with
  | ok a u =>
    constructor
    · intro hb
      exact ⟨a, u, rfl, hb⟩
    · rintro ⟨_, _, he, hb⟩
      cases he
      exact hb
  | error e u => simp

theorem attempt_ok {x : Run H W ε α} {s t : Store H W} {a : α} (h : x s = .ok a t) :
    (x.attempt : Run H W δ (Except ε α)) s = .ok (.ok a) t := by
  simp [attempt, h]

theorem attempt_fault {x : Run H W ε α} {s t : Store H W} {e : ε} (h : x s = .error (.fault e) t) :
    (x.attempt : Run H W δ (Except ε α)) s = .ok (.error e) t := by
  simp [attempt, h]

theorem mapFault_ok {x : Run H W ε α} {s t : Store H W} {a : α} (f : ε → δ) :
    x.mapFault f s = .ok a t ↔ x s = .ok a t := by
  unfold mapFault
  cases h : x s with
  | ok b u => simp
  | error e u => cases e <;> simp

theorem mapFault_fault {x : Run H W ε α} {s t : Store H W} {e : ε} (f : ε → δ)
    (h : x s = .error (.fault e) t) : x.mapFault f s = .error (.fault (f e)) t := by
  simp [mapFault, h]

end Run

namespace Store

variable {ε : Type}

/-- An identity that nothing else has. -/
def freshIdentity : Run H W ε Identity := fun s =>
  .ok (.made s.identities) { s with identities := s.identities + 1 }

def cell (ref : ListRef) : Run H W ε (Cell H) := fun s =>
  .ok (s.lists[ref.number]?.getD default) s

def modifyCell (ref : ListRef) (f : Cell H → Cell H) : Run H W ε Unit :=
  modify fun s => { s with lists := s.lists.modify ref.number f }

def newCell (c : Cell H) : Run H W ε ListRef := fun s =>
  .ok ⟨s.lists.size⟩ { s with lists := s.lists.push c }

/-- A list that holds its items from the start. -/
def newList (items : List (Value H)) : Run H W ε (Value H) :=
  .list <$> newCell { source := .given items none, items := some items }

/-- A list whose items are produced when they are asked for. -/
def newLazy (source : Source H) : Run H W ε (Value H) := .list <$> newCell { source }

def newMap (entries : Dict (Value H)) : Run H W ε (Value H) := do
  return .map (← freshIdentity) entries

/-- Stores the items of a complete run, unless an earlier one did. -/
def fill (ref : ListRef) (items : List (Value H)) : Run H W ε Unit :=
  modifyCell ref fun c => { c with items := some (c.items.getD items) }

def slot? (ref : SlotRef) : Run H W ε (Option (Native.Slot (Value H))) := fun s =>
  .ok s.slots[ref.number]? s

def modifySlot (ref : SlotRef) (f : Native.Slot (Value H) → Native.Slot (Value H)) :
    Run H W ε Unit :=
  modify fun s => { s with slots := s.slots.modify ref.number f }

def newSlot (slot : Native.Slot (Value H)) : Run H W ε SlotRef := fun s =>
  .ok ⟨s.slots.size⟩ { s with slots := s.slots.push slot }

end Store

end Formula
