import Formula.Native.Toolchain

/-!
Slots: what is remembered about the escalation of one closure literal, shared by every closure
made from it. A slot goes from not requested to queued, to compiling, to ready or failed; its
state and its installed code are two separate things.
-/
namespace Formula
namespace Native

inductive SlotState where
  | notRequested
  | queued
  | compiling
  | ready
  | failed (e : NativeError)
  deriving DecidableEq, Repr, Inhabited

def SlotState.isFailed : SlotState → Bool
  | .failed _ => true
  | _ => false

/-- A worker of the store. -/
structure WorkerRef where
  number : Nat
  deriving DecidableEq, Repr, Inhabited

/-- Queues a slot at a worker once it was called often enough. -/
structure Trigger where
  worker : WorkerRef
  threshold : Nat
  deriving DecidableEq, Repr, Inhabited

structure Slot (V : Type) where
  request : Request V
  trigger : Option Trigger
  calls : Nat := 0
  state : SlotState := .notRequested
  entry : Option Entry := none

namespace Slot

variable {V : Type}

def isReady (s : Slot V) : Bool := s.entry.isSome

/-- Runs the native code, if there is any and all arguments can be marshalled. -/
def callNative (s : Slot V) (args : List V) : Option V := do
  let entry ← s.entry
  let natives ← args.mapM s.request.marshal.toNative
  some (s.request.marshal.fromNative (entry natives))

/-- Moves a slot that was not requested yet into the queue; `none` if it is past that. -/
def markQueued? (s : Slot V) : Option (Slot V) :=
  if s.state = .notRequested then some { s with state := .queued } else none

/-- Starts an escalation; a slot with code is left alone. -/
def start (s : Slot V) : Slot V := if s.isReady then s else { s with state := .compiling }

/-- What an escalation came to, unless it was cancelled meanwhile. -/
def settle (outcome : Except NativeError Entry) (cancelled : Bool) : Except NativeError Entry :=
  match outcome with
  | .ok entry => if cancelled then .error .cancelled else .ok entry
  | .error e => .error e

/-- Ends an escalation. Code that is already installed stays. -/
def finish (s : Slot V) (outcome : Except NativeError Entry) : Slot V :=
  match outcome with
  | .ok entry => { s with state := .ready, entry := some (s.entry.getD entry) }
  | .error e => { s with state := .failed e }

/-- Drops a request that a stopped worker will never serve. -/
def drop (s : Slot V) : Slot V := { s with state := .failed .cancelled }

/-- Takes a request back, because the queue did not accept it. -/
def reset (s : Slot V) : Slot V := { s with state := .notRequested }

@[simp] theorem isReady_drop (s : Slot V) : s.drop.isReady = s.isReady := rfl
@[simp] theorem isReady_reset (s : Slot V) : s.reset.isReady = s.isReady := rfl

@[simp] theorem isReady_start (s : Slot V) : s.start.isReady = s.isReady := by
  unfold start
  split <;> rfl

@[simp] theorem isReady_finish_ok (s : Slot V) (entry : Entry) :
    (s.finish (.ok entry)).isReady = true := rfl

@[simp] theorem isReady_finish_error (s : Slot V) (e : NativeError) :
    (s.finish (.error e)).isReady = s.isReady := rfl

theorem callNative_of_not_ready {s : Slot V} (h : s.isReady = false) (args : List V) :
    s.callNative args = none := by
  have he : s.entry = none := by simpa [isReady] using h
  simp [callNative, he]

end Slot

end Native

end Formula
