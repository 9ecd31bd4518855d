import Formula.Store

/-!
Workers. A worker takes requests from its bounded queue one at a time; as nothing can be seen
of it between two steps of the host, it works as far as it can at the end of each step: until
its queue is empty or a gated escalation holds it. A cancelled worker accepts nothing and
fails everything it still had.
-/
namespace Formula
namespace Native

variable {H W ε : Type}

def worker? (ref : WorkerRef) : Run H W ε (Option (Worker (Value H))) := fun s =>
  .ok s.workers[ref.number]? s

def modifyWorker (ref : WorkerRef) (f : Worker (Value H) → Worker (Value H)) : Run H W ε Unit :=
  modify fun s => { s with workers := s.workers.modify ref.number f }

/-- Starts a worker. A queue holds at least one request. -/
def newWorker (escalator : Escalator (Value H)) (capacity : Nat) : Run H W ε WorkerRef := fun s =>
  .ok ⟨s.workers.size⟩
    { s with workers := s.workers.push { escalator, capacity := max capacity 1 } }

/-- Counts a gated escalation; the result says whether it has to wait. -/
def enterGate (escalator : Escalator (Value H)) : Run H W ε Bool := fun s =>
  if escalator.gated then
    .ok (!s.gate.isOpen) { s with gate := { s.gate with started := s.gate.started + 1 } }
  else .ok false s

/-- Attempts the request of a slot and records what it came to. -/
def conclude (ref : SlotRef) (escalator : Escalator (Value H)) (cancelled : Bool) :
    Run H W NativeError Unit := do
  match ← Store.slot? ref with
  | none => pure ()
  | some slot =>
    let outcome := Slot.settle (escalator.attempt slot.request cancelled) cancelled
    Store.modifySlot ref (·.finish outcome)
    match outcome with
    | .ok _ => pure ()
    | .error e => Run.fault e

/-- Escalates a slot on the spot; one with native code stays as it is. -/
def escalate (ref : SlotRef) (escalator : Escalator (Value H)) : Run H W NativeError Unit := do
  Store.modifySlot ref fun s => s.markQueued?.getD s
  match ← Store.slot? ref with
  | none => Run.fault .notEscalatable
  | some slot =>
    if slot.isReady then pure ()
    else
      Store.modifySlot ref (·.start)
      let _ ← enterGate escalator
      conclude ref escalator false

/-- One request of a worker, which holds it if its escalator waits at the gate. -/
def serve (ref : WorkerRef) (worker : Worker (Value H)) (target : SlotRef) : Run H W ε Unit := do
  match ← Store.slot? target with
  | none => pure ()
  | some slot =>
    if slot.isReady then pure ()
    else
      Store.modifySlot target (·.start)
      if ← enterGate worker.escalator then
        modifyWorker ref fun w => { w with busy := some target }
      else
        let _ ← (conclude target worker.escalator worker.cancelled).attempt

/-- Serves at most so many requests from the queue. -/
def work (ref : WorkerRef) : Nat → Run H W ε Unit
  | 0 => pure ()
  | n + 1 => do
    match ← worker? ref with
    | none => pure ()
    | some worker =>
      match worker.cancelled, worker.busy, worker.queue with
      | false, none, target :: rest =>
        modifyWorker ref fun w => { w with queue := rest }
        serve ref worker target
        work ref n
      | _, _, _ => pure ()

/-- Works until the queue is empty or the worker is held. -/
def workAll (ref : WorkerRef) : Run H W ε Unit := do
  match ← worker? ref with
  | none => pure ()
  | some worker => work ref worker.queue.length

/-- Queues a slot at a worker. A slot that was requested before is accepted and left alone; a
full queue takes the request back. -/
def submit (ref : WorkerRef) (target : SlotRef) : Run H W NativeError Unit := do
  match ← worker? ref with
  | none => Run.fault .workerStopped
  | some worker =>
    if worker.cancelled then Run.fault .workerStopped
    else
      match (← Store.slot? target).bind Slot.markQueued? with
      | none => pure ()
      | some queued =>
        if worker.queue.length < worker.capacity then
          Store.modifySlot target fun _ => queued
          modifyWorker ref fun w => { w with queue := w.queue ++ [target] }
          workAll ref
        else
          Store.modifySlot target (·.reset)
          Run.fault .queueFull

/-- The slot of a function. Only closure literals have one, where there is a marshal. -/
def slotOf (f : Function H) : Run H W NativeError SlotRef :=
  match f.slot with
  | some slot => pure slot
  | none => Run.fault .notEscalatable

/-- Escalates a function on the spot. -/
def escalateFunction (f : Function H) (escalator : Escalator (Value H)) :
    Run H W NativeError Unit := do
  escalate (← slotOf f) escalator

/-- Queues a function at a worker. -/
def request (ref : WorkerRef) (f : Function H) : Run H W NativeError Unit := do
  submit ref (← slotOf f)

/-- Counts an interpreted call and queues the slot when the count reaches the threshold. A
full queue starts the count again. -/
def recordCall (target : SlotRef) : Run H W ε Unit := do
  match (← Store.slot? target).bind fun slot => slot.trigger.map fun t => (slot.calls + 1, t) with
  | none => pure ()
  | some (calls, trigger) =>
    Store.modifySlot target fun s => { s with calls }
    if calls = trigger.threshold then
      match ← (submit trigger.worker target).attempt with
      | .error .queueFull => Store.modifySlot target fun s => { s with calls := 0 }
      | _ => pure ()

/-- Stops a worker: the request it holds and those in its queue fail. -/
def cancel (ref : WorkerRef) : Run H W ε Unit := do
  match ← worker? ref with
  | none => pure ()
  | some worker =>
    modifyWorker ref fun w => { w with cancelled := true, busy := none, queue := [] }
    worker.busy.forM fun target => Store.modifySlot target (·.finish (.error .cancelled))
    worker.queue.forM fun target => Store.modifySlot target (·.drop)

/-- Opens the gate for good and lets the workers that were held go on. -/
def release : Run H W ε Unit := do
  modify fun s => { s with gate := { s.gate with isOpen := true } }
  for number in List.range (← get).workers.size do
    let ref : WorkerRef := ⟨number⟩
    match ← worker? ref with
    | none => pure ()
    | some worker =>
      worker.busy.forM fun target => do
        modifyWorker ref fun w => { w with busy := none }
        let _ ← (conclude target worker.escalator worker.cancelled).attempt
      workAll ref

end Native

end Formula
