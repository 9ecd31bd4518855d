import Formula.Proofs.Native.Operations

/-!
Calls, requests and the steps of workers as single events. What the operations do at one go is taken
apart here: a call and a request end when the slot is in the queue or was refused, a worker takes
one request at a time, starts on it and ends the attempt later. Each event changes the store in one
of a few ways.
-/
namespace Formula
namespace Native

variable {H W ε V : Type}

/-- The worker takes the next request from its queue and starts on it, if it is free to. A slot with
code is left alone. -/
def receive (ref : WorkerRef) : Run H W ε Unit := do
  match ← worker? ref with
  | none => pure ()
  | some worker =>
    match worker.cancelled, worker.busy, worker.queue with
    | false, none, target :: rest =>
      modifyWorker ref fun w => { w with queue := rest }
      attempting target worker.escalator (pure ()) do
        modifyWorker ref fun w => { w with busy := some target }
    | _, _, _ => pure ()

/-- The worker ends the attempt that it is at. -/
def complete (ref : WorkerRef) : Run H W ε Unit := do
  match ← worker? ref with
  | none => pure ()
  | some worker =>
    worker.busy.forM fun target => do
      modifyWorker ref fun w => { w with busy := none }
      let _ ← (conclude target worker.escalator worker.cancelled).attempt

/-- Opens the gate for good, before the workers that were held go on. -/
def openGate : Run H W ε Unit :=
  modify fun s => { s with gate := { s.gate with isOpen := true } }

/-- A call or a request as a whole, one step of a worker, or the opening of the gate. -/
inductive Event where
  | call (target : SlotRef)
  | request (worker : WorkerRef) (target : SlotRef)
  | receive (worker : WorkerRef)
  | complete (worker : WorkerRef)
  | opening
  deriving DecidableEq, Repr

def Event.run : Event → Run H W NativeError Unit
  | .call target => (Action.call target : Action H).run
  | .request worker target => (Action.request worker target : Action H).run
  | .receive worker => Native.receive worker
  | .complete worker => Native.complete worker
  | .opening => openGate

def Event.after (e : Event) (s : Store H W) : Store H W := e.run.after s

theorem Event.after_call (target : SlotRef) (s : Store H W) :
    (Event.call target).after s = (countCall (fun worker target => do
      let _ ← enqueue worker target) target : Run H W NativeError Unit).after s := rfl

/-- The store after some events, one after the other. -/
def afterEvents (events : List Event) (s : Store H W) : Store H W :=
  events.foldl (fun s e => e.after s) s

@[simp] theorem afterEvents_nil (s : Store H W) : afterEvents [] s = s := rfl

@[simp] theorem afterEvents_cons (e : Event) (events : List Event) (s : Store H W) :
    afterEvents (e :: events) s = afterEvents events (e.after s) := rfl

theorem afterEvents_append (events later : List Event) (s : Store H W) :
    afterEvents (events ++ later) s = afterEvents later (afterEvents events s) := by
  simp [afterEvents, List.foldl_append]

theorem afterEvents_take_succ {events : List Event} {k : Nat} {e : Event}
    (he : events[k]? = some e) (s : Store H W) :
    afterEvents (events.take (k + 1)) s = e.after (afterEvents (events.take k) s) := by
  rw [List.take_add_one, he, afterEvents_append]
  rfl

/-- The store when the slot has gone into the queue of the worker. -/
def accepting (ref : WorkerRef) (target : SlotRef) (a : Slot (Value H)) (s : Store H W) :
    Store H W :=
  { s with
    slots := s.slots.modify target.number fun _ => { a with state := .queued }
    workers := s.workers.modify ref.number fun w => { w with queue := w.queue ++ [target] } }

/-- Only a slot that goes into the queue changes anything. -/
inductive Outcome (ref : WorkerRef) (target : SlotRef) (s : Store H W) :
    EStateM.Result (Stop NativeError) (Store H W) Bool → Prop where
  | accepted {w : Worker (Value H)} {a : Slot (Value H)} (hw : s.workers[ref.number]? = some w)
      (ha : s.slots[target.number]? = some a) (hstate : a.state = .notRequested)
      (hroom : w.queue.length < w.capacity) :
    Outcome ref target s (.ok true (accepting ref target a s))
  | full {w : Worker (Value H)} {a : Slot (Value H)} (hw : s.workers[ref.number]? = some w)
      (ha : s.slots[target.number]? = some a) (hstate : a.state = .notRequested)
      (hfull : w.capacity ≤ w.queue.length) :
    Outcome ref target s (.error (.fault .queueFull) s)
  | known (h : ∀ a, s.slots[target.number]? = some a → a.state ≠ .notRequested) :
    Outcome ref target s (.ok false s)
  | stopped (h : ∀ w, s.workers[ref.number]? = some w → w.cancelled = true) :
    Outcome ref target s (.error (.fault .workerStopped) s)

theorem modify_of_fixed {xs : Array V} {n : Nat} {f : V → V}
    (h : ∀ x, xs[n]? = some x → f x = x) : xs.modify n f = xs := by
  apply Array.ext_getElem?
  intro j
  rw [Array.getElem?_modify]
  by_cases hj : n = j
  · subst hj
    cases hx : xs[n]? with
    | none => rw [if_pos rfl, Option.map_none]
    | some x => rw [if_pos rfl, Option.map_some, h x hx]
  · rw [if_neg hj]

theorem enqueue_outcome (ref : WorkerRef) (target : SlotRef) (s : Store H W) :
    Outcome ref target s (enqueue ref target s) := by
  unfold enqueue
  rw [Run.bind_apply_ok (worker?_apply ref s)]
  cases hw : s.workers[ref.number]? with
  | none => exact .stopped (by simp [hw])
  | some w =>
    cases hc : w.cancelled with
    | true =>
      simp only [hc, if_true]
      exact .stopped (by simp [hw, hc])
    | false =>
      simp only [hc, Bool.false_eq_true, if_false]
      rw [Run.bind_apply_ok (slot?_apply target s)]
      cases hq : s.slots[target.number]?.bind Slot.markQueued? with
      | none =>
        apply Outcome.known
        intro a ha hstate
        rw [ha, Option.bind_some, Slot.markQueued?, if_pos hstate] at hq
        cases hq
      | some queued =>
        obtain ⟨a, ha, hmark⟩ := Option.bind_eq_some_iff.1 hq
        obtain ⟨hstate, rfl⟩ := Slot.markQueued?_eq_some hmark
        by_cases hroom : w.queue.length < w.capacity
        · simp only [hroom, if_true]
          exact .accepted hw ha hstate hroom
        · have hreset : { s with slots := s.slots.modify target.number (·.reset) } = s := by
            rw [modify_of_fixed]
            intro c hc
            cases ha.symm.trans hc
            rw [Slot.reset, ← hstate]
          simp only [hroom, if_false]
          change Outcome ref target s (.error (.fault .queueFull)
            { s with slots := s.slots.modify target.number (·.reset) })
          rw [hreset]
          exact .full hw ha hstate (Nat.le_of_not_lt hroom)

theorem modify_modify (xs : Array V) (n : Nat) (f g : V → V) :
    (xs.modify n f).modify n g = xs.modify n fun x => g (f x) := by
  apply Array.ext_getElem?
  intro j
  simp only [Array.getElem?_modify]
  by_cases hj : n = j <;> simp [hj, Function.comp_def]

variable {s : Store H W}

/-- The store when a slot has counted so many calls. -/
def setCalls (target : SlotRef) (calls : Nat) (s : Store H W) : Store H W :=
  { s with slots := s.slots.modify target.number fun c => { c with calls } }

section Call

variable {submit : WorkerRef → SlotRef → Run H W NativeError Unit} {target : SlotRef}
  {c : Slot (Value H)} {trigger : Trigger}

theorem after_countCall_uncounted
    (h : ∀ c, s.slots[target.number]? = some c → c.trigger = none) :
    (countCall submit target : Run H W ε Unit).after s = s := by
  unfold countCall
  rw [after_slot?]
  cases hc : s.slots[target.number]? with
  | none => rfl
  | some c =>
    rw [Option.bind_some, h c hc]
    rfl

variable (hc : s.slots[target.number]? = some c) (ht : c.trigger = some trigger)
include hc ht

theorem after_countCall_below (hcalls : c.calls + 1 ≠ trigger.threshold) :
    (countCall submit target : Run H W ε Unit).after s = setCalls target (c.calls + 1) s := by
  unfold countCall
  simp only [after_slot?, hc, ht, Option.bind_some, Option.map_some, after_modifySlot, hcalls,
    if_false]
  rfl

theorem after_countCall_ok (hcalls : c.calls + 1 = trigger.threshold) {u : Store H W}
    (hu : submit trigger.worker target (setCalls target (c.calls + 1) s) = .ok () u) :
    (countCall submit target : Run H W ε Unit).after s = u := by
  unfold countCall
  simp only [after_slot?, hc, ht, Option.bind_some, Option.map_some, after_modifySlot]
  rw [if_pos hcalls]
  exact Run.after_bind (Run.attempt_ok hu) _

theorem after_countCall_error (hcalls : c.calls + 1 = trigger.threshold) {e : NativeError}
    {u : Store H W}
    (hu : submit trigger.worker target (setCalls target (c.calls + 1) s) = .error (.fault e) u) :
    (countCall submit target : Run H W ε Unit).after s =
      if e = .queueFull then setCalls target 0 u else u := by
  unfold countCall
  simp only [after_slot?, hc, ht, Option.bind_some, Option.map_some, after_modifySlot]
  rw [if_pos hcalls]
  refine (Run.after_bind (Run.attempt_fault hu) _).trans ?_
  cases e <;> rfl

theorem after_call_ok (hcalls : c.calls + 1 = trigger.threshold) {accepted : Bool} {u : Store H W}
    (hu : enqueue trigger.worker target (setCalls target (c.calls + 1) s) = .ok accepted u) :
    (Event.call target).after s = u := by
  rw [Event.after_call]
  exact after_countCall_ok hc ht hcalls (Run.bind_apply_ok hu)

theorem after_call_error (hcalls : c.calls + 1 = trigger.threshold) {e : NativeError}
    {u : Store H W}
    (hu : enqueue trigger.worker target (setCalls target (c.calls + 1) s) = .error (.fault e) u) :
    (Event.call target).after s = if e = .queueFull then setCalls target 0 u else u := by
  rw [Event.after_call]
  exact after_countCall_error hc ht hcalls (Run.bind_apply_error hu)

end Call

theorem setCalls_slot {target : SlotRef} {c : Slot (Value H)}
    (hc : s.slots[target.number]? = some c) (calls : Nat) :
    (setCalls target calls s).slots[target.number]? = some { c with calls } := by
  rw [setCalls, getElem?_modifySlot hc, if_pos rfl]

/-- The store when the worker has taken the first request out of its queue. -/
def taking (ref : WorkerRef) (rest : List SlotRef) (s : Store H W) : Store H W :=
  { s with workers := s.workers.modify ref.number fun w => { w with queue := rest } }

/-- The store when the worker has also started on it. -/
def starting (ref : WorkerRef) (target : SlotRef) (rest : List SlotRef) (gate : Gate)
    (s : Store H W) : Store H W :=
  { s with
    gate
    slots := s.slots.modify target.number (·.start)
    workers := s.workers.modify ref.number fun w =>
      { w with queue := rest, busy := some target } }

/-- The gate when an escalation has come to it. -/
def entered (escalator : Escalator V) (gate : Gate) : Gate :=
  if escalator.gated then { gate with started := gate.started + 1 } else gate

theorem enterGate_apply (escalator : Escalator (Value H)) (s : Store H W) :
    (enterGate escalator : Run H W ε Bool) s =
      .ok (escalator.gated && !s.gate.isOpen) { s with gate := entered escalator s.gate } := by
  unfold enterGate entered
  cases escalator.gated <;> rfl

section Receive

variable {ref : WorkerRef} {w : Worker (Value H)} {target : SlotRef} {rest : List SlotRef}
  (hw : s.workers[ref.number]? = some w) (hc : w.cancelled = false) (hb : w.busy = none)
  (hq : w.queue = target :: rest)
include hw hc hb hq

theorem after_receive : (receive ref : Run H W ε Unit).after s =
    (attempting target w.escalator (pure ()) (modifyWorker ref fun w =>
      { w with busy := some target }) : Run H W ε Unit).after (taking ref rest s) := by
  unfold receive
  simp only [after_worker?, hw, hc, hb, hq, after_modifyWorker]
  rfl

/-- A slot with code is left alone. -/
theorem after_receive_of_ready
    (hready : ∀ c, s.slots[target.number]? = some c → c.isReady = true) :
    (receive ref : Run H W ε Unit).after s = taking ref rest s := by
  rw [after_receive hw hc hb hq]
  exact after_attempting_of_ready target w.escalator _ rfl hready

theorem after_receive_of_not_ready {c : Slot (Value H)} (hslot : s.slots[target.number]? = some c)
    (hready : c.isReady = false) : (receive ref : Run H W ε Unit).after s =
      starting ref target rest (entered w.escalator s.gate) s := by
  have hworkers := modify_modify s.workers ref.number (fun w => { w with queue := rest })
    (fun w => { w with busy := some target })
  rw [after_receive hw hc hb hq, starting, ← hworkers]
  unfold attempting
  rw [after_slot?]
  simp only [taking, hslot, hready, Bool.false_eq_true, if_false, after_modifySlot]
  rw [Run.after_bind (enterGate_apply _ _)]
  rfl

end Receive

/-- A worker that is not free, or has nothing in its queue, takes nothing. One that takes a request
starts on it, unless the slot has code. -/
theorem after_receive_cases (ref : WorkerRef) (s : Store H W) :
    (receive ref : Run H W ε Unit).after s = s ∨
    ∃ w target rest, s.workers[ref.number]? = some w ∧ w.queue = target :: rest ∧
      ((receive ref : Run H W ε Unit).after s = taking ref rest s ∨
        ∃ gate, (receive ref : Run H W ε Unit).after s = starting ref target rest gate s) := by
  cases hw : s.workers[ref.number]? with
  | none =>
    unfold receive
    rw [after_worker?, hw]
    exact .inl rfl
  | some w =>
    cases hc : w.cancelled with
    | true =>
      unfold receive
      simp only [after_worker?, hw, hc]
      exact .inl rfl
    | false =>
      cases hb : w.busy with
      | some held =>
        unfold receive
        simp only [after_worker?, hw, hc, hb]
        exact .inl rfl
      | none =>
        cases hq : w.queue with
        | nil =>
          unfold receive
          simp only [after_worker?, hw, hc, hb, hq]
          exact .inl rfl
        | cons target rest =>
          refine .inr ⟨w, target, rest, rfl, hq, ?_⟩
          by_cases hready : ∀ c, s.slots[target.number]? = some c → c.isReady = true
          · exact .inl (after_receive_of_ready hw hc hb hq hready)
          · obtain ⟨c, hslot, hnot⟩ : ∃ c, s.slots[target.number]? = some c ∧
                c.isReady = false := by simpa using hready
            exact .inr ⟨_, after_receive_of_not_ready hw hc hb hq hslot hnot⟩

theorem Slot.state_start_ne {c : Slot V} (h : c.state ≠ .notRequested) :
    c.start.state ≠ .notRequested := by
  unfold Slot.start
  split
  · exact h
  · simp

theorem Slot.trigger_start (c : Slot V) : c.start.trigger = c.trigger := by
  unfold Slot.start
  split <;> rfl

theorem Slot.state_finish_ne (c : Slot V) (outcome : Except NativeError Entry) :
    (c.finish outcome).state ≠ .notRequested := by
  cases outcome <;> simp [Slot.finish]

theorem Slot.trigger_finish (c : Slot V) (outcome : Except NativeError Entry) :
    (c.finish outcome).trigger = c.trigger := by
  cases outcome <;> rfl

/-- A worker that is at no attempt ends none. -/
theorem after_complete (ref : WorkerRef) (s : Store H W) :
    (complete ref : Run H W ε Unit).after s = s ∨
    ∃ w target outcome, s.workers[ref.number]? = some w ∧ w.busy = some target ∧
      (complete ref : Run H W ε Unit).after s = { s with
        slots := s.slots.modify target.number (·.finish outcome)
        workers := s.workers.modify ref.number fun w => { w with busy := none } } := by
  unfold complete
  rw [after_worker?]
  cases hw : s.workers[ref.number]? with
  | none => exact .inl rfl
  | some w =>
    cases hb : w.busy with
    | none =>
      simp only [hb]
      exact .inl rfl
    | some target =>
      simp only [hb]
      let u : Store H W := { s with
        workers := s.workers.modify ref.number fun w => { w with busy := none } }
      have hafter : (conclude target w.escalator w.cancelled).after u = (do
          modifyWorker ref fun w => { w with busy := none }
          let _ ← (conclude target w.escalator w.cancelled).attempt : Run H W ε Unit).after s :=
        (after_attempt_conclude target w.escalator w.cancelled u).symm
      cases hslot : s.slots[target.number]? with
      | none =>
        refine .inr ⟨w, target, .error .cancelled, rfl, hb, hafter.symm.trans ?_⟩
        rw [modify_of_fixed (by simp [hslot])]
        unfold conclude
        rw [after_slot?, hslot]
        rfl
      | some slot =>
        have hconclude := after_conclude target w.escalator w.cancelled (s := u) hslot
        exact .inr ⟨w, target, _, rfl, hb, hafter.symm.trans hconclude⟩

end Native

end Formula
