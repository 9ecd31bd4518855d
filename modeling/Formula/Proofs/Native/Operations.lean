import Formula.Proofs.Native.Histories
import Mathlib.Data.List.Induction

/-!
Whole operations on slots, one after the other. As it runs, a worker goes on by itself at the end
of each operation. Here a request that was queued stays in the queue until its worker takes it, so
that anything else can happen to the slot in between; what runs is one of the histories made of
these smaller actions. A submission lets the worker go on at once, which with an open gate is one
`take` after the other.
-/
namespace Formula

variable {H W ε α β : Type}

/-- The store that a computation leaves, whether it succeeds or fails. -/
def Run.after (x : Run H W ε α) (s : Store H W) : Store H W :=
  match x s with
  | .ok _ t | .error _ t => t

theorem Run.after_of_ok {x : Run H W ε α} {s t : Store H W} {a : α} (h : x s = .ok a t) :
    x.after s = t := by
  rw [after, h]

theorem Run.after_of_error {x : Run H W ε α} {s t : Store H W} {e : Stop ε} (h : x s = .error e t) :
    x.after s = t := by
  rw [after, h]

theorem Run.after_bind {x : Run H W ε α} {s t : Store H W} {a : α} (h : x s = .ok a t)
    (f : α → Run H W ε β) : (x >>= f).after s = (f a).after t := by
  rw [after, bind_apply_ok h]
  rfl

/-- Faults that are caught leave the store that they left anyway. -/
theorem Run.Keeps.after_attempt {δ : Type} {P : Store H W → Prop} {x : Run H W ε α}
    (h : Run.Keeps P x) {s : Store H W} (hs : P s) (f : Except ε α → Run H W δ β) :
    ∃ r, (x.attempt >>= f).after s = (f r).after (x.after s) := by
  obtain ⟨a, t, ht, -⟩ | ⟨e, t, ht, -⟩ := h s hs
  · refine ⟨.ok a, ?_⟩
    rw [after_bind (attempt_ok ht), after_of_ok ht]
  · refine ⟨.error e, ?_⟩
    rw [after_bind (attempt_fault ht), after_of_error ht]

namespace Native

variable {V : Type}

theorem slot?_apply (ref : SlotRef) (s : Store H W) :
    (Store.slot? ref : Run H W ε (Option (Slot (Value H)))) s = .ok s.slots[ref.number]? s := rfl

theorem worker?_apply (ref : WorkerRef) (s : Store H W) :
    (worker? ref : Run H W ε (Option (Worker (Value H)))) s = .ok s.workers[ref.number]? s := rfl

section After

variable (s : Store H W)

@[simp] theorem after_pure (a : α) : (pure a : Run H W ε α).after s = s := rfl

@[simp] theorem after_fault (e : ε) : (Run.fault e : Run H W ε α).after s = s := rfl

theorem after_discard (x : Run H W ε α) : (do let _ ← x : Run H W ε Unit).after s = x.after s := by
  unfold Run.after
  cases hx : x s with
  | ok a t => rw [Run.bind_apply_ok hx]; rfl
  | error e t => rw [Run.bind_apply_error hx]

@[simp] theorem after_worker? (ref : WorkerRef) (f : Option (Worker (Value H)) → Run H W ε β) :
    (worker? ref >>= f).after s = (f s.workers[ref.number]?).after s := rfl

@[simp] theorem after_slot? (ref : SlotRef) (f : Option (Slot (Value H)) → Run H W ε β) :
    (Store.slot? ref >>= f).after s = (f s.slots[ref.number]?).after s := rfl

@[simp] theorem after_modifySlot (ref : SlotRef) (g : Slot (Value H) → Slot (Value H))
    (f : Unit → Run H W ε β) :
    (Store.modifySlot ref g >>= f).after s =
      (f ()).after { s with slots := s.slots.modify ref.number g } := rfl

@[simp] theorem after_modifyWorker (ref : WorkerRef) (g : Worker (Value H) → Worker (Value H))
    (f : Unit → Run H W ε β) :
    (modifyWorker ref g >>= f).after s =
      (f ()).after { s with workers := s.workers.modify ref.number g } := rfl

end After

theorem Slot.markQueued?_eq_some {a b : Slot V} (h : a.markQueued? = some b) :
    a.state = .notRequested ∧ b = { a with state := .queued } := by
  unfold markQueued? at h
  by_cases hn : a.state = .notRequested
  · rw [if_pos hn] at h
    cases h
    exact ⟨hn, rfl⟩
  · rw [if_neg hn] at h
    cases h

/-- A submission by itself, before the worker gets to do anything. The result says whether the
request went into the queue. -/
def enqueue (ref : WorkerRef) (target : SlotRef) : Run H W NativeError Bool := do
  match ← worker? ref with
  | none => Run.fault .workerStopped
  | some worker =>
    if worker.cancelled then Run.fault .workerStopped
    else
      match (← Store.slot? target).bind Slot.markQueued? with
      | none => pure false
      | some queued =>
        if worker.queue.length < worker.capacity then
          Store.modifySlot target fun _ => queued
          modifyWorker ref fun w => { w with queue := w.queue ++ [target] }
          pure true
        else
          Store.modifySlot target (·.reset)
          Run.fault .queueFull

/-- Counts an interpreted call, with a way to submit the slot. -/
def countCall (submit : WorkerRef → SlotRef → Run H W NativeError Unit) (target : SlotRef) :
    Run H W ε Unit := do
  match (← Store.slot? target).bind fun slot => slot.trigger.map fun t => (slot.calls + 1, t) with
  | none => pure ()
  | some (calls, trigger) =>
    Store.modifySlot target fun s => { s with calls }
    if calls = trigger.threshold then
      match ← (submit trigger.worker target).attempt with
      | .error .queueFull => Store.modifySlot target fun s => { s with calls := 0 }
      | _ => pure ()

/-- Attempts a request, given what to do if there is no such slot and how to conclude. -/
def attempting (target : SlotRef) (escalator : Escalator (Value H))
    (missing concluding : Run H W ε Unit) : Run H W ε Unit := do
  match ← Store.slot? target with
  | none => missing
  | some slot =>
    if slot.isReady then pure ()
    else
      Store.modifySlot target (·.start)
      let _ ← enterGate escalator
      concluding

/-- Attempts a request to the end, however long its escalator waits. -/
def serveFully (worker : Worker (Value H)) (target : SlotRef) : Run H W ε Unit :=
  attempting target worker.escalator (pure ()) do
    let _ ← (conclude target worker.escalator worker.cancelled).attempt

theorem escalate_eq (target : SlotRef) (escalator : Escalator (Value H)) :
    (escalate target escalator : Run H W NativeError Unit) =
      (Store.modifySlot target fun s => s.markQueued?.getD s) >>= fun _ =>
        attempting target escalator (Run.fault .notEscalatable) (conclude target escalator false) :=
  rfl

/-- The worker takes the next request from its queue, if it is free to, and serves it. -/
def take (ref : WorkerRef) : Run H W ε Unit := do
  match ← worker? ref with
  | none => pure ()
  | some worker =>
    match worker.cancelled, worker.busy, worker.queue with
    | false, none, target :: rest =>
      modifyWorker ref fun w => { w with queue := rest }
      serveFully worker target
    | _, _, _ => pure ()

inductive Action (H : Type) where
  | hire (escalator : Escalator (Value H)) (capacity : Nat)
  | request (worker : WorkerRef) (target : SlotRef)
  | call (target : SlotRef)
  | take (worker : WorkerRef)
  | cancel (worker : WorkerRef)
  | escalate (target : SlotRef) (escalator : Escalator (Value H))

namespace Action

def run : Action H → Run H W NativeError Unit
  | .hire escalator capacity => do let _ ← newWorker escalator capacity
  | .request worker target => do let _ ← enqueue worker target
  | .call target => countCall (fun worker target => do let _ ← enqueue worker target) target
  | .take worker => Native.take worker
  | .cancel worker => Native.cancel worker
  | .escalate target escalator => Native.escalate target escalator

def after (a : Action H) (s : Store H W) : Store H W := a.run.after s

end Action

/-- The store after some actions, one after the other. -/
def afterAll (actions : List (Action H)) (s : Store H W) : Store H W :=
  actions.foldl (fun s a => a.after s) s

theorem afterAll_append (actions : List (Action H)) (action : Action H) (s : Store H W) :
    afterAll (actions ++ [action]) s = action.after (afterAll actions s) := by
  simp [afterAll, List.foldl_append]

/-- What happens at some point of a history that is one step longer. -/
theorem exists_split_concat {P : List α → α → Prop} (xs : List α) (x : α) :
    (∃ before y later, xs ++ [x] = before ++ y :: later ∧ P before y) ↔
      (∃ before y later, xs = before ++ y :: later ∧ P before y) ∨ P xs x := by
  constructor
  · rintro ⟨before, y, later, hsplit, hy⟩
    obtain rfl | ⟨later, last, rfl⟩ := later.eq_nil_or_concat
    · obtain ⟨rfl, hlast⟩ := List.append_inj' hsplit rfl
      cases hlast
      exact .inr hy
    · have hsplit' : xs ++ [x] = (before ++ y :: later) ++ [last] := by simpa using hsplit
      obtain ⟨rfl, -⟩ := List.append_inj' hsplit' rfl
      exact .inl ⟨before, y, later, rfl, hy⟩
  · rintro (⟨before, y, later, rfl, hy⟩ | hx)
    · exact ⟨before, y, later ++ [x], by simp, hy⟩
    · exact ⟨xs, x, [], rfl, hx⟩

theorem keeps_enqueue (g : Gate) (ref : WorkerRef) (target : SlotRef) :
    Run.Keeps (·.gate = g) (enqueue (W := W) (H := H) ref target) := by
  unfold enqueue
  refine Run.Keeps.read (fun _ => rfl) fun s hs => ?_
  cases s.workers[ref.number]? with
  | none => exact Run.Keeps.fault _ s hs
  | some worker =>
    cases hc : worker.cancelled with
    | true =>
      simp only [hc, if_true]
      exact Run.Keeps.fault _ s hs
    | false =>
      simp only [hc, Bool.false_eq_true, if_false]
      refine Run.Keeps.read (fun _ => rfl) (fun s hs => ?_) s hs
      cases s.slots[target.number]?.bind Slot.markQueued? with
      | none => exact .inl ⟨false, s, rfl, hs⟩
      | some queued =>
        by_cases hroom : worker.queue.length < worker.capacity
        · simp only [hroom, if_true]
          exact .inl ⟨true, _, rfl, hs⟩
        · simp only [hroom, if_false]
          exact .inr ⟨.queueFull, _, rfl, hs⟩

theorem keeps_gate_conclude (g : Gate) (ref : SlotRef) (escalator : Escalator (Value H))
    (cancelled : Bool) : Run.Keeps (·.gate = g) (conclude (W := W) ref escalator cancelled) := by
  unfold conclude
  refine Run.Keeps.read (fun _ => rfl) fun s hs => ?_
  cases s.slots[ref.number]? with
  | none => exact .inl ⟨(), s, rfl, hs⟩
  | some slot =>
    cases ho : Slot.settle (escalator.attempt slot.request cancelled) cancelled with
    | ok entry =>
      exact .inl ⟨(), { s with slots := s.slots.modify ref.number (·.finish (.ok entry)) },
        by simp only [ho]; rfl, hs⟩
    | error e =>
      exact .inr ⟨e, { s with slots := s.slots.modify ref.number (·.finish (.error e)) },
        by simp only [ho]; rfl, hs⟩

theorem submit_eq (ref : WorkerRef) (target : SlotRef) :
    (submit ref target : Run H W NativeError Unit) =
      enqueue ref target >>= fun accepted => if accepted then workAll ref else pure () := by
  funext s
  unfold submit enqueue
  simp only [bind_assoc]
  rw [Run.bind_apply_ok (worker?_apply ref s), Run.bind_apply_ok (worker?_apply ref s)]
  cases s.workers[ref.number]? with
  | none => rfl
  | some worker =>
    cases hc : worker.cancelled with
    | true => simp only [hc, if_true]; rfl
    | false =>
      simp only [hc, Bool.false_eq_true, if_false, bind_assoc]
      rw [Run.bind_apply_ok (slot?_apply target s), Run.bind_apply_ok (slot?_apply target s)]
      cases s.slots[target.number]?.bind Slot.markQueued? with
      | none => rfl
      | some queued =>
        by_cases hroom : worker.queue.length < worker.capacity
        · simp only [hroom, if_true]; rfl
        · simp only [hroom, if_false]; rfl

theorem recordCall_eq (target : SlotRef) :
    (recordCall target : Run H W ε Unit) = countCall submit target := rfl

theorem enterGate_open (escalator : Escalator (Value H)) {s : Store H W}
    (hopen : s.gate.isOpen = true) :
    ∃ t, (enterGate escalator : Run H W ε Bool) s = .ok false t ∧ t.gate.isOpen = true := by
  unfold enterGate
  by_cases hg : escalator.gated = true
  · rw [if_pos hg, hopen]
    exact ⟨_, rfl, hopen⟩
  · rw [if_neg hg]
    exact ⟨s, rfl, hopen⟩

/-- At an open gate nothing is held: the request is attempted to the end. -/
theorem serve_open (ref : WorkerRef) (worker : Worker (Value H)) (target : SlotRef) {s : Store H W}
    (hopen : s.gate.isOpen = true) :
    ∃ t, (serve ref worker target : Run H W ε Unit) s = .ok () t ∧
      (serveFully worker target : Run H W ε Unit) s = .ok () t ∧ t.gate.isOpen = true := by
  unfold serve serveFully attempting
  rw [Run.bind_apply_ok (slot?_apply target s), Run.bind_apply_ok (slot?_apply target s)]
  cases s.slots[target.number]? with
  | none => exact ⟨s, rfl, rfl, hopen⟩
  | some slot =>
    cases hr : slot.isReady with
    | true =>
      simp only [hr, if_true]
      exact ⟨s, rfl, rfl, hopen⟩
    | false =>
      simp only [hr, Bool.false_eq_true, if_false]
      let u : Store H W := { s with slots := s.slots.modify target.number (·.start) }
      have hstart : (Store.modifySlot target (·.start) : Run H W ε Unit) s = .ok () u := rfl
      obtain ⟨v, henter, hv⟩ := enterGate_open (ε := ε) worker.escalator (s := u) hopen
      have hconclude : Run.Always (·.gate = v.gate)
          ((conclude target worker.escalator worker.cancelled).attempt : Run H W ε _) :=
        (keeps_gate_conclude v.gate target worker.escalator worker.cancelled).attempt
      obtain ⟨r, t, ht, hgate⟩ := hconclude v rfl
      rw [Run.bind_apply_ok hstart, Run.bind_apply_ok hstart, Run.bind_apply_ok henter,
        Run.bind_apply_ok henter]
      exact ⟨t, Run.bind_apply_ok ht, Run.bind_apply_ok ht, hgate ▸ hv⟩

theorem work_open (ref : WorkerRef) (n : Nat) {s : Store H W} (hopen : s.gate.isOpen = true) :
    ∃ k, (work ref n : Run H W NativeError Unit) s =
      .ok () (afterAll (List.replicate k (.take ref)) s) := by
  induction n generalizing s with
  | zero => exact ⟨0, rfl⟩
  | succ n ih =>
    unfold work
    rw [Run.bind_apply_ok (worker?_apply ref s)]
    cases hw : s.workers[ref.number]? with
    | none => exact ⟨0, rfl⟩
    | some worker =>
      cases hc : worker.cancelled with
      | true =>
        simp only [hc]
        exact ⟨0, rfl⟩
      | false =>
        cases hb : worker.busy with
        | some held =>
          simp only [hc, hb]
          exact ⟨0, rfl⟩
        | none =>
          cases hq : worker.queue with
          | nil =>
            simp only [hc, hb, hq]
            exact ⟨0, rfl⟩
          | cons target rest =>
            simp only [hc, hb, hq]
            let u : Store H W := { s with
              workers := s.workers.modify ref.number fun w => { w with queue := rest } }
            have hpop : (modifyWorker ref fun w => { w with queue := rest } :
                Run H W NativeError Unit) s = .ok () u := rfl
            obtain ⟨t, hserve, hfully, ht⟩ :=
              serve_open (ε := NativeError) ref worker target (s := u) hopen
            have htake : (take ref : Run H W NativeError Unit) s = .ok () t := by
              unfold take
              rw [Run.bind_apply_ok (worker?_apply ref s), hw]
              simp only [hc, hb, hq]
              rw [Run.bind_apply_ok hpop, hfully]
            obtain ⟨k, hk⟩ := ih ht
            refine ⟨k + 1, ?_⟩
            rw [Run.bind_apply_ok hpop, Run.bind_apply_ok hserve, hk, ← Run.after_of_ok htake]
            rfl

theorem workAll_open (ref : WorkerRef) {s : Store H W} (hopen : s.gate.isOpen = true) :
    ∃ k, (workAll ref : Run H W NativeError Unit) s =
      .ok () (afterAll (List.replicate k (.take ref)) s) := by
  unfold workAll
  rw [Run.bind_apply_ok (worker?_apply ref s)]
  cases s.workers[ref.number]? with
  | none => exact ⟨0, rfl⟩
  | some worker => exact work_open ref worker.queue.length hopen

theorem submit_apply (ref : WorkerRef) (target : SlotRef) {s t : Store H W} {accepted : Bool}
    (hopen : s.gate.isOpen = true) (h : enqueue ref target s = .ok accepted t) :
    ∃ k, submit ref target s = .ok () (afterAll (List.replicate k (.take ref)) t) := by
  have hgate : t.gate.isOpen = true := by
    obtain ⟨_, u, hu, hgate⟩ | ⟨_, u, hu, -⟩ := keeps_enqueue s.gate ref target s rfl
    · rw [h] at hu
      cases hu
      rwa [hgate]
    · rw [h] at hu
      cases hu
  rw [submit_eq, Run.bind_apply_ok h]
  cases accepted with
  | true => exact workAll_open ref hgate
  | false => exact ⟨0, rfl⟩

/-- A submission is a request, and then what the worker does by itself. -/
theorem submit_open (ref : WorkerRef) (target : SlotRef) {s : Store H W}
    (hopen : s.gate.isOpen = true) :
    ∃ k, (submit ref target).after s =
      afterAll (.request ref target :: List.replicate k (.take ref)) s := by
  obtain ⟨accepted, t, ht, -⟩ | ⟨e, t, ht, -⟩ := keeps_enqueue s.gate ref target s rfl
  · obtain ⟨k, hk⟩ := submit_apply ref target hopen ht
    refine ⟨k, ?_⟩
    have hrequest : (Action.request ref target).after s = t :=
      (after_discard s _).trans (Run.after_of_ok ht)
    rw [Run.after_of_ok hk, ← hrequest]
    rfl
  · refine ⟨0, ?_⟩
    have hrequest : (Action.request ref target).after s = t :=
      (after_discard s _).trans (Run.after_of_error ht)
    have hsubmit : submit ref target s = .error (.fault e) t := by
      rw [submit_eq, Run.bind_apply_error ht]
    rw [Run.after_of_error hsubmit, ← hrequest]
    rfl

/-- A call that is counted is the call, and then what the worker does by itself. -/
theorem recordCall_open (target : SlotRef) {s : Store H W} (hopen : s.gate.isOpen = true) :
    ∃ ref k, (recordCall target : Run H W NativeError Unit).after s =
      afterAll (.call target :: List.replicate k (.take ref)) s := by
  have hafter (ref : WorkerRef) (k : Nat) :
      afterAll (.call target :: List.replicate k (.take ref)) s =
        afterAll (List.replicate k (.take ref)) ((countCall (fun worker target => do
          let _ ← enqueue worker target) target : Run H W NativeError Unit).after s) := rfl
  simp only [hafter, recordCall_eq]
  unfold countCall
  simp only [after_slot?]
  cases s.slots[target.number]?.bind fun slot => slot.trigger.map fun t => (slot.calls + 1, t) with
  | none => exact ⟨⟨0⟩, 0, rfl⟩
  | some p =>
    obtain ⟨calls, trigger⟩ := p
    simp only [after_modifySlot]
    by_cases hfull : calls = trigger.threshold
    · simp only [hfull, if_true]
      obtain ⟨u, hu, hgate⟩ : ∃ u : Store H W, u = { s with
          slots := s.slots.modify target.number fun s => { s with calls := trigger.threshold } } ∧
          u.gate.isOpen = true := ⟨_, rfl, hopen⟩
      rw [← hu]
      obtain ⟨accepted, t, ht, -⟩ | ⟨e, t, ht, -⟩ :=
        keeps_enqueue u.gate trigger.worker target u rfl
      · obtain ⟨k, hk⟩ := submit_apply trigger.worker target hgate ht
        have hrequest : (do let _ ← enqueue trigger.worker target : Run H W NativeError Unit) u =
            .ok () t := Run.bind_apply_ok ht
        refine ⟨trigger.worker, k, ?_⟩
        rw [Run.after_bind (Run.attempt_ok hk), Run.after_bind (Run.attempt_ok hrequest)]
        rfl
      · have hsubmit : submit trigger.worker target u = .error (.fault e) t := by
          rw [submit_eq, Run.bind_apply_error ht]
        have hrequest : (do let _ ← enqueue trigger.worker target : Run H W NativeError Unit) u =
            .error (.fault e) t := Run.bind_apply_error ht
        refine ⟨trigger.worker, 0, ?_⟩
        rw [Run.after_bind (Run.attempt_fault hsubmit), Run.after_bind (Run.attempt_fault hrequest)]
        rfl
    · simp only [hfull, if_false]
      exact ⟨⟨0⟩, 0, rfl⟩

variable {s : Store H W}

theorem getElem?_modifySlot {slots : Array (Slot V)} {i : SlotRef} {a : Slot V}
    (h : slots[i.number]? = some a) (target : SlotRef) (f : Slot V → Slot V) :
    (slots.modify target.number f)[i.number]? = some (if target = i then f a else a) := by
  rw [Array.getElem?_modify, h]
  by_cases ht : target = i
  · simp [ht]
  · have hn : target.number ≠ i.number := fun hn => ht (by cases target; cases i; cases hn; rfl)
    simp [ht, hn]

theorem after_conclude (ref : SlotRef) (escalator : Escalator (Value H)) (cancelled : Bool)
    {b : Slot (Value H)} (hb : s.slots[ref.number]? = some b) :
    (conclude ref escalator cancelled).after s = { s with
      slots := s.slots.modify ref.number fun slot =>
        slot.finish (Slot.settle (escalator.attempt b.request cancelled) cancelled) } := by
  unfold conclude
  rw [after_slot?, hb]
  simp only [after_modifySlot]
  cases Slot.settle (escalator.attempt b.request cancelled) cancelled <;> rfl

theorem after_attempt_conclude (ref : SlotRef) (escalator : Escalator (Value H)) (cancelled : Bool)
    (s : Store H W) :
    (do let _ ← (conclude ref escalator cancelled).attempt : Run H W ε Unit).after s =
      (conclude ref escalator cancelled).after s := by
  obtain ⟨_, h⟩ := (keeps_gate_conclude s.gate ref escalator cancelled).after_attempt rfl
    fun _ => (pure () : Run H W ε Unit)
  exact h

theorem after_enterGate (escalator : Escalator (Value H)) (x : Run H W ε β) :
    ∃ gate, (enterGate escalator >>= fun _ => x).after s = x.after { s with gate } := by
  by_cases hg : escalator.gated = true
  · refine ⟨{ s.gate with started := s.gate.started + 1 }, ?_⟩
    simp only [Run.after, Run.bind_apply_ok (show enterGate escalator s = .ok _ _ from if_pos hg)]
  · refine ⟨s.gate, ?_⟩
    simp only [Run.after, Run.bind_apply_ok (show enterGate escalator s = .ok _ _ from if_neg hg)]

/-- An attempt at a slot with code, or at none, changes nothing. -/
theorem after_attempting_of_ready (target : SlotRef) (escalator : Escalator (Value H))
    {missing : Run H W ε Unit} (concluding : Run H W ε Unit) (hmissing : missing.after s = s)
    (h : ∀ slot, s.slots[target.number]? = some slot → slot.isReady = true) :
    (attempting target escalator missing concluding).after s = s := by
  unfold attempting
  rw [after_slot?]
  cases hslot : s.slots[target.number]? with
  | none => exact hmissing
  | some slot =>
    simp only [h slot hslot, if_true]
    rfl

/-- An attempt at a slot without code starts it and finishes it. -/
theorem after_attempting_of_not_ready (target : SlotRef) (escalator : Escalator (Value H))
    (cancelled : Bool) (missing : Run H W ε Unit) {concluding : Run H W ε Unit}
    (hconcluding : ∀ t : Store H W,
      concluding.after t = (conclude target escalator cancelled).after t)
    {b : Slot (Value H)} (hb : s.slots[target.number]? = some b) (hready : b.isReady = false) :
    ∃ gate, (attempting target escalator missing concluding).after s = { s with
      gate
      slots := (s.slots.modify target.number (·.start)).modify target.number
        (·.finish (Slot.settle (escalator.attempt b.request cancelled) cancelled)) } := by
  have hstart : (s.slots.modify target.number (·.start))[target.number]? = some b.start := by
    rw [getElem?_modifySlot hb, if_pos rfl]
  have hrequest : b.start.request = b.request := by
    unfold Slot.start
    split <;> rfl
  obtain ⟨gate, hgate⟩ := after_enterGate (s := { s with
    slots := s.slots.modify target.number (·.start) }) escalator concluding
  refine ⟨gate, ?_⟩
  unfold attempting
  simp only [after_slot?, hb, hready, Bool.false_eq_true, if_false, after_modifySlot]
  rw [hgate, hconcluding, after_conclude target escalator cancelled hstart, hrequest]

/-- The slots after those in a queue were dropped. -/
def dropAll (queue : List SlotRef) (slots : Array (Slot V)) : Array (Slot V) :=
  queue.foldl (fun slots target => slots.modify target.number (·.drop)) slots

theorem after_dropAll (queue : List SlotRef) (s : Store H W) :
    (queue.forM fun target => Store.modifySlot target (·.drop) : Run H W ε Unit).after s =
      { s with slots := dropAll queue s.slots } := by
  induction queue generalizing s with
  | nil => rfl
  | cons target rest ih => exact ih { s with slots := s.slots.modify target.number (·.drop) }

/-- A worker that was cancelled accepts nothing and has nothing left to do. -/
def stopped (worker : Worker V) : Worker V :=
  { worker with cancelled := true, busy := none, queue := [] }

/-- A cancellation fails the request that the worker holds, and drops those in its queue. -/
theorem after_cancel {ref : WorkerRef} {worker : Worker (Value H)}
    (hw : s.workers[ref.number]? = some worker) :
    (cancel ref : Run H W ε Unit).after s = { s with
      slots := dropAll worker.queue (worker.busy.elim s.slots fun held =>
        s.slots.modify held.number (·.finish (.error .cancelled)))
      workers := s.workers.modify ref.number stopped } := by
  unfold cancel
  simp only [after_worker?, hw, after_modifyWorker]
  cases worker.busy with
  | none => exact after_dropAll worker.queue _
  | some held => exact after_dropAll worker.queue _

end Native

end Formula
