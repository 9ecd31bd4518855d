import Formula.Proofs.Native.Events

/-!
The operations as they run. A submission, a call and the opening of the gate let workers go on by
themselves; each is its own event, and then steps of workers.
-/
namespace Formula
namespace Native

variable {H W ε α β : Type} {s : Store H W}

/-- The operation that begins with the event. A step of a worker is none by itself. -/
def Event.op : Event → Option (Op H)
  | .call target => some (.countCall target)
  | .request worker target => some (.submit worker target)
  | .opening => some .release
  | .receive _ | .complete _ => none

/-- From this store the computation succeeds, and does what some steps of workers do. -/
def Works (x : Run H W NativeError α) (s : Store H W) : Prop :=
  ∃ a steps, (∀ e ∈ steps, (e.op : Option (Op H)) = none) ∧ x s = .ok a (afterEvents steps s)

theorem Works.pure (x : α) (s : Store H W) : Works (pure x) s := ⟨x, [], by simp, rfl⟩

theorem Works.after {x : Run H W NativeError α} (h : Works x s) :
    ∃ steps, (∀ e ∈ steps, (e.op : Option (Op H)) = none) ∧ x.after s = afterEvents steps s := by
  obtain ⟨a, steps, hsteps, ha⟩ := h
  exact ⟨steps, hsteps, Run.after_of_ok ha⟩

theorem Works.worker {ref : WorkerRef} {f : Option (Worker (Value H)) → Run H W NativeError α}
    (h : Works (f s.workers[ref.number]?) s) : Works (worker? ref >>= f) s := h

theorem Works.bind {x : Run H W NativeError α} {f : α → Run H W NativeError β}
    (hx : Works x s) (hf : ∀ a t, Works (f a) t) : Works (x >>= f) s := by
  obtain ⟨a, first, hfirst, ha⟩ := hx
  obtain ⟨b, second, hsecond, hb⟩ := hf a (afterEvents first s)
  refine ⟨b, first ++ second, ?_, ?_⟩
  · exact List.forall_mem_append.2 ⟨hfirst, hsecond⟩
  · rw [Run.bind_apply_ok ha, hb, afterEvents_append]

theorem Works.forIn {xs : List α} {b : β} {f : α → β → Run H W NativeError (ForInStep β)}
    (h : ∀ a b s, Works (f a b) s) (s : Store H W) : Works (forIn xs b f) s := by
  induction xs generalizing b s with
  | nil => exact .pure b s
  | cons a xs ih =>
    rw [List.forIn_cons]
    refine (h a b s).bind fun r t => ?_
    cases r with
    | done b => exact .pure b t
    | yield b => exact ih t

theorem works_complete (ref : WorkerRef) (s : Store H W) : Works (complete ref) s := by
  obtain ⟨t, ht⟩ : ∃ t, (complete ref : Run H W NativeError Unit) s = .ok () t := by
    unfold complete
    rw [Run.bind_apply_ok (worker?_apply ref s)]
    cases s.workers[ref.number]? with
    | none => exact ⟨s, rfl⟩
    | some w =>
      cases hb : w.busy with
      | none =>
        simp only [hb]
        exact ⟨s, rfl⟩
      | some target =>
        simp only [hb]
        obtain ⟨r, t, ht, -⟩ := (keeps_gate_conclude s.gate target w.escalator
          w.cancelled).attempt (δ := NativeError) { s with
            workers := s.workers.modify ref.number fun w => { w with busy := none } } rfl
        exact ⟨t, Run.bind_apply_ok ht⟩
  refine ⟨(), [.complete ref], by simp [Event.op], ?_⟩
  rw [ht, ← Run.after_of_ok ht]
  rfl

/-- The worker that has ended the attempt at once is as free as before. -/
theorem starting_workers {ref : WorkerRef} {w : Worker (Value H)}
    (hw : s.workers[ref.number]? = some w) (hb : w.busy = none) (target : SlotRef)
    (rest : List SlotRef) (gate : Gate) :
    (starting ref target rest gate s).workers.modify ref.number (fun w => { w with busy := none }) =
      (taking ref rest s).workers := by
  have hfree (v : Worker (Value H)) (hv : (taking ref rest s).workers[ref.number]? = some v) :
      { v with busy := none } = v := by
    rw [taking, Array.getElem?_modify, if_pos rfl, hw] at hv
    cases hv
    rw [← hb]
  calc (starting ref target rest gate s).workers.modify ref.number
        (fun w => { w with busy := none })
      = s.workers.modify ref.number fun w => { w with queue := rest, busy := none } :=
        modify_modify s.workers ref.number (fun w => { w with queue := rest, busy := some target })
          fun w => { w with busy := none }
    _ = (taking ref rest s).workers.modify ref.number fun w => { w with busy := none } :=
        (modify_modify s.workers ref.number (fun w => { w with queue := rest })
          fun w => { w with busy := none }).symm
    _ = (taking ref rest s).workers := modify_of_fixed hfree

/-- A slot without code is started, and held if the escalator has to wait at the gate. -/
theorem serve_of_not_ready (ref : WorkerRef) (w : Worker (Value H)) {target : SlotRef}
    {c : Slot (Value H)} (hslot : s.slots[target.number]? = some c) (hready : c.isReady = false) :
    (serve ref w target : Run H W ε Unit) s =
      (if w.escalator.gated && !s.gate.isOpen then
        modifyWorker ref fun w => { w with busy := some target }
      else do
        let _ ← (conclude target w.escalator w.cancelled).attempt : Run H W ε Unit)
        { s with
          gate := entered w.escalator s.gate
          slots := s.slots.modify target.number (·.start) } := by
  have hstart : (Store.modifySlot target (·.start) : Run H W ε Unit) s =
    .ok () { s with slots := s.slots.modify target.number (·.start) } := rfl
  unfold serve
  rw [Run.bind_apply_ok (slot?_apply target s), hslot]
  simp only [hready, Bool.false_eq_true, if_false]
  rw [Run.bind_apply_ok hstart, Run.bind_apply_ok (enterGate_apply _ _)]

theorem serve_of_ready (ref : WorkerRef) (w : Worker (Value H)) {target : SlotRef}
    (hready : ∀ c, s.slots[target.number]? = some c → c.isReady = true) :
    (serve ref w target : Run H W ε Unit) s = .ok () s := by
  unfold serve
  rw [Run.bind_apply_ok (slot?_apply target s)]
  cases hslot : s.slots[target.number]? with
  | none => rfl
  | some c =>
    simp only [hready c hslot, if_true]
    rfl

section Serve

variable {ref : WorkerRef} {w : Worker (Value H)} {target : SlotRef} {rest : List SlotRef}
  (hw : s.workers[ref.number]? = some w) (hc : w.cancelled = false) (hb : w.busy = none)
  (hq : w.queue = target :: rest)
include hw hc hb hq

theorem after_receive_complete {c : Slot (Value H)} (hslot : s.slots[target.number]? = some c)
    (hready : c.isReady = false) :
    afterEvents [.receive ref, .complete ref] s =
      (conclude target w.escalator w.cancelled).after { taking ref rest s with
        gate := entered w.escalator s.gate
        slots := s.slots.modify target.number (·.start) } := by
  have hreceive : (Event.receive ref).after s =
      starting ref target rest (entered w.escalator s.gate) s :=
    after_receive_of_not_ready hw hc hb hq hslot hready
  have hbusy : (starting ref target rest (entered w.escalator s.gate) s).workers[ref.number]? =
      some { w with queue := rest, busy := some target } := by
    rw [starting, Array.getElem?_modify, if_pos rfl, hw]
    rfl
  rw [afterEvents_cons, afterEvents_cons, afterEvents_nil, hreceive, Event.after, Event.run,
    complete, after_worker?, hbusy]
  refine (after_attempt_conclude target w.escalator w.cancelled _).trans ?_
  have hworkers := starting_workers hw hb target rest (entered w.escalator s.gate)
  exact congrArg (fun workers => (conclude target w.escalator w.cancelled).after { s with
    gate := entered w.escalator s.gate
    slots := s.slots.modify target.number (·.start)
    workers }) hworkers

/-- A request that the worker takes and serves. -/
theorem works_serve : Works (do
    modifyWorker ref fun w => { w with queue := rest }
    serve ref w target) s := by
  have htake : (modifyWorker ref fun w => { w with queue := rest } :
      Run H W NativeError Unit) s = .ok () (taking ref rest s) := rfl
  by_cases hready : ∀ c, s.slots[target.number]? = some c → c.isReady = true
  · refine ⟨(), [.receive ref], by simp [Event.op], ?_⟩
    rw [Run.bind_apply_ok htake, serve_of_ready (s := taking ref rest s) ref w hready,
      afterEvents_cons, afterEvents_nil, Event.after, Event.run,
      after_receive_of_ready hw hc hb hq hready]
  obtain ⟨c, hslot, hnot⟩ : ∃ c, s.slots[target.number]? = some c ∧ c.isReady = false := by
    simpa using hready
  have hserve := serve_of_not_ready (ε := NativeError) (s := taking ref rest s) ref w hslot hnot
  by_cases hheld : (w.escalator.gated && !(taking ref rest s).gate.isOpen) = true
  · -- the worker stays at the request
    have hworkers := modify_modify s.workers ref.number (fun w => { w with queue := rest })
      (fun w => { w with busy := some target })
    refine ⟨(), [.receive ref], by simp [Event.op], ?_⟩
    rw [Run.bind_apply_ok htake, hserve, if_pos hheld, afterEvents_cons, afterEvents_nil,
      Event.after, Event.run, after_receive_of_not_ready hw hc hb hq hslot hnot]
    exact congrArg (fun workers => EStateM.Result.ok () { s with
      gate := entered w.escalator s.gate
      slots := s.slots.modify target.number (·.start)
      workers }) hworkers
  · refine ⟨(), [.receive ref, .complete ref], by simp [Event.op], ?_⟩
    rw [Run.bind_apply_ok htake, hserve, if_neg hheld,
      after_receive_complete hw hc hb hq hslot hnot]
    obtain ⟨r, t, ht, -⟩ := (keeps_gate_conclude (entered w.escalator s.gate) target w.escalator
      w.cancelled).attempt (δ := NativeError) { taking ref rest s with
        gate := entered w.escalator s.gate
        slots := s.slots.modify target.number (·.start) } rfl
    have hattempt : (do let _ ← (conclude target w.escalator w.cancelled).attempt :
        Run H W NativeError Unit) _ = .ok () t := Run.bind_apply_ok ht
    rw [← after_attempt_conclude (ε := NativeError), Run.after_of_ok hattempt]
    exact hattempt

end Serve

theorem works_work (ref : WorkerRef) (n : Nat) (s : Store H W) : Works (work ref n) s := by
  induction n generalizing s with
  | zero => exact .pure () s
  | succ n ih =>
    unfold work
    apply Works.worker
    cases hw : s.workers[ref.number]? with
    | none => exact .pure () s
    | some w =>
      cases hc : w.cancelled with
      | true =>
        simp only [hc]
        exact .pure () s
      | false =>
        cases hb : w.busy with
        | some held =>
          simp only [hc, hb]
          exact .pure () s
        | none =>
          cases hq : w.queue with
          | nil =>
            simp only [hc, hb, hq]
            exact .pure () s
          | cons target rest =>
            simp only [hc, hb, hq]
            have hworks := (works_serve hw hc hb hq).bind fun _ t => ih t
            rwa [bind_assoc] at hworks

theorem works_workAll (ref : WorkerRef) (s : Store H W) : Works (workAll ref) s := by
  unfold workAll
  apply Works.worker
  cases s.workers[ref.number]? with
  | none => exact .pure () s
  | some w => exact works_work ref w.queue.length s

section Run

variable {ref : WorkerRef} {target : SlotRef}

/-- A submission that is not refused lets the worker go on. -/
theorem submit_of_ok {accepted : Bool} {t : Store H W}
    (h : enqueue ref target s = .ok accepted t) :
    ∃ steps, (∀ e ∈ steps, (e.op : Option (Op H)) = none) ∧
      submit ref target s = .ok () (afterEvents steps t) := by
  rw [submit_eq, Run.bind_apply_ok h]
  cases accepted with
  | true =>
    obtain ⟨_, steps, hsteps, hwork⟩ := works_workAll ref t
    exact ⟨steps, hsteps, hwork⟩
  | false => exact ⟨[], by simp, rfl⟩

theorem submit_of_error {e : NativeError} {t : Store H W}
    (h : enqueue ref target s = .error (.fault e) t) :
    submit ref target s = .error (.fault e) t := by
  rw [submit_eq, Run.bind_apply_error h]

theorem submit_events (ref : WorkerRef) (target : SlotRef) (s : Store H W) :
    ∃ steps, (∀ e ∈ steps, (e.op : Option (Op H)) = none) ∧
      (submit ref target).after s = afterEvents (.request ref target :: steps) s := by
  have hrequest : (Event.request ref target).after s = (enqueue ref target).after s :=
    after_discard s _
  obtain ⟨accepted, t, ht, -⟩ | ⟨e, t, ht, -⟩ := keeps_enqueue s.gate ref target s rfl
  · obtain ⟨steps, hsteps, hsubmit⟩ := submit_of_ok ht
    refine ⟨steps, hsteps, ?_⟩
    rw [Run.after_of_ok hsubmit, afterEvents_cons, hrequest, Run.after_of_ok ht]
  · refine ⟨[], by simp, ?_⟩
    rw [Run.after_of_error (submit_of_error ht), afterEvents_cons, afterEvents_nil, hrequest,
      Run.after_of_error ht]

theorem recordCall_events (target : SlotRef) (s : Store H W) :
    ∃ steps, (∀ e ∈ steps, (e.op : Option (Op H)) = none) ∧
      (recordCall target : Run H W NativeError Unit).after s =
        afterEvents (.call target :: steps) s := by
  rw [recordCall_eq]
  simp only [afterEvents_cons]
  by_cases hnone : ∀ c, s.slots[target.number]? = some c → c.trigger = none
  · refine ⟨[], by simp, ?_⟩
    rw [afterEvents_nil, Event.after_call, after_countCall_uncounted hnone,
      after_countCall_uncounted hnone]
  obtain ⟨c, hc, hsome⟩ : ∃ c, s.slots[target.number]? = some c ∧ c.trigger ≠ none := by
    simpa using hnone
  obtain ⟨trigger, ht⟩ := Option.ne_none_iff_exists'.1 hsome
  by_cases hcalls : c.calls + 1 = trigger.threshold
  · obtain ⟨accepted, u, hu, -⟩ | ⟨e, u, hu, -⟩ := keeps_enqueue
      (setCalls target (c.calls + 1) s).gate trigger.worker target _ rfl
    · obtain ⟨steps, hsteps, hsubmit⟩ := submit_of_ok hu
      refine ⟨steps, hsteps, ?_⟩
      rw [after_call_ok hc ht hcalls hu, after_countCall_ok hc ht hcalls hsubmit]
    · refine ⟨[], by simp, ?_⟩
      rw [afterEvents_nil, after_call_error hc ht hcalls hu,
        after_countCall_error hc ht hcalls (submit_of_error hu)]
  · refine ⟨[], by simp, ?_⟩
    rw [afterEvents_nil, Event.after_call, after_countCall_below hc ht hcalls,
      after_countCall_below hc ht hcalls]

theorem release_events (s : Store H W) :
    ∃ steps, (∀ e ∈ steps, (e.op : Option (Op H)) = none) ∧
      (release : Run H W NativeError Unit).after s = afterEvents (.opening :: steps) s := by
  have hopening : (modify fun s => { s with gate := { s.gate with isOpen := true } } :
      Run H W NativeError PUnit) s = .ok () (Event.opening.after s) := rfl
  have hget (t : Store H W) : (get : Run H W NativeError (Store H W)) t = .ok t t := rfl
  unfold release
  rw [Run.after_bind hopening, Run.after_bind (hget _)]
  refine Works.after (Works.bind (Works.forIn (fun number _ t => ?_) _) fun _ t => .pure () t)
  -- a worker that was held ends its attempt and goes on; any other one just goes on
  apply Works.worker
  cases hw : t.workers[number]? with
  | none => exact .pure _ t
  | some w =>
    obtain ⟨a, steps, hsteps, hcomplete⟩ := works_complete ⟨number⟩ t
    rw [complete, Run.bind_apply_ok (worker?_apply ⟨number⟩ t), hw] at hcomplete
    exact Works.bind ⟨a, steps, hsteps, hcomplete⟩ fun _ t =>
      (works_workAll ⟨number⟩ t).bind fun _ t => .pure _ t

end Run

theorem Op.after_eq (o : Op H) (s : Store H W) : o.after s = o.run.after s := by
  unfold Op.after Run.after
  cases o.run s <;> rfl

/-- What runs is the event and then steps of workers. -/
theorem Op.exists_steps {e : Event} {o : Op H} (he : e.op = some o) (s : Store H W) :
    ∃ steps, (∀ e ∈ steps, (e.op : Option (Op H)) = none) ∧
      o.after s = afterEvents (e :: steps) s := by
  rw [Op.after_eq]
  cases e with
  | call target =>
    cases he
    exact recordCall_events target s
  | request ref target =>
    cases he
    exact submit_events ref target s
  | opening =>
    cases he
    exact release_events s
  | receive ref => cases he
  | complete ref => cases he

end Native

end Formula
