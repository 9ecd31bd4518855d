import Formula.Proofs.Native.Interleaving

/-!
One operation after the other is one of the ways to take turns: every history of requests to a
worker, of what it does and of cancellations is a schedule in which nobody is interrupted. No slot
is sent too late in such a schedule, so nothing is lost.
-/
namespace Formula
namespace Native

variable {H W V : Type} {ref : WorkerRef} {store : Store H W} {s : System (Value H)}

/-- The system is at rest, with the slots of the store and one of its workers. -/
structure Shows (ref : WorkerRef) (store : Store H W) (s : System (Value H)) : Prop where
  slots : s.slots = store.slots
  worker : store.workers[ref.number]? = some s.worker
  free : s.worker.busy = none
  returned : ∀ c ∈ s.calls, c.isReturned = true
  waiting : s.worker.cancelled = false → s.stage = .waiting
  ended : s.worker.cancelled = true → s.stage = .ended ∧ s.worker.queue = []

namespace System

/-- Some schedule leads from the one to the other. -/
def Reaches (s t : System V) : Prop := ∃ turns, s.run turns = some t

theorem Reaches.refl (s : System V) : s.Reaches s := ⟨[], rfl⟩

theorem Reaches.step {s u t : System V} (ht : u.Reaches t) {turn : Turn}
    (h : s.step turn = some u) : s.Reaches t := by
  obtain ⟨turns, ht⟩ := ht
  exact ⟨turn :: turns, Option.bind_eq_some_iff.2 ⟨u, h, ht⟩⟩

theorem Reaches.trans {s u t : System V} (hu : s.Reaches u) (ht : u.Reaches t) : s.Reaches t := by
  obtain ⟨before, hu⟩ := hu
  obtain ⟨later, ht⟩ := ht
  refine ⟨before ++ later, ?_⟩
  rw [run, List.foldlM_append]
  exact Option.bind_eq_some_iff.2 ⟨u, hu, ht⟩

theorem Reaches.proceed {s u t : System V} (ht : u.Reaches t) (h : s.proceed = some u) :
    s.Reaches t :=
  ht.step (show s.step .proceed = some u from h)

def pushCall (s : System V) (c : Submission) : System V := { s with calls := s.calls ++ [c] }

/-- The last submission moves from one point to the next. -/
theorem step_last {s u : System V} {c c' : Submission}
    (h : (s.pushCall c).advance s.calls.length c =
      some ((u.pushCall c).setCall s.calls.length c')) (hcalls : u.calls = s.calls) :
    (s.pushCall c).step (.advance s.calls.length) = some (u.pushCall c') := by
  have hset : (u.pushCall c).setCall s.calls.length c' = u.pushCall c' := by
    simp [setCall, pushCall, hcalls]
  have hcall : (s.pushCall c).calls[s.calls.length]? = some c := by simp [pushCall]
  rw [← hset]
  exact Option.bind_eq_some_iff.2 ⟨c, hcall, h⟩

variable {s : System V} {target : SlotRef}

theorem reaches_entered (s : System V) (target : SlotRef) :
    s.Reaches (s.pushCall (.entered target)) :=
  (Reaches.refl _).step (show s.step (.submit target) = some _ from rfl)

theorem reaches_stopped (hc : s.worker.cancelled = true) :
    (s.pushCall (.entered target)).Reaches (s.pushCall (.returned (.error .workerStopped))) :=
  (Reaches.refl _).step (step_last (if_pos hc) rfl)

theorem reaches_admitted (hc : s.worker.cancelled = false) :
    (s.pushCall (.entered target)).Reaches (s.pushCall (.admitted target)) :=
  (Reaches.refl _).step (step_last (if_neg (ne_true_of_eq_false hc)) rfl)

/-- A slot that was requested before is accepted and left alone. -/
theorem reaches_accepted (hq : s.slots[target.number]?.bind Slot.markQueued? = none) :
    (s.pushCall (.admitted target)).Reaches (s.pushCall (.returned (.ok ()))) := by
  refine (Reaches.refl _).step (step_last ?_ rfl)
  simp only [advance]
  rw [show (s.pushCall (.admitted target)).slots = s.slots from rfl, hq]

theorem reaches_marked {queued : Slot V}
    (hq : s.slots[target.number]?.bind Slot.markQueued? = some queued) :
    (s.pushCall (.admitted target)).Reaches
      ((s.modifySlot target fun _ => queued).pushCall (.marked target)) := by
  refine (Reaches.refl _).step (step_last ?_ rfl)
  simp only [advance]
  rw [show (s.pushCall (.admitted target)).slots = s.slots from rfl, hq]
  rfl

theorem reaches_sent (hstage : s.stage = .waiting)
    (hroom : s.worker.queue.length < s.worker.capacity) :
    (s.pushCall (.marked target)).Reaches
      ((s.setQueue (s.worker.queue ++ [target])).pushCall (.returned (.ok ()))) := by
  refine (Reaches.refl _).step (step_last ?_ rfl)
  simp only [advance, send]
  rw [show (s.pushCall (.marked target)).stage = _ from hstage]
  exact congrArg some (if_pos hroom)

/-- A full queue refuses the slot, and the mark is taken back. -/
theorem reaches_refused (hstage : s.stage = .waiting)
    (hfull : ¬ s.worker.queue.length < s.worker.capacity) :
    (s.pushCall (.marked target)).Reaches
      ((s.modifySlot target (·.reset)).pushCall (.returned (.error .queueFull))) := by
  have hback : (s.pushCall (.refused target .queueFull)).step (.advance s.calls.length) =
      some ((s.modifySlot target (·.reset)).pushCall (.returned (.error .queueFull))) :=
    step_last rfl rfl
  refine ((Reaches.refl _).step hback).step (step_last ?_ rfl)
  simp only [advance, send]
  rw [show (s.pushCall (.marked target)).stage = _ from hstage]
  exact congrArg some (if_neg hfull)

/-- A worker that is free takes the next slot from its queue. -/
theorem reaches_starting {rest : List SlotRef} (hstage : s.stage = .waiting)
    (hc : s.worker.cancelled = false) (hq : s.worker.queue = target :: rest) :
    s.Reaches ((s.setQueue rest).setStage (.starting target)) := by
  have hpop : s.step .receive = some ((s.setQueue rest).setStage (.received target)) := by
    simp only [step, hstage, hq]
  refine ((Reaches.refl _).proceed ?_).step hpop
  change some ((s.setQueue rest).setStage
    (if s.worker.cancelled then .refusing target else .starting target)) = _
  rw [hc]
  rfl

/-- An attempt that nobody disturbs. -/
theorem reaches_waiting {slot : Slot V} (hstage : s.stage = .starting target)
    (hslot : s.slots[target.number]? = some slot) (hready : slot.isReady = false) :
    s.Reaches (((s.modifySlot target (·.start)).modifySlot target (·.finish (Slot.settle
      (s.worker.escalator.attempt slot.request s.worker.cancelled) s.worker.cancelled))).setStage
        .waiting) :=
  ((((Reaches.refl _).proceed rfl).proceed rfl).proceed rfl).proceed
    (proceed_start hstage hslot hready)

end System

theorem Shows.pushCall (h : Shows ref store s) (result : Except NativeError Unit) :
    Shows ref store (s.pushCall (.returned result)) where
  slots := h.slots
  worker := h.worker
  free := h.free
  returned := by
    intro c hc
    obtain hc | hc := List.mem_append.1 hc
    · exact h.returned c hc
    · rw [List.mem_singleton.1 hc]
      rfl
  waiting := h.waiting
  ended := h.ended

theorem Shows.modifyWorker (h : Shows ref store s) (f : Worker (Value H) → Worker (Value H)) :
    (store.workers.modify ref.number f)[ref.number]? = some (f s.worker) := by
  rw [Array.getElem?_modify, if_pos rfl, h.worker]
  rfl

/-- Both change the slots, and the worker remains at rest. The gate does not matter. -/
theorem Shows.setSlots (h : Shows ref store s) (slots : Array (Slot (Value H))) (gate : Gate) :
    Shows ref { store with slots, gate } { s with slots } :=
  { h with slots := rfl }

/-- Both change the queue of a worker that was not cancelled. -/
theorem Shows.setQueue (h : Shows ref store s) (hc : s.worker.cancelled = false)
    (f : Worker (Value H) → Worker (Value H)) {queue : List SlotRef}
    (hf : f s.worker = { s.worker with queue }) :
    Shows ref { store with workers := store.workers.modify ref.number f } (s.setQueue queue) where
  slots := h.slots
  worker := (h.modifyWorker f).trans (congrArg some hf)
  free := h.free
  returned := h.returned
  waiting := h.waiting
  ended := fun hcancelled => absurd hcancelled (ne_true_of_eq_false hc)

theorem modify_reset {slots : Array (Slot V)} {target : SlotRef} {queued : Slot V}
    (h : slots[target.number]?.bind Slot.markQueued? = some queued) :
    (slots.modify target.number fun _ => queued).modify target.number (·.reset) =
      slots.modify target.number (·.reset) := by
  obtain ⟨slot, hslot, hmark⟩ := Option.bind_eq_some_iff.1 h
  obtain ⟨-, rfl⟩ := Slot.markQueued?_eq_some hmark
  refine Array.ext_getElem? fun j => ?_
  simp only [Array.getElem?_modify]
  by_cases hj : target.number = j
  · subst hj
    simp [hslot, Slot.reset]
  · simp [hj]

theorem Shows.request (h : Shows ref store s) (target : SlotRef) :
    ∃ t, s.Reaches t ∧ Shows ref ((Action.request ref target).after store) t := by
  have hafter : (Action.request ref target).after store = (enqueue ref target).after store :=
    after_discard store _
  have hentered := s.reaches_entered target
  rw [hafter]
  unfold enqueue
  rw [after_worker?, h.worker]
  cases hc : s.worker.cancelled with
  | true =>
    simp only [hc, if_true, after_fault]
    exact ⟨_, hentered.trans (System.reaches_stopped hc), h.pushCall _⟩
  | false =>
    have hadmitted := hentered.trans (System.reaches_admitted hc)
    simp only [hc, Bool.false_eq_true, if_false]
    rw [after_slot?, ← h.slots]
    cases hq : s.slots[target.number]?.bind Slot.markQueued? with
    | none => exact ⟨_, hadmitted.trans (System.reaches_accepted hq), h.pushCall _⟩
    | some queued =>
      have hmarked := hadmitted.trans (System.reaches_marked hq)
      by_cases hroom : s.worker.queue.length < s.worker.capacity
      · simp only [hroom, if_true, after_modifySlot, after_modifyWorker, after_pure]
        refine ⟨_, hmarked.trans (System.reaches_sent (h.waiting hc) hroom), ?_⟩
        rw [← h.slots]
        exact ((h.setSlots (s.slots.modify target.number fun _ => queued) store.gate).setQueue hc
          (fun w => { w with queue := w.queue ++ [target] }) rfl).pushCall _
      · simp only [hroom, if_false, after_modifySlot, after_fault]
        refine ⟨_, hmarked.trans (System.reaches_refused (h.waiting hc) hroom), ?_⟩
        rw [← h.slots, ← modify_reset hq]
        exact (h.setSlots ((s.slots.modify target.number fun _ => queued).modify target.number
          (·.reset)) store.gate).pushCall _

theorem Shows.rest (h : Shows ref store s) (hc : s.worker.cancelled = false) :
    Shows ref store (s.setStage .waiting) :=
  { h with
    waiting := fun _ => rfl
    ended := fun hcancelled => absurd hcancelled (ne_true_of_eq_false hc) }

theorem Shows.take (h : Shows ref store s) :
    ∃ t, s.Reaches t ∧ Shows ref ((Action.take ref).after store) t := by
  have hsame : ∃ t, s.Reaches t ∧ Shows ref store t := ⟨s, .refl s, h⟩
  unfold Action.after Action.run Native.take
  simp only [after_worker?, h.worker, h.free]
  cases hc : s.worker.cancelled with
  | true => exact hsame
  | false =>
    cases hq : s.worker.queue with
    | nil => exact hsame
    | cons target rest =>
      have hstarting := System.reaches_starting (h.waiting hc) hc hq
      have hshown := h.setQueue hc (fun w => { w with queue := rest }) rfl
      simp only [after_modifyWorker, serveFully]
      generalize ({ store with
        workers := store.workers.modify ref.number fun w => { w with queue := rest } } :
          Store H W) = popped at hshown ⊢
      by_cases hskip : ∀ slot, s.slots[target.number]? = some slot → slot.isReady = true
      · have hstep : ((s.setQueue rest).setStage (.starting target)).proceed =
            some ((s.setQueue rest).setStage .waiting) := System.proceed_skip rfl hskip
        rw [after_attempting_of_ready target _ _ (after_pure _ ()) (hshown.slots ▸ hskip)]
        exact ⟨_, hstarting.trans ((System.Reaches.refl _).proceed hstep), hshown.rest hc⟩
      · simp only [not_forall] at hskip
        obtain ⟨slot, hslot, hready⟩ := hskip
        have hready : slot.isReady = false := by simpa using hready
        obtain ⟨gate, hserved⟩ := after_attempting_of_not_ready target s.worker.escalator
          s.worker.cancelled (pure ()) (after_attempt_conclude (ε := NativeError) _ _ _)
          (hshown.slots ▸ hslot) hready
        rw [hserved, ← hshown.slots]
        refine ⟨_, hstarting.trans (System.reaches_waiting rfl hslot hready), ?_⟩
        exact (hshown.setSlots ((s.slots.modify target.number (·.start)).modify target.number
          (·.finish (Slot.settle (s.worker.escalator.attempt slot.request s.worker.cancelled)
            s.worker.cancelled))) gate).rest hc

/-- A worker that nobody disturbs drops what is in its queue, and ends. -/
theorem System.reaches_ended {s : System V} (hstage : s.stage = .draining) :
    s.Reaches { s with
      slots := dropAll s.worker.queue s.slots
      worker := { s.worker with queue := [] }
      stage := .ended } := by
  generalize hq : s.worker.queue = queue
  induction queue generalizing s with
  | nil =>
    have hworker : { s.worker with queue := [] } = s.worker := by rw [← hq]
    rw [hworker]
    have hlook : s.proceed = some (s.setStage .drained) := by
      simp only [System.proceed, hstage, hq]
    exact ((Reaches.refl _).proceed rfl).proceed hlook
  | cons target rest ih =>
    have hnext :=
      ih (s := ((s.setQueue rest).modifySlot target (·.drop)).setStage .draining) rfl rfl
    refine (hnext.proceed (s := (s.setQueue rest).setStage (.discarding target)) rfl).proceed ?_
    simp only [System.proceed, hstage, hq]

theorem Shows.cancel (h : Shows ref store s) :
    ∃ t, s.Reaches t ∧ Shows ref ((Action.cancel ref).after store) t := by
  have hafter : (Action.cancel ref).after store = { store with
      slots := dropAll s.worker.queue s.slots
      workers := store.workers.modify ref.number stopped } := by
    have hcancel := after_cancel (ε := NativeError) h.worker
    rw [h.free, ← h.slots] at hcancel
    exact hcancel
  have hworker := h.modifyWorker stopped
  rw [hafter]
  -- the flag goes up and the message is sent, whether or not anybody is there to read it
  let u : System (Value H) :=
    { s with worker := { s.worker with cancelled := true }, signalled := true }
  have hraise : s.step .cancel = some { s with
      worker := { s.worker with cancelled := true }, signals := s.signals + 1 } := rfl
  have hsend : ({ s with worker := { s.worker with cancelled := true }, signals := s.signals + 1 } :
      System (Value H)).step .signal = some u := rfl
  have hfree : u.worker.busy = none := h.free
  have hraised : u.worker.cancelled ≠ false := Bool.false_ne_true.symm
  cases hc : s.worker.cancelled with
  | true =>
    obtain ⟨hstage, hqueue⟩ := h.ended hc
    refine ⟨u, ((System.Reaches.refl u).step hsend).step hraise, ?_, ?_, hfree, h.returned,
      fun hno => absurd hno hraised, fun _ => h.ended hc⟩
    · rw [hqueue]
      rfl
    · simp only [hworker, u, stopped, h.free, hqueue]
  | false =>
    have hheed : u.step .heed = some { u with stage := .draining, signalled := false } := by
      simp only [System.step]
      rw [show u.stage = _ from h.waiting hc]
    have hended := System.reaches_ended (s := { u with stage := .draining, signalled := false }) rfl
    refine ⟨_, ((hended.step hheed).step hsend).step hraise, rfl, ?_, hfree, h.returned,
      fun hno => absurd hno hraised, fun _ => ⟨rfl, rfl⟩⟩
    simp only [hworker, u, stopped, h.free]

/-- A whole operation of the worker, or a request to it. -/
def Action.IsAt (ref : WorkerRef) : Action H → Prop
  | .request worker _ | .take worker | .cancel worker => worker = ref
  | .hire .. | .call _ | .escalate .. => False

/-- Operations that are carried out one after the other are one of the schedules. -/
theorem Shows.afterAll (h : Shows ref store s) {actions : List (Action H)}
    (hactions : ∀ a ∈ actions, a.IsAt ref) :
    ∃ t, s.Reaches t ∧ Shows ref (afterAll actions store) t := by
  induction actions generalizing store s with
  | nil => exact ⟨s, .refl s, h⟩
  | cons action actions ih =>
    have hat := hactions action List.mem_cons_self
    have hnext : ∃ u, s.Reaches u ∧ Shows ref (action.after store) u := by
      cases action with
      | request worker target =>
        obtain rfl : worker = ref := hat
        exact h.request target
      | take worker =>
        obtain rfl : worker = ref := hat
        exact h.take
      | cancel worker =>
        obtain rfl : worker = ref := hat
        exact h.cancel
      | hire | call | escalate => exact hat.elim
    obtain ⟨u, hu, hshown⟩ := hnext
    obtain ⟨t, ht, hrest⟩ := ih hshown fun a ha => hactions a (List.mem_cons_of_mem _ ha)
    exact ⟨t, hu.trans ht, hrest⟩

/-- One operation after the other, nothing is lost: once the worker is cancelled, no slot waits and
none is compiling. -/
theorem settled_of_cancelled {worker worker' : Worker (Value H)}
    (hslots : ∀ a ∈ store.slots,
      a.state.isPending = true → a.state = .notRequested ∧ a.entry = none)
    (hworker : store.workers[ref.number]? = some worker) (hqueue : worker.queue = [])
    (hbusy : worker.busy = none) (hrunning : worker.cancelled = false)
    {actions : List (Action H)} (hactions : ∀ a ∈ actions, a.IsAt ref)
    (hworker' : (afterAll actions store).workers[ref.number]? = some worker')
    (hcancelled : worker'.cancelled = true) {i : SlotRef} (hi : i.number < store.slots.size) :
    ∃ a, (afterAll actions store).slots[i.number]? = some a ∧ a.state ≠ .queued ∧
      a.state ≠ .compiling := by
  let s : System (Value H) := { slots := store.slots, worker }
  have hidle : s.Idle := ⟨rfl, rfl, hqueue, hslots⟩
  have hshown : Shows ref store s :=
    ⟨rfl, hworker, hbusy, nofun, fun _ => rfl, fun h => absurd h (ne_true_of_eq_false hrunning)⟩
  obtain ⟨t, ⟨turns, ht⟩, hend⟩ := hshown.afterAll hactions
  obtain rfl : t.worker = worker' := Option.some.inj (hend.worker.symm.trans hworker')
  obtain ⟨hstage, hempty⟩ := hend.ended hcancelled
  obtain ⟨a, ha⟩ := (hidle.sound (Array.getElem?_eq_getElem hi)).run ht
  have htokens := ha.tokens
  rw [System.tokens_of_ended hstage hend.returned, hempty] at htokens
  refine ⟨a, hend.slots ▸ ha.slot, fun hq => ?_, mt ha.compiling.1 (by rw [hstage]; exact nofun)⟩
  rw [if_pos hq] at htokens
  cases htokens

end Native

end Formula
