import Formula.Proofs.Native.Events

/-!
One slot with a threshold, while anything happens. No event leaves the slot not requested with a
count that has reached the threshold, and only one that takes the slot into a queue makes a slot
requested that was not.
-/
namespace Formula
namespace Native

variable {H W V : Type}

/-- A slot with a threshold and the running worker that it is going to be queued at. While nobody
has requested it, its count is below the threshold and no worker has it. -/
structure Watched (i : SlotRef) (t : Trigger) (s : Store H W) (a : Slot (Value H)) : Prop where
  slot : s.slots[i.number]? = some a
  trigger : a.trigger = some t
  running : ∃ w, s.workers[t.worker.number]? = some w ∧ w.cancelled = false
  below : a.state = .notRequested → a.calls < t.threshold
  absent : a.state = .notRequested → ∀ w ∈ s.workers, i ∉ w.queue ∧ w.busy ≠ some i

/-- The slot goes into the queue of a worker from the one store to the other. -/
def Accepted (i : SlotRef) (s s' : Store H W) : Prop :=
  ∃ (ref : WorkerRef) (w w' : Worker (Value H)), s.workers[ref.number]? = some w ∧
    s'.workers[ref.number]? = some w' ∧ w'.queue = w.queue ++ [i]

/-- What an event can do to the slot. -/
inductive Moves (i : SlotRef) (t : Trigger) (e : Event) (a b : Slot V) : Prop where
  | kept (he : e ≠ .call i) (hstate : b.state = a.state) (hcalls : b.calls = a.calls)
  | counted (he : e = .call i) (hstate : b.state = a.state) (hcalls : b.calls = a.calls + 1)
      (hbelow : a.state = .notRequested → a.calls + 1 ≠ t.threshold)
  | accepted (ha : a.state = .notRequested) (hb : b.state = .queued)
  | restarted (he : e = .call i) (ha : a.state = .notRequested)
      (hreached : a.calls + 1 = t.threshold) (hb : b.state = .notRequested) (hcalls : b.calls = 0)
  | served (he : e ≠ .call i) (ha : a.state ≠ .notRequested) (hb : b.state ≠ .notRequested)

variable {i : SlotRef} {t : Trigger} {s : Store H W} {a b : Slot (Value H)}

theorem not_accepted_of_workers {s' : Store H W} (h : s'.workers = s.workers) :
    ¬ Accepted i s s' := by
  rintro ⟨ref, w, w', hw, hw', hqueue⟩
  rw [h, hw] at hw'
  cases hw'
  simp at hqueue

theorem not_accepted_of_modify {s' : Store H W} {ref : WorkerRef}
    {f : Worker (Value H) → Worker (Value H)} (h : s'.workers = s.workers.modify ref.number f)
    (hf : ∀ w, s.workers[ref.number]? = some w → (f w).queue ≠ w.queue ++ [i]) :
    ¬ Accepted i s s' := by
  rintro ⟨ref', w, w', hw, hw', hqueue⟩
  rw [h, Array.getElem?_modify, hw] at hw'
  by_cases hr : ref.number = ref'.number
  · rw [if_pos hr] at hw'
    cases hw'
    exact hf w (hr ▸ hw) hqueue
  · rw [if_neg hr] at hw'
    cases hw'
    simp at hqueue

/-- A change of one slot. A slot that is not requested afterwards was not requested before. -/
theorem Watched.modifySlot (h : Watched i t s a) (target : SlotRef)
    {f : Slot (Value H) → Slot (Value H)} (htrigger : target = i → (f a).trigger = a.trigger)
    (hf : target = i → (f a).state = .notRequested →
      a.state = .notRequested ∧ (f a).calls < t.threshold) :
    Watched i t { s with slots := s.slots.modify target.number f }
      (if target = i then f a else a) := by
  by_cases hi : target = i
  · simp only [hi, if_true]
    constructor
    · have hslot := getElem?_modifySlot h.slot target f
      simpa only [hi, if_true] using hslot
    · exact (htrigger hi).trans h.trigger
    · exact h.running
    · exact fun hstate => (hf hi hstate).2
    · exact fun hstate => h.absent (hf hi hstate).1
  · simp only [hi, if_false]
    constructor
    · have hslot := getElem?_modifySlot h.slot target f
      simpa only [hi, if_false] using hslot
    · exact h.trigger
    · exact h.running
    · exact h.below
    · exact h.absent

/-- A change of one worker. -/
theorem Watched.modifyWorker (h : Watched i t s a) (ref : WorkerRef)
    {f : Worker (Value H) → Worker (Value H)} (hcancelled : ∀ w, (f w).cancelled = w.cancelled)
    (hf : a.state = .notRequested → ∀ w ∈ s.workers, i ∉ (f w).queue ∧ (f w).busy ≠ some i) :
    Watched i t { s with workers := s.workers.modify ref.number f } a := by
  constructor
  · exact h.slot
  · exact h.trigger
  · obtain ⟨w, hw, hc⟩ := h.running
    by_cases hr : ref.number = t.worker.number
    · refine ⟨f w, ?_, (hcancelled w).trans hc⟩
      simp [Array.getElem?_modify, hr, hw]
    · refine ⟨w, ?_, hc⟩
      simp [Array.getElem?_modify, hr, hw]
  · exact h.below
  · intro hstate w hw
    obtain ⟨j, hj⟩ := Array.mem_iff_getElem?.1 hw
    rw [Array.getElem?_modify] at hj
    by_cases hr : ref.number = j
    · rw [if_pos hr] at hj
      obtain ⟨v, hv, rfl⟩ := Option.map_eq_some_iff.1 hj
      exact hf hstate v (Array.mem_of_getElem? hv)
    · rw [if_neg hr] at hj
      exact h.absent hstate w (Array.mem_of_getElem? hj)

theorem Watched.setGate (h : Watched i t s a) (gate : Gate) : Watched i t { s with gate } a :=
  ⟨h.slot, h.trigger, h.running, h.below, h.absent⟩

/-- A slot that a worker has was requested. -/
theorem Watched.requested (h : Watched i t s a) {w : Worker (Value H)} (hw : w ∈ s.workers)
    (hi : i ∈ w.queue ∨ w.busy = some i) : a.state ≠ .notRequested := by
  intro hstate
  obtain ⟨hqueue, hbusy⟩ := h.absent hstate w hw
  exact hi.elim hqueue hbusy

/-- What an event has led to. -/
def Leads (i : SlotRef) (t : Trigger) (s : Store H W) (e : Event) (a : Slot (Value H))
    (s' : Store H W) : Prop :=
  ∃ b, Watched i t s' b ∧ Moves i t e a b ∧
    (Accepted i s s' ↔ a.state = .notRequested ∧ b.state = .queued)

theorem Leads.unaccepted {e : Event} {s' : Store H W} (hb : Watched i t s' b)
    (hmoves : Moves i t e a b) (hstate : a.state = .notRequested → b.state = .notRequested)
    (hnot : ¬ Accepted i s s') : Leads i t s e a s' := by
  refine ⟨b, hb, hmoves, iff_of_false hnot ?_⟩
  rintro ⟨ha, hqueued⟩
  rw [hstate ha] at hqueued
  cases hqueued

theorem accepted_accepting {ref : WorkerRef} {w : Worker (Value H)}
    (hw : s.workers[ref.number]? = some w) (a : Slot (Value H)) :
    Accepted i s (accepting ref i a s) := by
  refine ⟨ref, w, { w with queue := w.queue ++ [i] }, hw, ?_, rfl⟩
  rw [accepting, Array.getElem?_modify, if_pos rfl, hw]
  rfl

/-- A slot that goes into a queue. -/
theorem Watched.accepting (h : Watched i t s a) (ref : WorkerRef) {target : SlotRef}
    {c : Slot (Value H)} (hc : s.slots[target.number]? = some c)
    (hstate : c.state = .notRequested) :
    ∃ b, Watched i t (accepting ref target c s) b ∧ b.calls = a.calls ∧
      (target = i ∧ a.state = .notRequested ∧ b.state = .queued ∨
        target ≠ i ∧ b.state = a.state ∧ ¬ Accepted i s (Native.accepting ref target c s)) := by
  by_cases hi : target = i
  · subst hi
    obtain rfl : c = a := Option.some.inj (hc.symm.trans h.slot)
    have hslot := h.modifySlot target (f := fun _ => { c with state := .queued }) (fun _ => rfl)
      (fun _ hn => by cases hn)
    rw [if_pos rfl] at hslot
    have hworker := hslot.modifyWorker ref (f := fun w => { w with queue := w.queue ++ [target] })
      (fun _ => rfl) (fun hn => by cases hn)
    exact ⟨_, hworker, rfl, .inl ⟨rfl, hstate, rfl⟩⟩
  · have hslot := h.modifySlot target (f := fun _ => { c with state := .queued })
      (fun hi' => absurd hi' hi) (fun hi' => absurd hi' hi)
    rw [if_neg hi] at hslot
    have hworker := hslot.modifyWorker ref (f := fun w => { w with queue := w.queue ++ [target] })
      (fun _ => rfl) (by
        intro hn w hw
        obtain ⟨hqueue, hbusy⟩ := h.absent hn w hw
        refine ⟨?_, hbusy⟩
        simp [hqueue, Ne.symm hi])
    refine ⟨a, hworker, rfl, .inr ⟨hi, rfl, ?_⟩⟩
    apply not_accepted_of_modify (f := fun w => { w with queue := w.queue ++ [target] }) rfl
    intro w _ hqueue
    have hlast := List.append_cancel_left hqueue
    cases hlast
    exact hi rfl

theorem Watched.leads_request (h : Watched i t s a) (ref : WorkerRef) (target : SlotRef) :
    Leads i t s (.request ref target) a ((Event.request ref target).after s) := by
  have hafter : (Event.request ref target).after s = (enqueue ref target).after s :=
    after_discard s _
  have hsame : Leads i t s (.request ref target) a s :=
    .unaccepted h (.kept (by simp) rfl rfl) id (not_accepted_of_workers rfl)
  have houtcome := enqueue_outcome ref target s
  rw [hafter]
  unfold Run.after
  generalize enqueue ref target s = r at houtcome
  cases houtcome with
  | accepted hw hc hstate hroom =>
    obtain ⟨b, hb, hcalls, ⟨rfl, ha, hqueued⟩ | ⟨-, hkept, hnot⟩⟩ := h.accepting ref hc hstate
    · exact ⟨b, hb, .accepted ha hqueued, iff_of_true (accepted_accepting hw _) ⟨ha, hqueued⟩⟩
    · exact .unaccepted hb (.kept (by simp) hkept hcalls) hkept.trans hnot
  | full => exact hsame
  | known => exact hsame
  | stopped => exact hsame

/-- The calls of another slot. -/
theorem Watched.setCalls_other (h : Watched i t s a) {target : SlotRef} (hi : target ≠ i)
    (calls : Nat) : Watched i t (setCalls target calls s) a := by
  have hslot := h.modifySlot target (f := fun c => { c with calls })
    (fun hi' => absurd hi' hi) (fun hi' => absurd hi' hi)
  rw [if_neg hi] at hslot
  exact hslot

theorem Watched.leads_call_other (h : Watched i t s a) {target : SlotRef} (hi : target ≠ i) :
    Leads i t s (.call target) a ((Event.call target).after s) := by
  have hcall : Event.call target ≠ .call i := fun he => hi (Event.call.inj he)
  have hkept {u : Store H W} (hu : Watched i t u a) (hworkers : u.workers = s.workers) :
      Leads i t s (.call target) a u :=
    .unaccepted hu (.kept hcall rfl rfl) id (not_accepted_of_workers hworkers)
  by_cases hnone : ∀ c, s.slots[target.number]? = some c → c.trigger = none
  · rw [Event.after_call, after_countCall_uncounted hnone]
    exact hkept h rfl
  · obtain ⟨c, hc, hsome⟩ : ∃ c, s.slots[target.number]? = some c ∧ c.trigger ≠ none := by
      simpa using hnone
    obtain ⟨trigger, ht⟩ := Option.ne_none_iff_exists'.1 hsome
    have hu := h.setCalls_other hi (c.calls + 1)
    by_cases hcalls : c.calls + 1 = trigger.threshold
    · have houtcome := enqueue_outcome trigger.worker target (setCalls target (c.calls + 1) s)
      generalize he : enqueue trigger.worker target (setCalls target (c.calls + 1) s) = r
        at houtcome
      cases houtcome with
      | accepted hw hc' hstate hroom =>
        rw [after_call_ok hc ht hcalls he]
        obtain ⟨b, hb, hsame, ⟨hi', -, -⟩ | ⟨-, hkept', hnot⟩⟩ :=
          hu.accepting trigger.worker hc' hstate
        · exact absurd hi' hi
        · exact .unaccepted hb (.kept hcall hkept' hsame) hkept'.trans hnot
      | full =>
        rw [after_call_error hc ht hcalls he, if_pos rfl]
        exact hkept (hu.setCalls_other hi 0) rfl
      | known =>
        rw [after_call_ok hc ht hcalls he]
        exact hkept hu rfl
      | stopped =>
        rw [after_call_error hc ht hcalls he, if_neg (by decide)]
        exact hkept hu rfl
    · rw [Event.after_call, after_countCall_below hc ht hcalls]
      exact hkept hu rfl

/-- The slot itself, however it is changed. -/
theorem Watched.setSlot (h : Watched i t s a) {f : Slot (Value H) → Slot (Value H)}
    (htrigger : (f a).trigger = a.trigger)
    (hf : (f a).state = .notRequested → a.state = .notRequested ∧ (f a).calls < t.threshold) :
    Watched i t { s with slots := s.slots.modify i.number f } (f a) := by
  have hslot := h.modifySlot i (f := f) (fun _ => htrigger) (fun _ => hf)
  rw [if_pos rfl] at hslot
  exact hslot

/-- A call that does not reach the threshold, or comes when the slot was requested already, is only
counted. -/
theorem Watched.call_counted (h : Watched i t s a)
    (hcalls : a.state = .notRequested → a.calls + 1 ≠ t.threshold) :
    Watched i t ((Event.call i).after s) { a with calls := a.calls + 1 } ∧
      ((Event.call i).after s).workers = s.workers := by
  have hcounted : Watched i t (setCalls i (a.calls + 1) s) { a with calls := a.calls + 1 } := by
    refine h.setSlot (f := fun c => { c with calls := a.calls + 1 }) rfl fun hn => ⟨hn, ?_⟩
    have hbelow := h.below hn
    have hne := hcalls hn
    change a.calls + 1 < t.threshold
    omega
  by_cases hreached : a.calls + 1 = t.threshold
  · have hstate : a.state ≠ .notRequested := fun hn => hcalls hn hreached
    have houtcome := enqueue_outcome t.worker i (setCalls i (a.calls + 1) s)
    generalize he : enqueue t.worker i (setCalls i (a.calls + 1) s) = r at houtcome
    cases houtcome with
    | accepted _ hc hn | full _ hc hn =>
      cases hcounted.slot.symm.trans hc
      exact absurd hn hstate
    | known =>
      rw [after_call_ok h.slot h.trigger hreached he]
      exact ⟨hcounted, rfl⟩
    | stopped =>
      rw [after_call_error h.slot h.trigger hreached he, if_neg (by decide)]
      exact ⟨hcounted, rfl⟩
  · rw [Event.after_call, after_countCall_below h.slot h.trigger hreached]
    exact ⟨hcounted, rfl⟩

/-- The call that reaches the threshold queues the slot; if the queue is full, the slot stays as it
is and its count starts again. -/
theorem Watched.call_reaching (h : Watched i t s a) (hstate : a.state = .notRequested)
    (hreached : a.calls + 1 = t.threshold) :
    ∃ w b, s.workers[t.worker.number]? = some w ∧ Watched i t ((Event.call i).after s) b ∧
      (w.queue.length < w.capacity ∧ b.state = .queued ∧ Accepted i s ((Event.call i).after s) ∨
        w.capacity ≤ w.queue.length ∧ b.state = .notRequested ∧ b.calls = 0 ∧
          ((Event.call i).after s).workers = s.workers) := by
  have hslot := setCalls_slot h.slot (a.calls + 1)
  have houtcome := enqueue_outcome t.worker i (setCalls i (a.calls + 1) s)
  generalize he : enqueue t.worker i (setCalls i (a.calls + 1) s) = r at houtcome
  cases houtcome with
  | @accepted w _ hw hc _ hroom =>
    cases hslot.symm.trans hc
    rw [after_call_ok h.slot h.trigger hreached he]
    have hb := (h.setSlot (f := fun _ => { a with calls := a.calls + 1, state := .queued }) rfl
      (fun hn => by cases hn)).modifyWorker t.worker
      (f := fun w => { w with queue := w.queue ++ [i] }) (fun _ => rfl) (fun hn => by cases hn)
    have hacc : Accepted i s (Native.accepting t.worker i { a with calls := a.calls + 1 }
      (setCalls i (a.calls + 1) s)) := accepted_accepting hw _
    refine ⟨w, { a with calls := a.calls + 1, state := .queued }, hw, ?_,
      .inl ⟨hroom, rfl, hacc⟩⟩
    rw [Native.accepting, setCalls, modify_modify]
    exact hb
  | @full w _ hw hc _ hfull =>
    cases hslot.symm.trans hc
    rw [after_call_error h.slot h.trigger hreached he, if_pos rfl]
    have hb := h.setSlot (f := fun c => { c with calls := 0 }) rfl
      (fun hn => ⟨hn, Nat.zero_lt_of_lt (h.below hn)⟩)
    refine ⟨w, { a with calls := 0 }, hw, ?_, .inr ⟨hfull, hstate, rfl, rfl⟩⟩
    rw [setCalls, setCalls, modify_modify]
    exact hb
  | known hknown => exact absurd hstate (hknown { a with calls := a.calls + 1 } hslot)
  | stopped hstopped =>
    obtain ⟨w, hw, hrunning⟩ := h.running
    rw [hstopped w hw] at hrunning
    cases hrunning

theorem Watched.leads_call (h : Watched i t s a) :
    Leads i t s (.call i) a ((Event.call i).after s) := by
  by_cases hreached : a.state = .notRequested ∧ a.calls + 1 = t.threshold
  · obtain ⟨hstate, hcalls⟩ := hreached
    obtain ⟨w, b, hw, hb, ⟨-, hqueued, hacc⟩ | ⟨-, hkept, hzero, hworkers⟩⟩ :=
      h.call_reaching hstate hcalls
    · exact ⟨b, hb, .accepted hstate hqueued, iff_of_true hacc ⟨hstate, hqueued⟩⟩
    · exact .unaccepted hb (.restarted rfl hstate hcalls hkept hzero) (fun _ => hkept)
        (not_accepted_of_workers hworkers)
  · have hnot : a.state = .notRequested → a.calls + 1 ≠ t.threshold :=
      fun hstate hcalls => hreached ⟨hstate, hcalls⟩
    obtain ⟨hb, hworkers⟩ := h.call_counted hnot
    exact .unaccepted hb (.counted rfl rfl rfl hnot) id (not_accepted_of_workers hworkers)

theorem Watched.leads_receive (h : Watched i t s a) (ref : WorkerRef) :
    Leads i t s (.receive ref) a ((Event.receive ref).after s) := by
  obtain hsame | ⟨w, target, rest, hw, hq, hafter⟩ :=
    after_receive_cases (ε := NativeError) ref s
  · rw [Event.after, Event.run, hsame]
    exact .unaccepted h (.kept (by simp) rfl rfl) id (not_accepted_of_workers rfl)
  have hmem : w ∈ s.workers := Array.mem_of_getElem? hw
  -- the queue gets shorter, so nothing goes into it
  have hnot {u : Store H W} (f : Worker (Value H) → Worker (Value H))
      (hu : u.workers = s.workers.modify ref.number f) (hf : ∀ v, (f v).queue = rest) :
      ¬ Accepted i s u := by
    apply not_accepted_of_modify hu
    intro v hv hqueue
    cases hw.symm.trans hv
    have hlength := congrArg List.length hqueue
    simp only [hf, hq, List.length_append, List.length_cons, List.length_nil] at hlength
    omega
  have hqueue : a.state = .notRequested → ∀ v ∈ s.workers, i ∉ rest ∧ v.busy ≠ some i := by
    intro hn v hv
    refine ⟨fun hi => ?_, (h.absent hn v hv).2⟩
    exact (h.absent hn w hmem).1 (hq ▸ List.mem_cons_of_mem target hi)
  obtain htaking | ⟨gate, hstarting⟩ := hafter
  · rw [Event.after, Event.run, htaking]
    exact .unaccepted (h.modifyWorker ref (fun _ => rfl) hqueue) (.kept (by simp) rfl rfl) id
      (hnot (fun v => { v with queue := rest }) rfl fun _ => rfl)
  rw [Event.after, Event.run, hstarting]
  have hnot' : ¬ Accepted i s (starting ref target rest gate s) :=
    hnot (fun v => { v with queue := rest, busy := some target }) rfl fun _ => rfl
  by_cases hi : target = i
  · -- the slot itself, which the worker has in its queue and so was requested
    subst hi
    have hrequested : a.state ≠ .notRequested :=
      h.requested hmem (.inl (hq ▸ List.mem_cons_self))
    have hstarted := Slot.state_start_ne hrequested
    have hslot := h.modifySlot target (f := (·.start)) (fun _ => a.trigger_start)
      (fun _ hn => absurd hn hstarted)
    rw [if_pos rfl] at hslot
    have hworker := (hslot.setGate gate).modifyWorker ref
      (f := fun v => { v with queue := rest, busy := some target }) (fun _ => rfl)
      (fun hn => absurd hn hstarted)
    exact .unaccepted hworker (.served (by simp) hrequested hstarted)
      (fun hn => absurd hn hrequested) hnot'
  · have hslot := h.modifySlot target (f := (·.start)) (fun hi' => absurd hi' hi)
      (fun hi' => absurd hi' hi)
    rw [if_neg hi] at hslot
    have hworker := (hslot.setGate gate).modifyWorker ref
      (f := fun v => { v with queue := rest, busy := some target }) (fun _ => rfl)
      (fun hn v hv => ⟨(hqueue hn v hv).1, fun hbusy => hi (Option.some.inj hbusy)⟩)
    exact .unaccepted hworker (.kept (by simp) rfl rfl) id hnot'

theorem Watched.leads_complete (h : Watched i t s a) (ref : WorkerRef) :
    Leads i t s (.complete ref) a ((Event.complete ref).after s) := by
  obtain hsame | ⟨w, target, outcome, hw, hbusy, hafter⟩ :=
    after_complete (ε := NativeError) ref s
  · rw [Event.after, Event.run, hsame]
    exact .unaccepted h (.kept (by simp) rfl rfl) id (not_accepted_of_workers rfl)
  rw [Event.after, Event.run, hafter]
  have hnot {slots : Array (Slot (Value H))} : ¬ Accepted i s { s with
      slots, workers := s.workers.modify ref.number fun w => { w with busy := none } } := by
    apply not_accepted_of_modify (f := fun w => { w with busy := none }) rfl
    intro v _ hqueue
    simp at hqueue
  by_cases hi : target = i
  · subst hi
    have hrequested : a.state ≠ .notRequested :=
      h.requested (Array.mem_of_getElem? hw) (.inr hbusy)
    have hslot := h.modifySlot target (f := (·.finish outcome)) (fun _ => a.trigger_finish outcome)
      (fun _ hn => absurd hn (a.state_finish_ne outcome))
    rw [if_pos rfl] at hslot
    have hworker := hslot.modifyWorker ref (f := fun v => { v with busy := none }) (fun _ => rfl)
      (fun hn => absurd hn (a.state_finish_ne outcome))
    exact .unaccepted hworker (.served (by simp) hrequested (a.state_finish_ne outcome))
      (fun hn => absurd hn hrequested) hnot
  · have hslot := h.modifySlot target (f := (·.finish outcome)) (fun hi' => absurd hi' hi)
      (fun hi' => absurd hi' hi)
    rw [if_neg hi] at hslot
    have hworker := hslot.modifyWorker ref (f := fun v => { v with busy := none }) (fun _ => rfl)
      (fun hn v hv => ⟨(h.absent hn v hv).1, by simp⟩)
    exact .unaccepted hworker (.kept (by simp) rfl rfl) id hnot

theorem Watched.leads (h : Watched i t s a) (e : Event) : Leads i t s e a (e.after s) := by
  cases e with
  | call target =>
    by_cases hi : target = i
    · subst hi
      exact h.leads_call
    · exact h.leads_call_other hi
  | request ref target => exact h.leads_request ref target
  | receive ref => exact h.leads_receive ref
  | complete ref => exact h.leads_complete ref
  | opening =>
    exact .unaccepted (h.setGate _) (.kept (by simp) rfl rfl) id (not_accepted_of_workers rfl)

end Native

end Formula
