import Formula.Native.Worker
import Formula.Proofs.Run

/-!
What can happen to the escalation records of a store. Every operation on slots and workers is
made of a few changes of one slot, and a change that puts native code into a slot takes it from
an escalator that was asked for the request of that slot. So whatever the order of attempts, of
queues and cancellations, the code of a slot is code for its own body.
-/
namespace Formula
namespace Native

variable {H W ε : Type}

/-- How one step may change a slot: the request stays, and new code is an answer of one of the
escalators to this request. -/
def Evolves (E : Escalator (Value H) → Prop) (a b : Slot (Value H)) : Prop :=
  b.request = a.request ∧ (b.entry = a.entry ∨
    ∃ escalator cancelled entry, E escalator ∧ escalator.attempt a.request cancelled = .ok entry ∧
      b.entry = some entry)

/-- What any number of steps leaves of the slots of a store. -/
structure Progress (E : Escalator (Value H) → Prop) (s₀ s : Store H W) : Prop where
  workers : ∀ w ∈ s.workers, E w.escalator
  slots : ∀ (i : Nat) (slot : Slot (Value H)), s₀.slots[i]? = some slot →
    ∃ slot', s.slots[i]? = some slot' ∧ Evolves E slot slot'

/-- Only slots, workers and the gate have changed. -/
structure Escalated (E : Escalator (Value H) → Prop) (s₀ s : Store H W) : Prop where
  progress : Progress E s₀ s
  lists : s.lists = s₀.lists
  identities : s.identities = s₀.identities
  world : s.world = s₀.world

variable {E : Escalator (Value H) → Prop} {s₀ s : Store H W}

theorem Evolves.refl (slot : Slot (Value H)) : Evolves E slot slot := ⟨rfl, .inl rfl⟩

theorem Evolves.trans {a b c : Slot (Value H)} (hab : Evolves E a b) (hbc : Evolves E b c) :
    Evolves E a c := by
  obtain ⟨hr, he⟩ := hab
  obtain ⟨hr', he' | ⟨esc, cancelled, entry, hE, ha, hentry⟩⟩ := hbc
  · refine ⟨hr'.trans hr, ?_⟩
    rw [he']
    exact he
  · rw [hr] at ha
    exact ⟨hr'.trans hr, .inr ⟨esc, cancelled, entry, hE, ha, hentry⟩⟩

theorem Progress.trans {s₁ s₂ : Store H W} (h : Progress E s₀ s₁) (h' : Progress E s₁ s₂) :
    Progress E s₀ s₂ := by
  refine ⟨h'.workers, fun i slot hslot => ?_⟩
  obtain ⟨a, ha, hea⟩ := h.slots i slot hslot
  obtain ⟨b, hb, heb⟩ := h'.slots i a ha
  exact ⟨b, hb, hea.trans heb⟩

theorem Progress.refl (h : ∀ w ∈ s.workers, E w.escalator) : Progress E s s :=
  ⟨h, fun _ slot hslot => ⟨slot, hslot, .refl slot⟩⟩

theorem Escalated.refl (h : ∀ w ∈ s.workers, E w.escalator) : Escalated E s s :=
  ⟨.refl h, rfl, rfl, rfl⟩

theorem Escalated.modifySlot (h : Escalated E s₀ s) (ref : SlotRef)
    {f : Slot (Value H) → Slot (Value H)}
    (hf : ∀ slot, s.slots[ref.number]? = some slot → Evolves E slot (f slot)) :
    Escalated E s₀ { s with slots := s.slots.modify ref.number f } := by
  refine ⟨⟨h.progress.workers, fun i slot hslot => ?_⟩, h.lists, h.identities, h.world⟩
  obtain ⟨a, ha, hea⟩ := h.progress.slots i slot hslot
  rw [Array.getElem?_modify, ha]
  by_cases hi : ref.number = i
  · subst hi
    exact ⟨f a, by simp, hea.trans (hf a ha)⟩
  · exact ⟨a, by simp [hi], hea⟩

theorem Escalated.modifyWorker (h : Escalated E s₀ s) (ref : WorkerRef)
    {f : Worker (Value H) → Worker (Value H)} (hf : ∀ w, (f w).escalator = w.escalator) :
    Escalated E s₀ { s with workers := s.workers.modify ref.number f } := by
  refine ⟨⟨fun w hw => ?_, h.progress.slots⟩, h.lists, h.identities, h.world⟩
  obtain ⟨i, hi⟩ := Array.mem_iff_getElem?.1 hw
  rw [Array.getElem?_modify] at hi
  cases hv : s.workers[i]? with
  | none => simp [hv] at hi
  | some v =>
    have hmem : E v.escalator := h.progress.workers v (Array.mem_of_getElem? hv)
    by_cases hr : ref.number = i
    · simp only [hv, hr, if_true, Option.map_some, Option.some.injEq] at hi
      rw [← hi, hf]
      exact hmem
    · simp only [hv, hr, if_false, Option.some.injEq] at hi
      rw [← hi]
      exact hmem

theorem Escalated.setGate (h : Escalated E s₀ s) (gate : Gate) :
    Escalated E s₀ { s with gate } :=
  ⟨⟨h.progress.workers, h.progress.slots⟩, h.lists, h.identities, h.world⟩

theorem evolves_finish {slot : Slot (Value H)} {escalator : Escalator (Value H)} (hE : E escalator)
    (cancelled : Bool) :
    Evolves E slot
      (slot.finish (Slot.settle (escalator.attempt slot.request cancelled) cancelled)) := by
  cases ha : escalator.attempt slot.request cancelled with
  | error e => exact ⟨rfl, .inl rfl⟩
  | ok entry =>
    cases cancelled with
    | true => exact ⟨rfl, .inl rfl⟩
    | false =>
      cases he : slot.entry with
      | some old => exact ⟨rfl, .inl (by simp [Slot.settle, Slot.finish, he])⟩
      | none =>
        exact ⟨rfl, .inr ⟨escalator, false, entry, hE, ha, by simp [Slot.settle, Slot.finish, he]⟩⟩

theorem evolves_start (slot : Slot (Value H)) : Evolves E slot slot.start := by
  unfold Slot.start
  split
  · exact .refl slot
  · exact ⟨rfl, .inl rfl⟩

theorem evolves_markQueued {slot queued : Slot (Value H)} (h : slot.markQueued? = some queued) :
    Evolves E slot queued := by
  unfold Slot.markQueued? at h
  split at h
  · cases h
    exact ⟨rfl, .inl rfl⟩
  · cases h

/-- A property of stores that every change of a slot, of a worker or of the gate keeps. -/
structure Stable (E : Escalator (Value H) → Prop) (P : Store H W → Prop) : Prop where
  escalators : ∀ {s}, P s → ∀ w ∈ s.workers, E w.escalator
  ofSlot : ∀ {s}, P s → ∀ (ref : SlotRef) {f : Slot (Value H) → Slot (Value H)},
    (∀ slot, s.slots[ref.number]? = some slot → Evolves E slot (f slot)) →
    P { s with slots := s.slots.modify ref.number f }
  ofWorker : ∀ {s}, P s → ∀ (ref : WorkerRef) {f : Worker (Value H) → Worker (Value H)},
    (∀ w, (f w).escalator = w.escalator) → P { s with workers := s.workers.modify ref.number f }
  ofGate : ∀ {s}, P s → ∀ gate, P { s with gate }

theorem stable_escalated (s₀ : Store H W) : Stable E (Escalated E s₀) where
  escalators h := h.progress.workers
  ofSlot h := h.modifySlot
  ofWorker h := h.modifyWorker
  ofGate h := h.setGate

variable {P : Store H W → Prop}

/-- The escalator of a worker of the store is one of those that may be asked. -/
theorem Stable.worker (hP : Stable E P) (h : P s) {i : Nat} {worker : Worker (Value H)}
    (hw : s.workers[i]? = some worker) : E worker.escalator :=
  hP.escalators h worker (Array.mem_of_getElem? hw)

theorem Stable.always_modifySlot (hP : Stable E P) (ref : SlotRef)
    {f : Slot (Value H) → Slot (Value H)} (hf : ∀ slot, Evolves E slot (f slot)) :
    Run.Always P (Store.modifySlot ref f : Run H W ε Unit) :=
  .modify fun _ hs => hP.ofSlot hs ref fun slot _ => hf slot

theorem Stable.always_modifyWorker (hP : Stable E P) (ref : WorkerRef)
    {f : Worker (Value H) → Worker (Value H)} (hf : ∀ w, (f w).escalator = w.escalator) :
    Run.Always P (modifyWorker ref f : Run H W ε Unit) :=
  .modify fun _ hs => hP.ofWorker hs ref hf

theorem Stable.always_enterGate (hP : Stable E P) (escalator : Escalator (Value H)) :
    Run.Always P (enterGate escalator : Run H W ε Bool) := by
  intro s hs
  unfold enterGate
  split
  · exact ⟨_, _, rfl, hP.ofGate hs _⟩
  · exact ⟨_, _, rfl, hs⟩

theorem Stable.keeps_conclude (hP : Stable E P) (ref : SlotRef)
    {escalator : Escalator (Value H)} (hE : E escalator) (cancelled : Bool) :
    Run.Keeps P (conclude (W := W) ref escalator cancelled) := by
  unfold conclude
  refine Run.Keeps.read (fun _ => rfl) fun s hs => ?_
  cases hslot : s.slots[ref.number]? with
  | none => exact .inl ⟨(), s, rfl, hs⟩
  | some slot =>
    have hfinish : ∀ a, s.slots[ref.number]? = some a → Evolves E a
        (a.finish (Slot.settle (escalator.attempt slot.request cancelled) cancelled)) := by
      intro a ha
      rw [hslot] at ha
      cases ha
      exact evolves_finish hE cancelled
    have hs' := hP.ofSlot hs ref hfinish
    cases ho : Slot.settle (escalator.attempt slot.request cancelled) cancelled with
    | ok entry =>
      rw [ho] at hs'
      exact .inl ⟨(), _, by simp only [ho]; rfl, hs'⟩
    | error e =>
      rw [ho] at hs'
      exact .inr ⟨e, _, by simp only [ho]; rfl, hs'⟩

theorem Stable.keeps_escalate (hP : Stable E P) (ref : SlotRef)
    {escalator : Escalator (Value H)} (hE : E escalator) :
    Run.Keeps P (escalate (W := W) ref escalator) := by
  refine (hP.always_modifySlot ref fun slot => ?_).keeps.bind fun _ => ?_
  · cases h : slot.markQueued? with
    | none => exact .refl slot
    | some queued => exact evolves_markQueued h
  · refine Run.Keeps.read (fun _ => rfl) fun s hs => ?_
    cases s.slots[ref.number]? with
    | none => exact .inr ⟨_, s, rfl, hs⟩
    | some slot =>
      cases hr : slot.isReady with
      | true =>
        simp only [hr, if_true]
        exact .inl ⟨(), s, rfl, hs⟩
      | false =>
        simp only [hr, Bool.false_eq_true, if_false]
        refine Run.Keeps.bind (hP.always_modifySlot ref evolves_start).keeps (fun _ => ?_) s hs
        exact (hP.always_enterGate escalator).keeps.bind fun _ => hP.keeps_conclude ref hE false

theorem Stable.always_serve (hP : Stable E P) (ref : WorkerRef) {worker : Worker (Value H)}
    (hE : E worker.escalator) (target : SlotRef) :
    Run.Always P (serve ref worker target : Run H W ε Unit) := by
  unfold serve
  refine Run.Always.read (fun _ => rfl) fun s hs => ?_
  cases s.slots[target.number]? with
  | none => exact ⟨(), s, rfl, hs⟩
  | some slot =>
    cases hr : slot.isReady with
    | true =>
      simp only [hr, if_true]
      exact ⟨(), s, rfl, hs⟩
    | false =>
      simp only [hr, Bool.false_eq_true, if_false]
      refine Run.Always.bind (hP.always_modifySlot target evolves_start) (fun _ => ?_) s hs
      refine (hP.always_enterGate worker.escalator).bind fun waits => ?_
      cases waits with
      | true => exact hP.always_modifyWorker ref fun _ => rfl
      | false => exact (hP.keeps_conclude target hE worker.cancelled).attempt.bind fun _ => .pure ()

theorem Stable.always_work (hP : Stable E P) (ref : WorkerRef) (n : Nat) :
    Run.Always P (work ref n : Run H W ε Unit) := by
  induction n with
  | zero => exact .pure ()
  | succ n ih =>
    unfold work
    refine Run.Always.read (fun _ => rfl) fun s hs => ?_
    cases hw : s.workers[ref.number]? with
    | none => exact ⟨(), s, rfl, hs⟩
    | some worker =>
      cases hc : worker.cancelled with
      | true =>
        simp only [hc]
        exact ⟨(), s, rfl, hs⟩
      | false =>
        cases hb : worker.busy with
        | some target =>
          simp only [hc, hb]
          exact ⟨(), s, rfl, hs⟩
        | none =>
          cases hq : worker.queue with
          | nil =>
            simp only [hc, hb, hq]
            exact ⟨(), s, rfl, hs⟩
          | cons target rest =>
            simp only [hc, hb, hq]
            refine Run.Always.bind (hP.always_modifyWorker ref ?_) (fun _ => ?_) s hs
            · exact fun _ => rfl
            · exact (hP.always_serve ref (hP.worker hs hw) target).bind fun _ => ih

theorem Stable.always_workAll (hP : Stable E P) (ref : WorkerRef) :
    Run.Always P (workAll ref : Run H W ε Unit) := by
  unfold workAll
  refine Run.Always.read (fun _ => rfl) fun s hs => ?_
  cases s.workers[ref.number]? with
  | none => exact ⟨(), s, rfl, hs⟩
  | some worker => exact hP.always_work ref worker.queue.length s hs

theorem Stable.keeps_submit (hP : Stable E P) (ref : WorkerRef) (target : SlotRef) :
    Run.Keeps P (submit (W := W) ref target) := by
  unfold submit
  refine Run.Keeps.read (fun _ => rfl) fun s hs => ?_
  cases s.workers[ref.number]? with
  | none => exact .inr ⟨_, s, rfl, hs⟩
  | some worker =>
    cases hc : worker.cancelled with
    | true =>
      simp only [hc, if_true]
      exact .inr ⟨_, s, rfl, hs⟩
    | false =>
      simp only [hc, Bool.false_eq_true, if_false]
      refine Run.Keeps.read (fun _ => rfl) (fun s hs => ?_) s hs
      cases hq : s.slots[target.number]?.bind Slot.markQueued? with
      | none => exact .inl ⟨(), s, rfl, hs⟩
      | some queued =>
        obtain ⟨slot, hslot, hmark⟩ := Option.bind_eq_some_iff.1 hq
        have hqueued : ∀ a, s.slots[target.number]? = some a → Evolves E a queued := by
          intro a ha
          rw [hslot] at ha
          cases ha
          exact evolves_markQueued hmark
        by_cases hroom : worker.queue.length < worker.capacity
        · simp only [hroom, if_true]
          refine Run.Keeps.after ?_ rfl (hP.ofSlot hs target hqueued)
          refine (hP.always_modifyWorker ref ?_).keeps.bind fun _ => (hP.always_workAll ref).keeps
          exact fun _ => rfl
        · simp only [hroom, if_false]
          refine Run.Keeps.bind (hP.always_modifySlot target ?_).keeps (fun _ => ?_) s hs
          · exact fun _ => ⟨rfl, .inl rfl⟩
          · exact .fault _

theorem Stable.always_recordCall (hP : Stable E P) (target : SlotRef) :
    Run.Always P (recordCall target : Run H W ε Unit) := by
  unfold recordCall
  refine Run.Always.read (fun _ => rfl) fun s hs => ?_
  cases s.slots[target.number]?.bind fun slot => slot.trigger.map fun t => (slot.calls + 1, t) with
  | none => exact ⟨(), s, rfl, hs⟩
  | some p =>
    refine Run.Always.bind (hP.always_modifySlot target ?_) (fun _ => ?_) s hs
    · exact fun _ => ⟨rfl, .inl rfl⟩
    · split
      · refine (hP.keeps_submit _ target).attempt.bind fun r => ?_
        split
        · exact hP.always_modifySlot target fun _ => ⟨rfl, .inl rfl⟩
        · exact .pure ()
      · exact .pure ()

/-- Counting a call only escalates. -/
theorem always_recordCall (target : SlotRef) :
    Run.Always (Escalated E s₀) (recordCall target : Run H W ε Unit) :=
  (stable_escalated s₀).always_recordCall target

theorem Stable.always_cancel (hP : Stable E P) (ref : WorkerRef) :
    Run.Always P (cancel ref : Run H W ε Unit) := by
  unfold cancel
  refine Run.Always.read (fun _ => rfl) fun s hs => ?_
  cases s.workers[ref.number]? with
  | none => exact ⟨(), s, rfl, hs⟩
  | some worker =>
    refine Run.Always.bind (hP.always_modifyWorker ref ?_) (fun _ => ?_) s hs
    · exact fun _ => rfl
    · refine (Run.Always.forM_option fun target => ?_).bind fun _ => .forM fun target => ?_
      · exact hP.always_modifySlot target fun _ => ⟨rfl, .inl rfl⟩
      · exact hP.always_modifySlot target fun _ => ⟨rfl, .inl rfl⟩

theorem Stable.always_release (hP : Stable E P) : Run.Always P (release : Run H W ε Unit) := by
  refine Run.Always.bind (.modify fun s hs => hP.ofGate hs _) fun _ => ?_
  refine Run.Always.read (fun _ => rfl) fun s hs => ?_
  refine Run.Always.bind (Run.Always.forIn fun number _ => ?_) (fun _ => .pure _) s hs
  refine Run.Always.read (fun _ => rfl) fun s hs => ?_
  cases hw : s.workers[number]? with
  | none => exact ⟨_, s, rfl, hs⟩
  | some worker =>
    have hE : E worker.escalator := hP.worker hs hw
    refine Run.Always.bind (Run.Always.forM_option fun target => ?_) (fun _ => ?_) s hs
    · refine (hP.always_modifyWorker ⟨number⟩ ?_).bind fun _ => ?_
      · exact fun _ => rfl
      · exact (hP.keeps_conclude target hE worker.cancelled).attempt.bind fun _ => .pure ()
    · exact (hP.always_workAll ⟨number⟩).bind fun _ => .pure _

/-- The operations that have to do with escalation. -/
inductive Op (H : Type) where
  | hire (escalator : Escalator (Value H)) (capacity : Nat)
  | escalate (target : SlotRef) (escalator : Escalator (Value H))
  | submit (worker : WorkerRef) (target : SlotRef)
  | countCall (target : SlotRef)
  | cancel (worker : WorkerRef)
  | release

namespace Op

def run : Op H → Run H W NativeError Unit
  | .hire escalator capacity => do let _ ← newWorker escalator capacity
  | .escalate target escalator => Native.escalate target escalator
  | .submit worker target => Native.submit worker target
  | .countCall target => recordCall target
  | .cancel worker => Native.cancel worker
  | .release => Native.release

/-- The escalator that the operation brings in is one of those allowed. -/
def Uses (E : Escalator (Value H) → Prop) : Op H → Prop
  | .hire escalator _ | .escalate _ escalator => E escalator
  | _ => True

end Op

/-- The store that an operation leaves, whether it succeeds or fails. -/
def Op.after (o : Op H) (s : Store H W) : Store H W :=
  match o.run s with
  | .ok _ s' | .error _ s' => s'

/-- Anything may happen between two stores as long as native code comes from the allowed
escalators: operations on slots and workers, new slots, and whatever does not touch either. -/
inductive History (E : Escalator (Value H) → Prop) (s₀ : Store H W) : Store H W → Prop where
  | start : History E s₀ s₀
  | op {s : Store H W} (h : History E s₀ s) (o : Op H) (ho : o.Uses E) : History E s₀ (o.after s)
  | literal {s : Store H W} (h : History E s₀ s) (slot : Slot (Value H)) :
    History E s₀ { s with slots := s.slots.push slot }
  | elsewhere {s : Store H W} (h : History E s₀ s) (s' : Store H W) (hslots : s'.slots = s.slots)
      (hworkers : s'.workers = s.workers) : History E s₀ s'

theorem Op.keeps {o : Op H} (ho : o.Uses E) : Run.Keeps (Progress E s₀) (o.run (W := W)) := by
  intro s hs
  -- as seen from the store it runs on, every operation but hiring only escalates
  have hfrom (x : Run H W NativeError Unit) (h : Run.Keeps (Escalated E s) x) :
      (∃ a s', x s = .ok a s' ∧ Progress E s₀ s') ∨
        ∃ e s', x s = .error (.fault e) s' ∧ Progress E s₀ s' := by
    obtain ⟨a, u, ha, hu⟩ | ⟨e, u, he, hu⟩ := h s (.refl hs.workers)
    · exact .inl ⟨a, u, ha, hs.trans hu.progress⟩
    · exact .inr ⟨e, u, he, hs.trans hu.progress⟩
  cases o with
  | hire escalator capacity =>
    refine .inl ⟨(), _, rfl, ⟨fun w hw => ?_, hs.slots⟩⟩
    obtain hw | rfl := Array.mem_push.1 hw
    · exact hs.workers w hw
    · exact ho
  | escalate target escalator => exact hfrom _ ((stable_escalated s).keeps_escalate target ho)
  | submit worker target => exact hfrom _ ((stable_escalated s).keeps_submit worker target)
  | countCall target => exact hfrom _ (always_recordCall target).keeps
  | cancel worker => exact hfrom _ ((stable_escalated s).always_cancel worker).keeps
  | release => exact hfrom _ (stable_escalated s).always_release.keeps

theorem Op.progress_after {o : Op H} (ho : o.Uses E) (h : Progress E s₀ s) :
    Progress E s₀ (o.after s) := by
  unfold after
  obtain ⟨a, u, ha, hu⟩ | ⟨e, u, he, hu⟩ := keeps ho s h
  · rw [ha]
    exact hu
  · rw [he]
    exact hu

/-- Whatever happens, a slot keeps its request, and its code is the old one or an answer of an
allowed escalator to the request. -/
theorem History.progress (hw : ∀ w ∈ s₀.workers, E w.escalator) (h : History E s₀ s) :
    Progress E s₀ s := by
  induction h with
  | start => exact .refl hw
  | op _ o ho ih => exact Op.progress_after ho ih
  | literal _ slot ih =>
    refine ⟨ih.workers, fun i a ha => ?_⟩
    obtain ⟨b, hb, hab⟩ := ih.slots i a ha
    obtain ⟨hlt, hv⟩ := Array.getElem?_eq_some_iff.1 hb
    exact ⟨b, by rw [Array.getElem?_push_lt hlt, hv], hab⟩
  | elsewhere _ s' hslots hworkers ih =>
    refine ⟨?_, ?_⟩
    · rw [hworkers]
      exact ih.workers
    · rw [hslots]
      exact ih.slots

end Native

end Formula
