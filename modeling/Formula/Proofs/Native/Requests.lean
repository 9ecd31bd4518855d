import Formula.Dialect.Standard
import Formula.Evaluation
import Formula.Proofs.Native.Operations
import Formula.View

/-!
What a closure reports of its escalation. After any history of whole operations it says that it is
ready exactly if it has native code, with one exception: a worker that is cancelled fails every
request in its queue without looking, also one whose slot was escalated on the spot meanwhile.
-/
namespace Formula
namespace Native

variable {H W ε V : Type}

namespace Slot

/-- Reports to be ready exactly if it has native code. -/
def Truthful (a : Slot V) : Prop := a.state = .ready ↔ a.isReady = true

/-- Reports to be cancelled although it has native code. -/
def Misreported (a : Slot V) : Prop := a.state = .failed .cancelled ∧ a.isReady = true

theorem Misreported.not_truthful {a : Slot V} (h : a.Misreported) : ¬ a.Truthful := by
  intro ht
  have hready := ht.2 h.2
  rw [h.1] at hready
  cases hready

/-- What becomes of a slot whose request is attempted to the end. -/
def served (escalator : Escalator V) (cancelled : Bool) (a : Slot V) : Slot V :=
  if a.isReady then a
  else a.start.finish (settle (escalator.attempt a.request cancelled) cancelled)

/-- What an operation that cancels nothing can do to a slot: nothing to state and code, a move into
the queue, or an attempt that ended well or badly. -/
inductive Effect (a b : Slot V) : Prop where
  | kept (hstate : b.state = a.state) (hentry : b.entry = a.entry)
  | queued (h : a.state = .notRequested) (hstate : b.state = .queued) (hentry : b.entry = a.entry)
  | ready (h : a.entry = none) (hstate : b.state = .ready) (hentry : b.entry.isSome)
  | failed (h : a.entry = none) (e : NativeError) (hstate : b.state = .failed e)
      (hentry : b.entry = none)

variable {a b c : Slot V}

/-- An attempt at a slot without code ends well or badly; only the code before it matters. -/
theorem effect_attempt (ha : a.entry = none) (hb : b.entry = none) (escalator : Escalator V)
    (cancelled : Bool) : Effect a (b.served escalator cancelled) := by
  have hready : ¬ b.isReady = true := by simp [isReady, hb]
  have hstart : b.start = { b with state := .compiling } := if_neg hready
  rw [served, if_neg hready, hstart]
  cases settle (escalator.attempt b.request cancelled) cancelled with
  | ok entry => exact .ready ha rfl rfl
  | error e => exact .failed ha e rfl hb

theorem effect_served (escalator : Escalator V) (cancelled : Bool) :
    Effect a (a.served escalator cancelled) := by
  by_cases hr : a.isReady = true
  · rw [served, if_pos hr]
    exact .kept rfl rfl
  · have hnone : a.entry = none := by simpa [isReady] using hr
    exact effect_attempt hnone hnone escalator cancelled

theorem effect_markQueued (h : a.markQueued? = some b) : Effect a b := by
  obtain ⟨hn, rfl⟩ := markQueued?_eq_some h
  exact .queued hn rfl rfl

/-- Only state and code matter. -/
theorem Effect.congr (h : Effect a b) (hstate : c.state = b.state) (hentry : c.entry = b.entry) :
    Effect a c := by
  cases h with
  | kept hs he => exact .kept (hstate.trans hs) (hentry.trans he)
  | queued hn hs he => exact .queued hn (hstate.trans hs) (hentry.trans he)
  | ready hn hs he => exact .ready hn (hstate.trans hs) (hentry ▸ he)
  | failed hn e hs he => exact .failed hn e (hstate.trans hs) (hentry.trans he)

theorem Effect.of_kept (hstate : b.state = a.state) (hentry : b.entry = a.entry) (h : Effect b c) :
    Effect a c := by
  cases h with
  | kept hs he => exact .kept (hs.trans hstate) (he.trans hentry)
  | queued hn hs he => exact .queued (hstate ▸ hn) hs (he.trans hentry)
  | ready hn hs he => exact .ready (hentry ▸ hn) hs he
  | failed hn e hs he => exact .failed (hentry ▸ hn) e hs he

theorem truthful_drop (h : a.isReady = false) : a.drop.Truthful := by
  have hstate : a.drop.state = .failed .cancelled := rfl
  rw [Truthful, hstate, isReady_drop, h]
  simp

theorem misreported_drop (h : a.isReady = true) : a.drop.Misreported := ⟨rfl, h⟩

theorem Effect.truthful (h : Effect a b) (ha : a.Truthful) : b.Truthful := by
  unfold Truthful isReady at *
  cases h with
  | kept hs he => rw [hs, he]; exact ha
  | queued hn hs he =>
    rw [hn] at ha
    rw [hs, he]
    simpa using ha
  | ready hn hs he => simp [hs, he]
  | failed hn e hs he => simp [hs, he]

theorem Effect.misreported (h : Effect a b) (ha : a.Misreported) : b.Misreported := by
  obtain ⟨hstate, hready⟩ := ha
  cases h with
  | kept hs he => exact ⟨hs.trans hstate, by rw [isReady, he]; exact hready⟩
  | queued hn hs he =>
    rw [hstate] at hn
    cases hn
  | ready hn hs he => simp [isReady, hn] at hready
  | failed hn e hs he => simp [isReady, hn] at hready

end Slot

/-- No worker is in the middle of an attempt at the slot. -/
def Unheld (i : SlotRef) (s : Store H W) : Prop := ∀ w ∈ s.workers, w.busy ≠ some i

/-- The slot is there, nobody is at work at it, and it has gone through an effect. -/
def Changed (i : SlotRef) (a : Slot (Value H)) (s : Store H W) : Prop :=
  Unheld i s ∧ ∃ b, s.slots[i.number]? = some b ∧ a.Effect b

/-- The action cancels a worker that has the slot in its queue. -/
def Action.Drops (s : Store H W) (i : SlotRef) : Action H → Prop
  | .cancel ref => ∃ worker, s.workers[ref.number]? = some worker ∧ i ∈ worker.queue
  | _ => False

variable {i : SlotRef} {a : Slot (Value H)} {s : Store H W}

theorem Unheld.modifyWorker (h : Unheld i s) (ref : WorkerRef)
    {f : Worker (Value H) → Worker (Value H)} (hf : ∀ w, w.busy ≠ some i → (f w).busy ≠ some i) :
    Unheld i { s with workers := s.workers.modify ref.number f } := by
  intro w hw
  obtain ⟨j, hj⟩ := Array.mem_iff_getElem?.1 hw
  rw [Array.getElem?_modify] at hj
  cases hv : s.workers[j]? with
  | none => simp [hv] at hj
  | some v =>
    have hbusy := h v (Array.mem_of_getElem? hv)
    by_cases hr : ref.number = j
    · simp only [hv, hr, if_true, Option.map_some, Option.some.injEq] at hj
      rw [← hj]
      exact hf v hbusy
    · simp only [hv, hr, if_false, Option.some.injEq] at hj
      rw [← hj]
      exact hbusy

theorem changed_enqueue (ref : WorkerRef) (target : SlotRef) (hheld : Unheld i s)
    (ha : s.slots[i.number]? = some a) : Changed i a ((enqueue ref target).after s) := by
  have hsame : Changed i a s := ⟨hheld, a, ha, .kept rfl rfl⟩
  unfold enqueue
  rw [after_worker?]
  cases hw : s.workers[ref.number]? with
  | none => exact hsame
  | some worker =>
    cases hc : worker.cancelled with
    | true =>
      simp only [hc, if_true]
      exact hsame
    | false =>
      simp only [hc, Bool.false_eq_true, if_false]
      rw [after_slot?]
      cases hq : s.slots[target.number]?.bind Slot.markQueued? with
      | none => exact hsame
      | some queued =>
        obtain ⟨slot, hslot, hmark⟩ := Option.bind_eq_some_iff.1 hq
        have hat : target = i → slot = a := by
          rintro rfl
          rw [hslot] at ha
          exact Option.some.inj ha
        by_cases hroom : worker.queue.length < worker.capacity
        · simp only [hroom, if_true]
          refine ⟨hheld.modifyWorker ref fun _ h => h, _, getElem?_modifySlot ha target _, ?_⟩
          by_cases ht : target = i
          · rw [if_pos ht, ← hat ht]
            exact Slot.effect_markQueued hmark
          · rw [if_neg ht]
            exact .kept rfl rfl
        · simp only [hroom, if_false]
          refine ⟨hheld, _, getElem?_modifySlot ha target _, ?_⟩
          by_cases ht : target = i
          · rw [if_pos ht, ← hat ht]
            exact .kept (Slot.markQueued?_eq_some hmark).1.symm rfl
          · rw [if_neg ht]
            exact .kept rfl rfl

/-- An attempt that runs to its end leaves all workers alone, and all slots but its own. -/
theorem after_attempting (target : SlotRef) (escalator : Escalator (Value H)) (cancelled : Bool)
    {missing concluding : Run H W ε Unit} (hmissing : missing.after s = s)
    (hconcluding : ∀ t : Store H W,
      concluding.after t = (conclude target escalator cancelled).after t)
    (ha : s.slots[i.number]? = some a) :
    ((attempting target escalator missing concluding).after s).workers = s.workers ∧
      ((attempting target escalator missing concluding).after s).slots[i.number]? =
        some (if target = i then a.served escalator cancelled else a) := by
  by_cases hskip : ∀ slot, s.slots[target.number]? = some slot → slot.isReady = true
  · rw [after_attempting_of_ready target escalator concluding hmissing hskip]
    refine ⟨rfl, ha.trans (congrArg some ?_)⟩
    by_cases hi : target = i
    · subst hi
      rw [if_pos rfl, Slot.served, if_pos (hskip a ha)]
    · rw [if_neg hi]
  · simp only [not_forall] at hskip
    obtain ⟨b, hb, hready⟩ := hskip
    obtain ⟨gate, hafter⟩ := after_attempting_of_not_ready target escalator cancelled missing
      hconcluding hb (by simpa using hready)
    rw [hafter]
    refine ⟨rfl, ?_⟩
    rw [getElem?_modifySlot (getElem?_modifySlot ha target (·.start))]
    by_cases hi : target = i
    · subst hi
      obtain rfl : b = a := Option.some.inj (hb.symm.trans ha)
      simp [Slot.served, hready]
    · simp [hi]

theorem changed_take (ref : WorkerRef) (hheld : Unheld i s) (ha : s.slots[i.number]? = some a) :
    Changed i a ((take ref : Run H W ε Unit).after s) := by
  have hsame : Changed i a s := ⟨hheld, a, ha, .kept rfl rfl⟩
  unfold take
  rw [after_worker?]
  cases hw : s.workers[ref.number]? with
  | none => exact hsame
  | some worker =>
    cases hc : worker.cancelled with
    | true =>
      simp only [hc]
      exact hsame
    | false =>
      cases hb : worker.busy with
      | some held =>
        simp only [hc, hb]
        exact hsame
      | none =>
        cases hq : worker.queue with
        | nil =>
          simp only [hc, hb, hq]
          exact hsame
        | cons target rest =>
          simp only [hc, hb, hq, after_modifyWorker]
          have hheld' := hheld.modifyWorker ref (f := fun w => { w with queue := rest })
            fun _ h => h
          obtain ⟨hworkers, hslot⟩ := after_attempting (ε := ε) (s := { s with
            workers := s.workers.modify ref.number fun w => { w with queue := rest } }) target
            worker.escalator worker.cancelled (after_pure _ ()) (after_attempt_conclude _ _ _) ha
          refine ⟨fun w hw => hheld' w (hworkers ▸ hw), _, hslot, ?_⟩
          by_cases hi : target = i
          · rw [if_pos hi]
            exact Slot.effect_served _ _
          · rw [if_neg hi]
            exact .kept rfl rfl

theorem changed_escalate (target : SlotRef) (escalator : Escalator (Value H)) (hheld : Unheld i s)
    (ha : s.slots[i.number]? = some a) : Changed i a ((escalate target escalator).after s) := by
  -- the slot is requested first, as if somebody had asked for it
  have hmark : (a.markQueued?.getD a).entry = a.entry ∧ a.Effect (a.markQueued?.getD a) := by
    cases hq : a.markQueued? with
    | none => exact ⟨rfl, .kept rfl rfl⟩
    | some queued =>
      obtain ⟨-, rfl⟩ := Slot.markQueued?_eq_some hq
      exact ⟨rfl, Slot.effect_markQueued hq⟩
  have ha' := getElem?_modifySlot ha target fun slot => slot.markQueued?.getD slot
  rw [escalate_eq, after_modifySlot]
  obtain ⟨hworkers, hslot⟩ := after_attempting (s := { s with
    slots := s.slots.modify target.number fun slot => slot.markQueued?.getD slot }) target escalator
    false (after_fault _ .notEscalatable) (fun _ => rfl) ha'
  refine ⟨fun w hw => hheld w (hworkers ▸ hw), _, hslot, ?_⟩
  by_cases hi : target = i
  · simp only [hi, if_true]
    by_cases hready : (a.markQueued?.getD a).isReady = true
    · rw [Slot.served, if_pos hready]
      exact hmark.2
    · have hnone : (a.markQueued?.getD a).entry = none := by simpa [Slot.isReady] using hready
      exact Slot.effect_attempt (hmark.1 ▸ hnone) hnone escalator false
  · simp only [hi, if_false]
    exact .kept rfl rfl

theorem changed_countCall (target : SlotRef) (hheld : Unheld i s)
    (ha : s.slots[i.number]? = some a) :
    Changed i a ((countCall (fun worker target => do let _ ← enqueue worker target) target :
      Run H W ε Unit).after s) := by
  unfold countCall
  rw [after_slot?]
  cases s.slots[target.number]?.bind fun slot => slot.trigger.map fun t => (slot.calls + 1, t) with
  | none => exact ⟨hheld, a, ha, .kept rfl rfl⟩
  | some p =>
    obtain ⟨calls, trigger⟩ := p
    simp only [after_modifySlot]
    -- counting touches neither state nor code
    have hcount (k : Nat) {b : Slot (Value H)} {t : Store H W} (hb : t.slots[i.number]? = some b) :
        ∃ b', (t.slots.modify target.number fun s => { s with calls := k })[i.number]? = some b' ∧
          b'.state = b.state ∧ b'.entry = b.entry := by
      refine ⟨_, getElem?_modifySlot hb target _, ?_⟩
      by_cases hi : target = i <;> simp [hi]
    obtain ⟨b, hb, hstate, hentry⟩ := hcount calls ha
    by_cases hfull : calls = trigger.threshold
    · rw [if_pos hfull]
      have hkeeps : Run.Keeps (·.gate = s.gate)
          (do let _ ← enqueue trigger.worker target : Run H W NativeError Unit) :=
        (keeps_enqueue s.gate trigger.worker target).bind fun _ => Run.Always.keeps (.pure ())
      obtain ⟨r, hr⟩ := hkeeps.after_attempt (s := { s with
        slots := s.slots.modify target.number fun s => { s with calls } }) rfl _
      rw [hr, after_discard]
      obtain ⟨hheld', b', hb', heffect⟩ := changed_enqueue (s := { s with
        slots := s.slots.modify target.number fun s => { s with calls } }) trigger.worker target
        hheld hb
      have hchanged := Slot.Effect.of_kept hstate hentry heffect
      split
      · obtain ⟨b'', hb'', hstate', hentry'⟩ := hcount 0 hb'
        exact ⟨hheld', b'', hb'', hchanged.congr hstate' hentry'⟩
      · exact ⟨hheld', b', hb', hchanged⟩
    · rw [if_neg hfull]
      exact ⟨hheld, b, hb, .kept hstate hentry⟩

theorem getElem?_dropAll (queue : List SlotRef) {slots : Array (Slot V)} {a : Slot V}
    (ha : slots[i.number]? = some a) :
    (dropAll queue slots)[i.number]? = some (if i ∈ queue then a.drop else a) := by
  induction queue generalizing slots a with
  | nil => exact ha
  | cons target rest ih =>
    refine (ih (getElem?_modifySlot ha target (·.drop))).trans ?_
    by_cases hi : target = i
    · subst hi
      by_cases hmem : target ∈ rest <;> simp [hmem, Slot.drop]
    · have hi' : i ≠ target := Ne.symm hi
      simp [hi, hi']

/-- A cancellation fails the slot if it is in the queue, whatever else is known of it. -/
theorem cancel_cases (ref : WorkerRef) (hheld : Unheld i s) (ha : s.slots[i.number]? = some a) :
    Unheld i ((cancel ref : Run H W ε Unit).after s) ∧
      ((Action.cancel ref).Drops s i ∧
          ((cancel ref : Run H W ε Unit).after s).slots[i.number]? = some a.drop ∨
        ¬ (Action.cancel ref).Drops s i ∧
          ((cancel ref : Run H W ε Unit).after s).slots[i.number]? = some a) := by
  cases hw : s.workers[ref.number]? with
  | none =>
    have hsame : (cancel ref : Run H W ε Unit).after s = s := by
      unfold cancel
      rw [after_worker?, hw]
      rfl
    rw [hsame]
    refine ⟨hheld, .inr ⟨?_, ha⟩⟩
    rintro ⟨worker, hworker, -⟩
    rw [hw] at hworker
    cases hworker
  | some worker =>
    have hdrops : (Action.cancel ref).Drops s i ↔ i ∈ worker.queue := by simp [Action.Drops, hw]
    have hbusy : worker.busy ≠ some i := hheld worker (Array.mem_of_getElem? hw)
    -- the request that is held is another one
    have hslot : (worker.busy.elim s.slots fun held =>
        s.slots.modify held.number (·.finish (.error .cancelled)))[i.number]? = some a := by
      cases hb : worker.busy with
      | none => exact ha
      | some held =>
        have hne : held ≠ i := fun h => hbusy (hb.trans (congrArg some h))
        exact (getElem?_modifySlot ha held _).trans (congrArg some (if_neg hne))
    have hheld' := hheld.modifyWorker ref (f := stopped) fun _ _ h => by cases h
    rw [after_cancel hw]
    refine ⟨hheld', ?_⟩
    rw [hdrops, getElem?_dropAll worker.queue hslot]
    by_cases hmem : i ∈ worker.queue
    · exact .inl ⟨hmem, by rw [if_pos hmem]⟩
    · exact .inr ⟨hmem, by rw [if_neg hmem]⟩

/-- One action has an effect on the slot, unless it is a cancellation that finds the slot in the
queue: then the slot is failed, and keeps its code if it has any. -/
theorem Action.after_cases (action : Action H) (hheld : Unheld i s)
    (ha : s.slots[i.number]? = some a) :
    Unheld i (action.after s) ∧ ∃ b, (action.after s).slots[i.number]? = some b ∧
      (¬ action.Drops s i ∧ a.Effect b ∨ action.Drops s i ∧ b = a.drop) := by
  -- all but a cancellation have an effect
  have hchanged {t : Store H W} (hdrops : ¬ action.Drops s i) (h : Changed i a t) :
      Unheld i t ∧ ∃ b, t.slots[i.number]? = some b ∧
        (¬ action.Drops s i ∧ a.Effect b ∨ action.Drops s i ∧ b = a.drop) := by
    obtain ⟨hheld', b, hb, heffect⟩ := h
    exact ⟨hheld', b, hb, .inl ⟨hdrops, heffect⟩⟩
  cases action with
  | hire escalator capacity =>
    refine hchanged id ⟨fun w hw => ?_, a, ha, .kept rfl rfl⟩
    obtain hw | rfl := Array.mem_push.1 hw
    · exact hheld w hw
    · exact fun h => by cases h
  | request worker target =>
    refine hchanged id ?_
    rw [after, run, after_discard]
    exact changed_enqueue worker target hheld ha
  | call target => exact hchanged id (changed_countCall target hheld ha)
  | take worker => exact hchanged id (changed_take worker hheld ha)
  | escalate target escalator => exact hchanged id (changed_escalate target escalator hheld ha)
  | cancel worker =>
    obtain ⟨hheld', ⟨hdrops, hb⟩ | ⟨hdrops, hb⟩⟩ := cancel_cases (ε := NativeError) worker hheld ha
    · exact ⟨hheld', _, hb, .inr ⟨hdrops, rfl⟩⟩
    · exact ⟨hheld', _, hb, .inl ⟨hdrops, .kept rfl rfl⟩⟩

/-- At some point of the history, a cancelled worker finds the slot in its queue although the
slot has native code. -/
def Overwritten (i : SlotRef) (s : Store H W) (actions : List (Action H)) : Prop :=
  ∃ before action later, actions = before ++ action :: later ∧
    action.Drops (afterAll before s) i ∧
    ∃ slot, (afterAll before s).slots[i.number]? = some slot ∧ slot.isReady = true

theorem overwritten_append (actions : List (Action H)) (action : Action H) :
    Overwritten i s (actions ++ [action]) ↔ Overwritten i s actions ∨
      action.Drops (afterAll actions s) i ∧
        ∃ slot, (afterAll actions s).slots[i.number]? = some slot ∧ slot.isReady = true :=
  exists_split_concat actions action

/-- The slot of a closure that nobody has asked to escalate yet. -/
structure Fresh (i : SlotRef) (s : Store H W) : Prop where
  slot : ∃ a, s.slots[i.number]? = some a ∧ a.state = .notRequested ∧ a.entry = none
  unheld : Unheld i s

/-- Through every history the slot is truthful until it is overwritten, and misreported from then
on. -/
theorem Fresh.afterAll (h : Fresh i s) (actions : List (Action H)) :
    Unheld i (afterAll actions s) ∧ ∃ b, (afterAll actions s).slots[i.number]? = some b ∧
      (¬ Overwritten i s actions ∧ b.Truthful ∨ Overwritten i s actions ∧ b.Misreported) := by
  induction actions using List.reverseRecOn with
  | nil =>
    obtain ⟨a, ha, hstate, hentry⟩ := h.slot
    refine ⟨h.unheld, a, ha, .inl ⟨?_, ?_⟩⟩
    · rintro ⟨before, action, later, hsplit, -⟩
      simp at hsplit
    · simp [Slot.Truthful, Slot.isReady, hstate, hentry]
  | append_singleton actions action ih =>
    obtain ⟨hheld, a, ha, hcase⟩ := ih
    obtain ⟨hheld', b, hb, hstep⟩ := action.after_cases hheld ha
    rw [afterAll_append]
    refine ⟨hheld', b, hb, ?_⟩
    rw [overwritten_append]
    have hfound : (∃ slot, (Native.afterAll actions s).slots[i.number]? = some slot ∧
        slot.isReady = true) ↔ a.isReady = true := by simp [ha]
    rw [hfound]
    obtain ⟨hno, htruthful⟩ | ⟨hyes, hmis⟩ := hcase
    · obtain ⟨hdrops, heffect⟩ | ⟨hdrops, rfl⟩ := hstep
      · exact .inl ⟨by simp [hno, hdrops], heffect.truthful htruthful⟩
      · cases hready : a.isReady with
        | true => exact .inr ⟨.inr ⟨hdrops, rfl⟩, Slot.misreported_drop hready⟩
        | false => exact .inl ⟨by simp [hno], Slot.truthful_drop hready⟩
    · obtain ⟨-, heffect⟩ | ⟨-, rfl⟩ := hstep
      · exact .inr ⟨.inl hyes, heffect.misreported hmis⟩
      · exact .inr ⟨.inl hyes, Slot.misreported_drop hmis.2⟩

section Reports

variable {f : Function H} (hf : f.slot = some i) (ha : s.slots[i.number]? = some a)
include hf ha

theorem state_apply : (f.state : Run H W ε SlotState) s = .ok a.state s := by
  unfold Function.state
  rw [hf]
  refine (Run.bind_apply_ok (slot?_apply i s)).trans ?_
  rw [ha]
  rfl

theorem isNative_apply : (f.isNative : Run H W ε Bool) s = .ok a.isReady s := by
  unfold Function.isNative
  rw [hf]
  refine (Run.bind_apply_ok (slot?_apply i s)).trans ?_
  rw [ha]
  rfl

/-- A call of a closure without native code is left to the interpreter. -/
theorem tryNative_apply (hready : a.isReady = false) (args : List (Value H)) :
    ∃ t, Evaluation.tryNative f args s = .ok none t := by
  have hnone : s.slots[i.number]?.bind (·.callNative args) = none := by
    rw [ha]
    exact Slot.callNative_of_not_ready hready args
  have hcount : Run.Always (Escalated (fun _ => True) s) (recordCall i : Run H W EvalError Unit) :=
    always_recordCall i
  obtain ⟨_, t, ht, -⟩ := hcount s (.refl fun _ _ => trivial)
  refine ⟨t, ?_⟩
  unfold Evaluation.tryNative
  rw [hf]
  refine (Run.bind_apply_ok (slot?_apply i s)).trans ?_
  simp only [hnone]
  exact Run.bind_apply_ok ht

end Reports

/-- What a closure reports after any history of whole operations: that it is ready, exactly if its
calls go to native code, unless a cancelled worker found the slot in its queue after it had been
escalated on the spot. Then it reports to be cancelled for good while its calls go to native code. -/
theorem state_ready_iff_native {f : Function H} {i : SlotRef} (hf : f.slot = some i)
    {s : Store H W} (hfresh : Fresh i s) (actions : List (Action H)) :
    ∃ state native,
      (f.state : Run H W Empty SlotState) (afterAll actions s) = .ok state (afterAll actions s) ∧
      (f.isNative : Run H W Empty Bool) (afterAll actions s) = .ok native (afterAll actions s) ∧
      ((state = .ready ↔ native = true) ↔ ¬ Overwritten i s actions) ∧
      (state = .ready → native = true) ∧
      (¬ Overwritten i s actions → state ≠ .ready →
        ∀ args, ∃ t, Evaluation.tryNative f args (afterAll actions s) = .ok none t) ∧
      (Overwritten i s actions → state = .failed .cancelled ∧ native = true) := by
  obtain ⟨-, b, hb, hcase⟩ := hfresh.afterAll actions
  refine ⟨b.state, b.isReady, state_apply hf hb, isNative_apply hf hb, ?_⟩
  obtain ⟨hno, htruthful⟩ | ⟨hyes, hmis⟩ := hcase
  · refine ⟨iff_of_true htruthful hno, htruthful.1, fun _ hstate => ?_, fun h => absurd h hno⟩
    exact tryNative_apply hf hb (by simpa using mt htruthful.2 hstate)
  · refine ⟨iff_of_false hmis.not_truthful (fun h => h hyes), fun h => ?_, fun h => absurd hyes h,
      fun _ => hmis⟩
    rw [hmis.1] at h
    cases h

namespace Waiting

def slot : Slot (Value Empty) where
  request := { params := ["x"], body := .ident .unknown "x", marshal := valueMarshal }
  trigger := none

def closure : Function Empty :=
  .mk (.made 0) { name := "closure", arity := .fixed 1, isPure := false, slot := some ⟨0⟩ }
    (.code ["x"] (.var .unknown "x" none) [])

/-- Every attempt succeeds. -/
def willing : Escalator (Value Empty) := { attempt := fun _ _ => .ok fun _ => 0 }

def refusing : Escalator (Value Empty) := { attempt := fun _ _ => .error .disabled }

/-- One closure and one worker. -/
def store : Store Empty Unit where
  slots := #[slot]
  workers := #[{ escalator := willing, capacity := 1 }]
  world := ()

theorem fresh : Fresh ⟨0⟩ store := by
  refine ⟨⟨slot, rfl, rfl, rfl⟩, fun w hw => ?_⟩
  obtain rfl : w = { escalator := willing, capacity := 1 } := by simpa [store] using hw
  exact fun h => by cases h

/-- The request waits, an attempt on the spot fails, the worker serves it after all. -/
def served : List (Action Empty) :=
  [.request ⟨0⟩ ⟨0⟩, .escalate ⟨0⟩ refusing, .take ⟨0⟩, .cancel ⟨0⟩]

/-- The request waits, an attempt on the spot succeeds, the worker is cancelled. -/
def overtaken : List (Action Empty) := [.request ⟨0⟩ ⟨0⟩, .escalate ⟨0⟩ willing, .cancel ⟨0⟩]

end Waiting

theorem state_ready_iff_native_served :
    Waiting.closure.slot = some ⟨0⟩ ∧ Fresh ⟨0⟩ Waiting.store ∧
      (Waiting.closure.state : Run Empty Unit Empty SlotState)
          (afterAll Waiting.served Waiting.store) =
        .ok .ready (afterAll Waiting.served Waiting.store) ∧
      (Waiting.closure.isNative : Run Empty Unit Empty Bool)
          (afterAll Waiting.served Waiting.store) =
        .ok true (afterAll Waiting.served Waiting.store) ∧
      ¬ Overwritten ⟨0⟩ Waiting.store Waiting.served := by
  obtain ⟨state, native, hstate, hnative, hiff, -⟩ :=
    state_ready_iff_native (f := Waiting.closure) rfl Waiting.fresh Waiting.served
  have hready : state = .ready := by
    cases hstate
    rfl
  have hcode : native = true := by
    cases hnative
    rfl
  exact ⟨rfl, Waiting.fresh, rfl, rfl, hiff.1 (iff_of_true hready hcode)⟩

/-- The closure reports that its escalation was cancelled, and has native code. -/
theorem state_cancelled_native :
    Fresh ⟨0⟩ Waiting.store ∧
      (Waiting.closure.state : Run Empty Unit Empty SlotState)
          (afterAll Waiting.overtaken Waiting.store) =
        .ok (.failed .cancelled) (afterAll Waiting.overtaken Waiting.store) ∧
      (Waiting.closure.isNative : Run Empty Unit Empty Bool)
          (afterAll Waiting.overtaken Waiting.store) =
        .ok true (afterAll Waiting.overtaken Waiting.store) := ⟨Waiting.fresh, rfl, rfl⟩

end Native

end Formula
