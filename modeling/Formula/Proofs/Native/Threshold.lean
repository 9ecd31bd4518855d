import Formula.Dialect.Standard
import Formula.Proofs.Native.Steps
import Formula.Proofs.Native.Watching

/-!
The call threshold. A slot counts its interpreted calls, and is queued by the call with which the
count reaches the threshold. The count is compared for equality, so a slot that was left not
requested with a count at or beyond the threshold would never be queued again. This does not happen:
in any order of calls, requests and steps of the workers the count of a slot that is not requested
stays below the threshold, because a full queue starts it again. And a slot that was requested once
never becomes not requested again, so it goes into a queue at most once.
-/
namespace Formula
namespace Native

variable {H W V : Type} {i : SlotRef} {t : Trigger} {s : Store H W} {a : Slot (Value H)}

/-- A slot that was requested stays so. -/
theorem Moves.requested {e : Event} {a b : Slot V} (h : Moves i t e a b)
    (ha : a.state ≠ .notRequested) : b.state ≠ .notRequested := by
  cases h with
  | kept _ hstate => rwa [hstate]
  | counted _ hstate => rwa [hstate]
  | accepted hn => exact absurd hn ha
  | restarted _ hn => exact absurd hn ha
  | served _ _ hb => exact hb

theorem Watched.run (h : Watched i t s a) (events : List Event) :
    ∃ b, Watched i t (afterEvents events s) b ∧
      (a.state ≠ .notRequested → b.state ≠ .notRequested) := by
  induction events generalizing s a with
  | nil => exact ⟨a, h, id⟩
  | cons e events ih =>
    obtain ⟨b, hb, hmoves, -⟩ := h.leads e
    obtain ⟨c, hc, hrequested⟩ := ih hb
    exact ⟨c, hc, fun ha => hrequested (hmoves.requested ha)⟩

/-- The event at this place of a run takes the slot into a queue. -/
def AcceptedAt (i : SlotRef) (events : List Event) (s : Store H W) (k : Nat) : Prop :=
  Accepted i (afterEvents (events.take k) s) (afterEvents (events.take (k + 1)) s)

theorem AcceptedAt.exists_event {events : List Event} {k : Nat} (h : AcceptedAt i events s k) :
    ∃ e, events[k]? = some e := by
  cases he : events[k]? with
  | some e => exact ⟨e, rfl⟩
  | none =>
    have hlength : events.length ≤ k := List.getElem?_eq_none_iff.1 he
    unfold AcceptedAt at h
    rw [List.take_of_length_le hlength, List.take_of_length_le (by omega)] at h
    exact absurd h (not_accepted_of_workers rfl)

/-- Once the slot was taken into a queue it is never taken into one again. -/
theorem Watched.not_acceptedAt_later (h : Watched i t s a) {events : List Event} {k l : Nat}
    (hk : AcceptedAt i events s k) (hkl : k < l) : ¬ AcceptedAt i events s l := by
  intro hl
  obtain ⟨e, he⟩ := hk.exists_event
  obtain ⟨e', he'⟩ := hl.exists_event
  obtain ⟨a, ha, -⟩ := h.run (events.take k)
  obtain ⟨b, hb, -, hfirst⟩ := ha.leads e
  -- the events between the two
  have htake : events.take l = events.take (k + 1) ++ (events.take l).drop (k + 1) := by
    conv_lhs => rw [← List.take_append_drop (k + 1) (events.take l)]
    rw [List.take_take, Nat.min_eq_left hkl]
  obtain ⟨c, hc, hrequested⟩ := hb.run ((events.take l).drop (k + 1))
  rw [← afterEvents_take_succ he, ← afterEvents_append, ← htake] at hc
  obtain ⟨d, -, -, hsecond⟩ := hc.leads e'
  unfold AcceptedAt at hk hl
  rw [afterEvents_take_succ he] at hk
  rw [afterEvents_take_succ he'] at hl
  have hqueued : b.state = .queued := (hfirst.1 hk).2
  have hnew : c.state = .notRequested := (hsecond.1 hl).1
  refine hrequested ?_ hnew
  rw [hqueued]
  simp

/-- Some event of a run submits the slot: a call with which its count reaches the threshold, or a
request that is accepted. -/
def Submitted (i : SlotRef) (t : Trigger) (s : Store H W) (events : List Event) : Prop :=
  ∃ before e later, events = before ++ e :: later ∧
    ((e = .call i ∧ ∃ a, (afterEvents before s).slots[i.number]? = some a ∧
        a.state = .notRequested ∧ a.calls + 1 = t.threshold) ∨
      Accepted i (afterEvents before s) (afterEvents (before ++ [e]) s))

theorem Submitted.cons {e : Event} {events : List Event} (h : Submitted i t (e.after s) events) :
    Submitted i t s (e :: events) := by
  obtain ⟨before, e', later, rfl, hsubmits⟩ := h
  exact ⟨e :: before, e', later, rfl, hsubmits⟩

/-- As many calls as are missing to the threshold submit the slot. -/
theorem Watched.submitted (h : Watched i t s a) (hstate : a.state = .notRequested)
    {events : List Event} (hcount : t.threshold ≤ a.calls + events.count (.call i)) :
    Submitted i t s events := by
  induction events generalizing s a with
  | nil =>
    have hbelow := h.below hstate
    rw [List.count_nil] at hcount
    omega
  | cons e events ih =>
    obtain ⟨b, hb, hmoves, haccepted⟩ := h.leads e
    cases hmoves with
    | kept he hsame hcalls =>
      refine (ih hb (hsame.trans hstate) ?_).cons
      rwa [hcalls, ← List.count_cons_of_ne he]
    | counted he hsame hcalls =>
      refine (ih hb (hsame.trans hstate) ?_).cons
      subst he
      rw [List.count_cons_self] at hcount
      omega
    | accepted ha hqueued =>
      exact ⟨[], e, events, rfl, .inr (haccepted.2 ⟨ha, hqueued⟩)⟩
    | restarted he ha hreached =>
      exact ⟨[], e, events, rfl, .inl ⟨he, a, h.slot, ha, hreached⟩⟩
    | served _ ha => exact absurd hstate ha

/-- A slot that was neither called nor requested yet, with a threshold and a running worker. -/
structure Uncalled (i : SlotRef) (t : Trigger) (s : Store H W) : Prop where
  slot : ∃ a, s.slots[i.number]? = some a ∧ a.trigger = some t ∧ a.state = .notRequested ∧
    a.calls = 0
  threshold : 1 ≤ t.threshold
  running : ∃ w, s.workers[t.worker.number]? = some w ∧ w.cancelled = false
  absent : ∀ w ∈ s.workers, i ∉ w.queue ∧ w.busy ≠ some i

theorem Uncalled.watched (h : Uncalled i t s) : ∃ a, Watched i t s a := by
  obtain ⟨a, hslot, htrigger, -, hcalls⟩ := h.slot
  have hthreshold := h.threshold
  exact ⟨a, hslot, htrigger, h.running, fun _ => by omega, fun _ => h.absent⟩

/-- In any order of calls, requests and steps of workers, the count of a slot that is not requested
is below the threshold, so that as many calls as are missing submit the slot. The call that reaches
the threshold queues it, or starts the count again if the queue is full. Over the whole run the slot
goes into a queue at most once. The operations that run are such events, in such an order. -/
theorem threshold_never_missed (h : Uncalled i t s) (events : List Event) :
    (∃ a, (afterEvents events s).slots[i.number]? = some a ∧
      (a.state = .notRequested →
        a.calls < t.threshold ∧
        (∀ later : List Event, t.threshold ≤ a.calls + later.count (.call i) →
          Submitted i t (afterEvents events s) later) ∧
        (a.calls + 1 = t.threshold → ∃ w b,
          (afterEvents events s).workers[t.worker.number]? = some w ∧
          (afterEvents (events ++ [.call i]) s).slots[i.number]? = some b ∧
          if w.queue.length < w.capacity then
            b.state = .queued ∧
              Accepted i (afterEvents events s) (afterEvents (events ++ [.call i]) s)
          else b.state = .notRequested ∧ b.calls = 0))) ∧
    (∀ k l, AcceptedAt i events s k → AcceptedAt i events s l → k = l) ∧
    (∀ (e : Event) (o : Op H), e.op = some o → ∀ u : Store H W,
      ∃ steps, (∀ e ∈ steps, (e.op : Option (Op H)) = none) ∧
        o.after u = afterEvents (e :: steps) u) := by
  obtain ⟨a₀, h₀⟩ := h.watched
  obtain ⟨a, ha, -⟩ := h₀.run events
  refine ⟨⟨a, ha.slot, fun hstate => ⟨ha.below hstate, ?_, ?_⟩⟩, ?_, ?_⟩
  · intro later hcount
    exact ha.submitted hstate hcount
  · intro hreached
    obtain ⟨w, b, hw, hb, houtcome⟩ := ha.call_reaching hstate hreached
    refine ⟨w, b, hw, ?_⟩
    rw [afterEvents_append, afterEvents_cons, afterEvents_nil]
    refine ⟨hb.slot, ?_⟩
    obtain ⟨hroom, hqueued, hacc⟩ | ⟨hfull, hkept, hzero, -⟩ := houtcome
    · rw [if_pos hroom]
      exact ⟨hqueued, hacc⟩
    · rw [if_neg (Nat.not_lt.2 hfull)]
      exact ⟨hkept, hzero⟩
  · intro k l hk hl
    by_contra hne
    obtain hlt | hlt := Nat.lt_or_gt_of_ne hne
    · exact h₀.not_acceptedAt_later hk hlt hl
    · exact h₀.not_acceptedAt_later hl hlt hk
  · intro e o he u
    exact Op.exists_steps he u

namespace Crowded

def slot : Slot (Value Empty) where
  request := { params := ["x"], body := .ident .unknown "x", marshal := valueMarshal }
  trigger := some { worker := ⟨0⟩, threshold := 2 }

/-- Two closures, and a worker whose queue holds one request. -/
def store : Store Empty Unit where
  slots := #[slot, slot]
  workers := #[{ escalator := { attempt := fun _ _ => .ok fun _ => 0 }, capacity := 1 }]
  world := ()

/-- The queue is taken by the other closure when the first one has been called once. -/
def taken : List Event := [.request ⟨0⟩ ⟨1⟩, .call ⟨0⟩]

/-- The worker serves the other closure, and two more calls queue the first one, which is served
too and called on. -/
def events : List Event :=
  taken ++ [.call ⟨0⟩, .receive ⟨0⟩, .call ⟨0⟩, .complete ⟨0⟩, .call ⟨0⟩, .receive ⟨0⟩, .call ⟨0⟩,
    .complete ⟨0⟩, .request ⟨0⟩ ⟨0⟩, .call ⟨0⟩]

theorem uncalled : Uncalled ⟨0⟩ { worker := ⟨0⟩, threshold := 2 } store := by
  refine ⟨⟨slot, rfl, rfl, rfl, rfl⟩, by decide, ⟨_, rfl, rfl⟩, fun w hw => ?_⟩
  have hidle : w.queue = [] ∧ w.busy = none := by
    simp only [store, List.mem_toArray, List.mem_singleton] at hw
    rw [hw]
    exact ⟨rfl, rfl⟩
  rw [hidle.1, hidle.2]
  simp

end Crowded

theorem threshold_never_missed_crowded :
    Uncalled ⟨0⟩ { worker := ⟨0⟩, threshold := 2 } Crowded.store ∧
      (∃ b, (afterEvents (Crowded.taken ++ [.call ⟨0⟩]) Crowded.store).slots[0]? = some b ∧
        b.state = .notRequested ∧ b.calls = 0) ∧
      AcceptedAt ⟨0⟩ Crowded.events Crowded.store 6 ∧
      ∀ k, AcceptedAt ⟨0⟩ Crowded.events Crowded.store k → k = 6 := by
  have haccepted : AcceptedAt ⟨0⟩ Crowded.events Crowded.store 6 := ⟨⟨0⟩, _, _, rfl, rfl, rfl⟩
  obtain ⟨⟨a, ha, hcount⟩, -⟩ := threshold_never_missed Crowded.uncalled Crowded.taken
  obtain ⟨-, honce, -⟩ := threshold_never_missed Crowded.uncalled Crowded.events
  refine ⟨Crowded.uncalled, ?_, haccepted, fun k hk => honce k 6 hk haccepted⟩
  cases ha
  obtain ⟨-, -, hreached⟩ := hcount rfl
  obtain ⟨w, b, hw, hb, houtcome⟩ := hreached rfl
  cases hw
  exact ⟨b, hb, houtcome⟩

end Native

end Formula
