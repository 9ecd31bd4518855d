import Formula.Proofs.Native.Requests

/-!
A worker, cancellations and any number of submissions that take turns at every atomic step: a read
of the flag, a change of one slot's state, a send, a receive. A slot that waits is held in exactly
one place, by a submission, by the queue or by the worker. Once the worker has ended and all
submissions have returned, the only place left is the queue. What is still there was sent after the
worker had found the queue empty and before it gave the queue up, and waits for ever.
-/
namespace Formula
namespace Native

variable {V : Type}

/-- How far a submission has come. -/
inductive Submission where
  | entered (target : SlotRef)
  | admitted (target : SlotRef)
  | marked (target : SlotRef)
  | refused (target : SlotRef) (e : NativeError)
  | returned (result : Except NativeError Unit)

/-- How far the worker has come. It drops what it gets once it has seen the flag, and drains its
queue before it gives it up. -/
inductive Stage (V : Type) where
  | waiting
  | received (target : SlotRef)
  | refusing (target : SlotRef)
  | starting (target : SlotRef)
  | running (target : SlotRef) (request : Request V)
  | attempted (target : SlotRef) (outcome : Except NativeError Entry)
  | settled (target : SlotRef) (outcome : Except NativeError Entry)
  | draining
  | discarding (target : SlotRef)
  | drained
  | ended

/-- Messages on the way are those in the worker's queue and at most one that tells it to stop. -/
structure System (V : Type) where
  slots : Array (Slot V)
  worker : Worker V
  stage : Stage V := .waiting
  calls : List Submission := []
  /-- Cancellations that have raised the flag and not sent the message yet. -/
  signals : Nat := 0
  signalled : Bool := false

/-- Whose turn it is. -/
inductive Turn where
  | submit (target : SlotRef)
  | advance (call : Nat)
  | cancel
  | signal
  | heed
  | receive
  | proceed
  deriving DecidableEq, Repr

def Submission.isReturned : Submission → Bool
  | .returned _ => true
  | _ => false

namespace System

def setCall (s : System V) (n : Nat) (c : Submission) : System V :=
  { s with calls := s.calls.set n c }

def setQueue (s : System V) (queue : List SlotRef) : System V :=
  { s with worker := { s.worker with queue } }

def setStage (s : System V) (stage : Stage V) : System V := { s with stage }

def modifySlot (s : System V) (target : SlotRef) (f : Slot V → Slot V) : System V :=
  { s with slots := s.slots.modify target.number f }

/-- A send. The queue refuses it if it is full or if the worker has given it up. -/
def send (s : System V) (n : Nat) (target : SlotRef) : System V :=
  match s.stage with
  | .ended => s.setCall n (.refused target .workerStopped)
  | _ =>
    if s.worker.queue.length < s.worker.capacity then
      (s.setQueue (s.worker.queue ++ [target])).setCall n (.returned (.ok ()))
    else s.setCall n (.refused target .queueFull)

def advance (s : System V) (n : Nat) : Submission → Option (System V)
  | .entered target =>
    if s.worker.cancelled then some (s.setCall n (.returned (.error .workerStopped)))
    else some (s.setCall n (.admitted target))
  | .admitted target =>
    match s.slots[target.number]?.bind Slot.markQueued? with
    | none => some (s.setCall n (.returned (.ok ())))
    | some queued => some ((s.modifySlot target fun _ => queued).setCall n (.marked target))
  | .marked target => some (s.send n target)
  | .refused target e => some ((s.modifySlot target (·.reset)).setCall n (.returned (.error e)))
  | .returned _ => none

/-- A step of the worker other than a receive. The escalator sees the flag as it is at some point
of the attempt, and the flag is looked at again before its code is installed. -/
def proceed (s : System V) : Option (System V) :=
  match s.stage with
  | .waiting | .ended => none
  | .received target =>
    some (s.setStage (if s.worker.cancelled then .refusing target else .starting target))
  | .refusing target => some ((s.modifySlot target (·.drop)).setStage .draining)
  | .starting target =>
    match s.slots[target.number]? with
    | none => some (s.setStage .waiting)
    | some slot =>
      if slot.isReady then some (s.setStage .waiting)
      else some ((s.modifySlot target (·.start)).setStage (.running target slot.request))
  | .running target request =>
    some (s.setStage (.attempted target (s.worker.escalator.attempt request s.worker.cancelled)))
  | .attempted target outcome =>
    some (s.setStage (.settled target (Slot.settle outcome s.worker.cancelled)))
  | .settled target outcome => some ((s.modifySlot target (·.finish outcome)).setStage .waiting)
  | .draining =>
    match s.worker.queue with
    | [] => some (s.setStage .drained)
    | target :: rest => some ((s.setQueue rest).setStage (.discarding target))
  | .discarding target => some ((s.modifySlot target (·.drop)).setStage .draining)
  | .drained => some (s.setStage .ended)

/-- The worker leaves a slot alone that has code already. -/
theorem proceed_skip {s : System V} {target : SlotRef} (hstage : s.stage = .starting target)
    (h : ∀ slot, s.slots[target.number]? = some slot → slot.isReady = true) :
    s.proceed = some (s.setStage .waiting) := by
  unfold proceed
  simp only [hstage]
  cases hslot : s.slots[target.number]? with
  | none => rfl
  | some slot => exact if_pos (h slot hslot)

theorem proceed_start {s : System V} {target : SlotRef} {slot : Slot V}
    (hstage : s.stage = .starting target) (hslot : s.slots[target.number]? = some slot)
    (hready : slot.isReady = false) :
    s.proceed =
      some ((s.modifySlot target (·.start)).setStage (.running target slot.request)) := by
  unfold proceed
  simp only [hstage, hslot, hready, Bool.false_eq_true, if_false]

/-- The state after a turn; `none` if the party cannot move. -/
def step (s : System V) : Turn → Option (System V)
  | .submit target => some { s with calls := s.calls ++ [.entered target] }
  | .advance n => s.calls[n]?.bind (s.advance n)
  | .cancel =>
    some { s with worker := { s.worker with cancelled := true }, signals := s.signals + 1 }
  | .signal =>
    match s.signals with
    | 0 => none
    | n + 1 => some { s with signals := n, signalled := true }
  | .heed =>
    match s.stage, s.signalled with
    | .waiting, true => some { s with stage := .draining, signalled := false }
    | _, _ => none
  | .receive =>
    match s.stage, s.worker.queue with
    | .waiting, target :: rest => some ((s.setQueue rest).setStage (.received target))
    | _, _ => none
  | .proceed => s.proceed

def run (s : System V) (turns : List Turn) : Option (System V) := turns.foldlM step s

theorem run_append {s : System V} (turns : List Turn) (turn : Turn) :
    s.run (turns ++ [turn]) = (s.run turns).bind (·.step turn) := by
  simp [run, List.foldlM_append, bind]

end System

/-- Counts the slot if the submission holds it: it has marked it and not passed it on. -/
def Submission.tokens (i : SlotRef) : Submission → Nat
  | .marked target | .refused target _ => if target = i then 1 else 0
  | _ => 0

/-- Counts the slot if the worker has taken it from the queue and not started it. -/
def Stage.tokens (i : SlotRef) : Stage V → Nat
  | .received target | .refusing target | .starting target | .discarding target =>
    if target = i then 1 else 0
  | _ => 0

def Stage.compiling : Stage V → Option SlotRef
  | .running target _ | .attempted target _ | .settled target _ => some target
  | _ => none

/-- In how many places the slot is held. -/
def System.tokens (i : SlotRef) (s : System V) : Nat :=
  s.calls.foldr (fun c k => c.tokens i + k) 0 + s.worker.queue.count i + s.stage.tokens i

/-- No attempt has ended yet. -/
def SlotState.isPending : SlotState → Bool
  | .notRequested | .queued | .compiling => true
  | .ready | .failed _ => false

/-- The slot waits exactly if it is held, in one place; it is compiling exactly if the worker is at
it; and it has no code before an attempt has ended. -/
structure Sound (i : SlotRef) (a : Slot V) (s : System V) : Prop where
  slot : s.slots[i.number]? = some a
  tokens : s.tokens i = if a.state = .queued then 1 else 0
  compiling : a.state = .compiling ↔ s.stage.compiling = some i
  pending : a.state.isPending = true → a.entry = none

section Steps

variable {i : SlotRef} {a : Slot V} {s t : System V}

theorem foldr_tokens_set {calls : List Submission} {n : Nat} {c : Submission}
    (h : calls[n]? = some c) (c' : Submission) :
    (calls.set n c').foldr (fun c k => c.tokens i + k) 0 + c.tokens i =
      calls.foldr (fun c k => c.tokens i + k) 0 + c'.tokens i := by
  induction calls generalizing n with
  | nil => simp at h
  | cons d calls ih =>
    cases n with
    | zero =>
      obtain rfl : d = c := by simpa using h
      simp only [List.set_cons_zero, List.foldr_cons]
      omega
    | succ n =>
      have hrest := ih (n := n) (by simpa using h)
      simp only [List.set_cons_succ, List.foldr_cons]
      omega

theorem tokens_setCall {n : Nat} {c : Submission} (h : s.calls[n]? = some c) (c' : Submission) :
    (s.setCall n c').tokens i + c.tokens i = s.tokens i + c'.tokens i := by
  have hcalls := foldr_tokens_set (i := i) h c'
  simp only [System.tokens, System.setCall]
  omega

/-- A step that leaves the slots alone and passes a token on, if any. -/
theorem Sound.keep (h : Sound i a s) (hslots : t.slots = s.slots)
    (htokens : t.tokens i = s.tokens i) (hcompiling : t.stage.compiling = s.stage.compiling) : Sound i a t where
  slot := hslots ▸ h.slot
  tokens := htokens.trans h.tokens
  compiling := by rw [hcompiling]; exact h.compiling
  pending := h.pending

/-- A step that changes one slot. -/
theorem Sound.change (h : Sound i a s) (target : SlotRef) (f : Slot V → Slot V)
    (hslots : t.slots = s.slots.modify target.number f)
    (hother : target ≠ i → t.tokens i = s.tokens i ∧
      (t.stage.compiling = some i ↔ s.stage.compiling = some i))
    (hself : target = i → (t.tokens i = if (f a).state = .queued then 1 else 0) ∧
      ((f a).state = .compiling ↔ t.stage.compiling = some i) ∧
      ((f a).state.isPending = true → (f a).entry = none)) :
    ∃ b, Sound i b t := by
  have hslot := getElem?_modifySlot h.slot target f
  rw [← hslots] at hslot
  by_cases hi : target = i
  · rw [if_pos hi] at hslot
    obtain ⟨htokens, hcompiling, hpending⟩ := hself hi
    exact ⟨f a, hslot, htokens, hcompiling, hpending⟩
  · rw [if_neg hi] at hslot
    obtain ⟨htokens, hcompiling⟩ := hother hi
    exact ⟨a, hslot, htokens.trans h.tokens, h.compiling.trans hcompiling.symm, h.pending⟩

/-- A slot that is held somewhere waits. -/
theorem Sound.queued (h : Sound i a s) (hheld : 0 < s.tokens i) :
    a.state = .queued ∧ s.tokens i = 1 := by
  have htokens := h.tokens
  by_cases hq : a.state = .queued
  · rw [if_pos hq] at htokens
    exact ⟨hq, htokens⟩
  · rw [if_neg hq] at htokens
    omega

/-- A step that lets go of a slot, which waits no longer then. -/
theorem Sound.release (h : Sound i a s) (target : SlotRef) (f : Slot V → Slot V)
    (hslots : t.slots = s.slots.modify target.number f)
    (htokens : t.tokens i + (if target = i then 1 else 0) = s.tokens i)
    (hstage : t.stage.compiling = s.stage.compiling)
    (hqueued : (f a).state ≠ .queued) (hcompiling : (f a).state ≠ .compiling)
    (hentry : (f a).entry = a.entry) : ∃ b, Sound i b t := by
  refine h.change target f hslots (fun hi => ⟨?_, by rw [hstage]⟩) fun hi => ?_
  · simpa [hi] using htokens
  · rw [if_pos hi] at htokens
    obtain ⟨hstate, hone⟩ := h.queued (by omega)
    have hfree : s.stage.compiling ≠ some i := mt h.compiling.2 (by rw [hstate]; exact nofun)
    refine ⟨?_, iff_of_false hcompiling (by rwa [hstage]), fun _ => ?_⟩
    · rw [if_neg hqueued]
      omega
    · rw [hentry]
      exact h.pending (by rw [hstate]; rfl)

theorem tokens_setQueue (queue : List SlotRef) :
    (s.setQueue queue).tokens i + s.worker.queue.count i = s.tokens i + queue.count i := by
  simp only [System.tokens, System.setQueue]
  omega

theorem tokens_setStage (stage : Stage V) :
    (s.setStage stage).tokens i + s.stage.tokens i = s.tokens i + stage.tokens i := by
  simp only [System.tokens, System.setStage]
  omega

theorem tokens_modifySlot (target : SlotRef) (f : Slot V → Slot V) :
    (s.modifySlot target f).tokens i = s.tokens i := rfl

theorem Sound.send (h : Sound i a s) {n : Nat} {target : SlotRef}
    (hc : s.calls[n]? = some (.marked target)) : Sound i a (s.send n target) := by
  have hrefused (e : NativeError) : Sound i a (s.setCall n (.refused target e)) := by
    refine h.keep rfl ?_ rfl
    have hset := tokens_setCall (i := i) hc (.refused target e)
    simp only [Submission.tokens] at hset
    omega
  unfold System.send
  split
  · exact hrefused .workerStopped
  · split
    · refine h.keep rfl ?_ rfl
      have hqueue := tokens_setQueue (s := s) (i := i) (s.worker.queue ++ [target])
      have hset := tokens_setCall (s := s.setQueue (s.worker.queue ++ [target])) (i := i) hc
        (.returned (.ok ()))
      simp only [Submission.tokens, List.count_append, List.count_singleton, beq_iff_eq]
        at hset hqueue
      omega
    · exact hrefused .queueFull

theorem Sound.advance (h : Sound i a s) {n : Nat} {c : Submission} (hc : s.calls[n]? = some c)
    (ht : s.advance n c = some t) : ∃ b, Sound i b t := by
  -- a call that goes on without a slot
  have hplain {c' : Submission} (hcc : c'.tokens i = c.tokens i) : Sound i a (s.setCall n c') := by
    refine h.keep rfl ?_ rfl
    have hset := tokens_setCall (i := i) hc c'
    omega
  cases c with
  | entered target =>
    simp only [System.advance] at ht
    split at ht <;> cases ht <;> exact ⟨a, hplain rfl⟩
  | admitted target =>
    simp only [System.advance] at ht
    split at ht
    next => cases ht; exact ⟨a, hplain rfl⟩
    next queued hmark =>
      cases ht
      have hset := tokens_setCall (s := s.modifySlot target fun _ => queued) (i := i) hc
        (.marked target)
      simp only [Submission.tokens, tokens_modifySlot] at hset
      refine h.change target (fun _ => queued) rfl (fun hi => ⟨?_, Iff.rfl⟩) fun hi => ?_
      · simpa [hi] using hset
      · obtain ⟨slot, hslot, hq⟩ := Option.bind_eq_some_iff.1 hmark
        obtain ⟨hstate, rfl⟩ := Slot.markQueued?_eq_some hq
        subst hi
        obtain rfl : slot = a := Option.some.inj (hslot.symm.trans h.slot)
        have htokens := h.tokens
        have hcompiling := h.compiling
        rw [hstate] at htokens hcompiling
        refine ⟨?_, ?_, fun _ => h.pending (by rw [hstate]; rfl)⟩
        · simpa [htokens] using hset
        · exact iff_of_false nofun (mt hcompiling.2 nofun)
  | marked target =>
    cases ht
    exact ⟨a, h.send hc⟩
  | refused target e =>
    cases ht
    have hset := tokens_setCall (s := s.modifySlot target (·.reset)) (i := i) hc
      (.returned (.error e))
    simp only [Submission.tokens, tokens_modifySlot] at hset
    exact h.release target (·.reset) rfl hset rfl nofun nofun rfl
  | returned result => cases ht

/-- The worker takes the next slot from its queue. -/
theorem Sound.pop (h : Sound i a s) {target : SlotRef} {rest : List SlotRef} {stage : Stage V}
    (hqueue : s.worker.queue = target :: rest) (hfree : s.stage.tokens i = 0)
    (hstage : stage.tokens i = if target = i then 1 else 0)
    (hcompiling : stage.compiling = s.stage.compiling) :
    Sound i a ((s.setQueue rest).setStage stage) := by
  refine h.keep rfl ?_ hcompiling
  have hset := tokens_setStage (s := s.setQueue rest) (i := i) stage
  have hpop := tokens_setQueue (s := s) (i := i) rest
  have hfree' : (s.setQueue rest).stage.tokens i = 0 := hfree
  rw [hqueue, List.count_cons] at hpop
  simp only [beq_iff_eq] at hpop
  omega

theorem Sound.start (h : Sound i a s) {target : SlotRef} {slot : Slot V}
    (hstage : s.stage = .starting target) (hslot : s.slots[target.number]? = some slot)
    (hready : slot.isReady = false) :
    ∃ b, Sound i b ((s.modifySlot target (·.start)).setStage (.running target slot.request)) := by
  have htokens :
      ((s.modifySlot target (·.start)).setStage (.running target slot.request)).tokens i +
        (if target = i then 1 else 0) = s.tokens i := by
    have hset := tokens_setStage (s := s.modifySlot target (·.start)) (i := i)
      (.running target slot.request)
    rw [show (s.modifySlot target (·.start)).stage = _ from hstage] at hset
    exact hset
  refine h.change target (·.start) rfl (fun hi => ⟨?_, ?_⟩) fun hi => ?_
  · simpa [hi] using htokens
  · rw [hstage]
    exact iff_of_false (fun hc => hi (Option.some.inj hc)) nofun
  · rw [if_pos hi] at htokens
    subst hi
    obtain rfl : slot = a := Option.some.inj (hslot.symm.trans h.slot)
    obtain ⟨hstate, hone⟩ := h.queued (by omega)
    have hstart : slot.start = { slot with state := .compiling } := if_neg (by simp [hready])
    rw [hstart]
    refine ⟨?_, iff_of_true rfl rfl, fun _ => h.pending (by rw [hstate]; rfl)⟩
    rw [if_neg nofun]
    omega

theorem Sound.finish (h : Sound i a s) {target : SlotRef} {outcome : Except NativeError Entry}
    (hstage : s.stage = .settled target outcome) :
    ∃ b, Sound i b ((s.modifySlot target (·.finish outcome)).setStage .waiting) := by
  have hkept : ((s.modifySlot target (·.finish outcome)).setStage .waiting).tokens i =
      s.tokens i := by
    have hset := tokens_setStage (s := s.modifySlot target (·.finish outcome)) (i := i) .waiting
    rw [show (s.modifySlot target (·.finish outcome)).stage = _ from hstage] at hset
    exact hset
  refine h.change target (·.finish outcome) rfl (fun hi => ⟨hkept, ?_⟩) fun hi => ?_
  · rw [hstage]
    exact iff_of_false nofun fun hc => hi (Option.some.inj hc)
  · subst hi
    have hstate : a.state = .compiling := h.compiling.2 (by rw [hstage]; rfl)
    have htokens := h.tokens
    rw [hstate, if_neg nofun] at htokens
    cases outcome with
    | ok entry => exact ⟨hkept.trans htokens, iff_of_false nofun nofun, nofun⟩
    | error e => exact ⟨hkept.trans htokens, iff_of_false nofun nofun, nofun⟩

theorem Sound.proceed (h : Sound i a s) (ht : s.proceed = some t) : ∃ b, Sound i b t := by
  -- the worker keeps what it holds, if anything
  have hplain {stage : Stage V} (htokens : stage.tokens i = s.stage.tokens i)
      (hcompiling : stage.compiling = s.stage.compiling) : Sound i a (s.setStage stage) := by
    refine h.keep rfl ?_ hcompiling
    have hset := tokens_setStage (s := s) (i := i) stage
    omega
  have hdrop {target : SlotRef} (htokens : s.stage.tokens i = if target = i then 1 else 0)
      (hcompiling : s.stage.compiling = none) :
      ∃ b, Sound i b ((s.modifySlot target (·.drop)).setStage .draining) := by
    refine h.release target (·.drop) rfl ?_ hcompiling.symm nofun nofun rfl
    rw [← htokens]
    exact tokens_setStage (s := s.modifySlot target (·.drop)) .draining
  cases hstage : s.stage with
  | waiting => simp [System.proceed, hstage] at ht
  | received target =>
    simp only [System.proceed, hstage, Option.some.injEq] at ht
    subst ht
    refine ⟨a, hplain ?_ ?_⟩ <;> rw [hstage] <;> split <;> rfl
  | refusing target =>
    simp only [System.proceed, hstage, Option.some.injEq] at ht
    subst ht
    exact hdrop (by rw [hstage]; rfl) (by rw [hstage]; rfl)
  | starting target =>
    by_cases hskip : ∀ slot, s.slots[target.number]? = some slot → slot.isReady = true
    · -- not this slot, which waits and has no code
      have hi : target ≠ i := by
        rintro rfl
        have hle : s.stage.tokens target ≤ s.tokens target := Nat.le_add_left ..
        rw [hstage, Stage.tokens, if_pos rfl] at hle
        have hentry : a.entry = none := h.pending (by rw [(h.queued hle).1]; rfl)
        have hready := hskip a h.slot
        simp [Slot.isReady, hentry] at hready
      rw [System.proceed_skip hstage hskip] at ht
      cases ht
      exact ⟨a, hplain (by simp [hstage, Stage.tokens, hi]) (by rw [hstage]; rfl)⟩
    · simp only [not_forall] at hskip
      obtain ⟨slot, hslot, hready⟩ := hskip
      have hready : slot.isReady = false := by simpa using hready
      rw [System.proceed_start hstage hslot hready] at ht
      cases ht
      exact h.start hstage hslot hready
  | running target request =>
    simp only [System.proceed, hstage, Option.some.injEq] at ht
    subst ht
    exact ⟨a, hplain (by rw [hstage]; rfl) (by rw [hstage]; rfl)⟩
  | attempted target outcome =>
    simp only [System.proceed, hstage, Option.some.injEq] at ht
    subst ht
    exact ⟨a, hplain (by rw [hstage]; rfl) (by rw [hstage]; rfl)⟩
  | settled target outcome =>
    simp only [System.proceed, hstage, Option.some.injEq] at ht
    subst ht
    exact h.finish hstage
  | draining =>
    simp only [System.proceed, hstage] at ht
    cases hqueue : s.worker.queue with
    | nil =>
      simp only [hqueue, Option.some.injEq] at ht
      subst ht
      exact ⟨a, hplain (by rw [hstage]; rfl) (by rw [hstage]; rfl)⟩
    | cons target rest =>
      simp only [hqueue, Option.some.injEq] at ht
      subst ht
      exact ⟨a, h.pop hqueue (by rw [hstage]; rfl) rfl (by rw [hstage]; rfl)⟩
  | discarding target =>
    simp only [System.proceed, hstage, Option.some.injEq] at ht
    subst ht
    exact hdrop (by rw [hstage]; rfl) (by rw [hstage]; rfl)
  | drained =>
    simp only [System.proceed, hstage, Option.some.injEq] at ht
    subst ht
    exact ⟨a, hplain (by rw [hstage]; rfl) (by rw [hstage]; rfl)⟩
  | ended => simp [System.proceed, hstage] at ht

/-- Every turn keeps the slot sound. -/
theorem Sound.step (h : Sound i a s) {turn : Turn} (ht : s.step turn = some t) :
    ∃ b, Sound i b t := by
  cases turn with
  | submit target =>
    cases ht
    refine ⟨a, h.keep rfl ?_ rfl⟩
    simp [System.tokens, Submission.tokens]
  | advance n =>
    obtain ⟨c, hc, ht⟩ := Option.bind_eq_some_iff.1 ht
    exact h.advance hc ht
  | cancel =>
    cases ht
    exact ⟨a, h.keep rfl rfl rfl⟩
  | signal =>
    simp only [System.step] at ht
    cases hn : s.signals with
    | zero => simp [hn] at ht
    | succ n =>
      simp only [hn, Option.some.injEq] at ht
      subst ht
      exact ⟨a, h.keep rfl rfl rfl⟩
  | heed =>
    simp only [System.step] at ht
    split at ht
    next hstage _ =>
      cases ht
      exact ⟨a, h.keep rfl (by simp [System.tokens, hstage, Stage.tokens]) (by rw [hstage]; rfl)⟩
    next => cases ht
  | receive =>
    simp only [System.step] at ht
    split at ht
    next hstage hqueue =>
      cases ht
      exact ⟨a, h.pop hqueue (by rw [hstage]; rfl) rfl (by rw [hstage]; rfl)⟩
    next => cases ht
  | proceed => exact h.proceed ht

/-- And so does every schedule. -/
theorem Sound.run (h : Sound i a s) {turns : List Turn} (ht : s.run turns = some t) :
    ∃ b, Sound i b t := by
  induction turns generalizing s a with
  | nil =>
    cases ht
    exact ⟨a, h⟩
  | cons turn turns ih =>
    obtain ⟨u, hu, ht⟩ := Option.bind_eq_some_iff.1 ht
    obtain ⟨b, hb⟩ := h.step hu
    exact ih hb ht

end Steps

/-- The worker does not look into its queue any more. -/
def Stage.isPast : Stage V → Bool
  | .drained | .ended => true
  | _ => false

namespace System

/-- The slot is in the queue, and the worker does not look into it any more. -/
def Leaves (s : System V) (i : SlotRef) : Prop := s.stage.isPast = true ∧ i ∈ s.worker.queue

/-- The turn sends the slot, with success, after the worker has found its queue empty and before it
gives the queue up. -/
def SendsLate (s : System V) (i : SlotRef) : Turn → Prop
  | .advance n => s.stage = .drained ∧ s.calls[n]? = some (.marked i) ∧
      s.worker.queue.length < s.worker.capacity
  | _ => False

/-- A turn of the schedule sends the slot too late. -/
def SentLate (s : System V) (i : SlotRef) (turns : List Turn) : Prop :=
  ∃ before turn later, turns = before ++ turn :: later ∧
    ∃ u, s.run before = some u ∧ u.SendsLate i turn

variable {i : SlotRef} {s t : System V}

theorem leaves_of_same (hstage : t.stage.isPast = s.stage.isPast)
    (hqueue : t.worker.queue = s.worker.queue) : t.Leaves i ↔ s.Leaves i := by
  rw [Leaves, Leaves, hstage, hqueue]

/-- Nothing is left while the worker still looks, nor when it finds the queue empty. -/
theorem leaves_of_open (hs : s.stage.isPast = false)
    (ht : t.stage.isPast = false ∨ t.worker.queue = []) : t.Leaves i ↔ s.Leaves i := by
  refine iff_of_false (fun h => ?_) fun h => ?_
  · obtain ⟨hpast, hmem⟩ := h
    cases ht with
    | inl hstage => simp [hstage] at hpast
    | inr hqueue => simp [hqueue] at hmem
  · simp [Leaves, hs] at h

theorem leaves_send {n : Nat} {target : SlotRef} (hc : s.calls[n]? = some (.marked target)) :
    (s.send n target).Leaves i ↔ s.Leaves i ∨ s.SendsLate i (.advance n) := by
  have hlate : s.SendsLate i (.advance n) ↔ s.stage = .drained ∧ target = i ∧
      s.worker.queue.length < s.worker.capacity := by
    simp [SendsLate, hc]
  have hrefused (hno : ¬ s.SendsLate i (.advance n)) (e : NativeError) :
      (s.setCall n (.refused target e)).Leaves i ↔ s.Leaves i ∨ s.SendsLate i (.advance n) :=
    (or_iff_left hno).symm
  unfold send
  split
  next hstage => exact hrefused (by simp [hlate, hstage]) _
  next hended =>
    by_cases hroom : s.worker.queue.length < s.worker.capacity
    · rw [if_pos hroom, hlate]
      by_cases hdrained : s.stage = .drained
      · simp [Leaves, setQueue, setCall, hdrained, Stage.isPast, hroom, eq_comm]
      · have hopen : s.stage.isPast = false := by
          cases hstage : s.stage <;> simp_all [Stage.isPast]
        simp [Leaves, setQueue, setCall, hdrained, hopen]
    · rw [if_neg hroom]
      exact hrefused (by simp [hlate, hroom]) _

theorem leaves_advance {n : Nat} {c : Submission} (hc : s.calls[n]? = some c)
    (ht : s.advance n c = some t) : t.Leaves i ↔ s.Leaves i ∨ s.SendsLate i (.advance n) := by
  have hplain (hstage : t.stage = s.stage) (hworker : t.worker = s.worker)
      (hno : ∀ target, c ≠ .marked target) :
      t.Leaves i ↔ s.Leaves i ∨ s.SendsLate i (.advance n) := by
    have hlate : ¬ s.SendsLate i (.advance n) := by
      rintro ⟨-, hcall, -⟩
      exact hno i (Option.some.inj (hc.symm.trans hcall))
    rw [or_iff_left hlate]
    exact leaves_of_same (by rw [hstage]) (by rw [hworker])
  cases c with
  | entered target =>
    simp only [advance] at ht
    split at ht <;> cases ht <;> exact hplain rfl rfl nofun
  | admitted target =>
    simp only [advance] at ht
    split at ht <;> cases ht <;> exact hplain rfl rfl nofun
  | marked target =>
    cases ht
    exact leaves_send hc
  | refused target e =>
    cases ht
    exact hplain rfl rfl nofun
  | returned result => cases ht

theorem leaves_proceed (ht : s.proceed = some t) : t.Leaves i ↔ s.Leaves i := by
  unfold proceed at ht
  cases hstage : s.stage with
  | waiting | ended => simp [hstage] at ht
  | received target =>
    simp only [hstage, Option.some.injEq] at ht
    subst ht
    refine leaves_of_open (by rw [hstage]; rfl) (.inl ?_)
    simp only [setStage]
    split <;> rfl
  | starting target =>
    simp only [hstage] at ht
    refine leaves_of_open (by rw [hstage]; rfl) (.inl ?_)
    split at ht
    · cases ht
      rfl
    · split at ht <;> cases ht <;> rfl
  | draining =>
    simp only [hstage] at ht
    refine leaves_of_open (by rw [hstage]; rfl) ?_
    cases hqueue : s.worker.queue with
    | nil =>
      simp only [hqueue, Option.some.injEq] at ht
      subst ht
      exact .inr hqueue
    | cons target rest =>
      simp only [hqueue, Option.some.injEq] at ht
      subst ht
      exact .inl rfl
  | drained =>
    simp only [hstage, Option.some.injEq] at ht
    subst ht
    exact leaves_of_same (by rw [hstage]; rfl) rfl
  | refusing target | running target request | attempted target outcome | settled target outcome
  | discarding target =>
    simp only [hstage, Option.some.injEq] at ht
    subst ht
    exact leaves_of_open (by rw [hstage]; rfl) (.inl rfl)

theorem leaves_step {turn : Turn} (ht : s.step turn = some t) :
    t.Leaves i ↔ s.Leaves i ∨ s.SendsLate i turn := by
  cases turn with
  | submit target =>
    cases ht
    exact (or_iff_left id).symm
  | advance n =>
    obtain ⟨c, hc, ht⟩ := Option.bind_eq_some_iff.1 ht
    exact leaves_advance hc ht
  | cancel =>
    cases ht
    exact (or_iff_left id).symm
  | signal =>
    simp only [step] at ht
    split at ht <;> cases ht
    exact (or_iff_left id).symm
  | heed =>
    simp only [step] at ht
    split at ht
    next hstage _ =>
      cases ht
      exact (leaves_of_open (by rw [hstage]; rfl) (.inl rfl)).trans (or_iff_left id).symm
    next => cases ht
  | receive =>
    simp only [step] at ht
    split at ht
    next hstage _ =>
      cases ht
      exact (leaves_of_open (by rw [hstage]; rfl) (.inl rfl)).trans (or_iff_left id).symm
    next => cases ht
  | proceed => exact (leaves_proceed ht).trans (or_iff_left id).symm

theorem sentLate_append (turns : List Turn) (turn : Turn) :
    s.SentLate i (turns ++ [turn]) ↔ s.SentLate i turns ∨
      ∃ u, s.run turns = some u ∧ u.SendsLate i turn :=
  exists_split_concat turns turn

/-- What a schedule leaves in the queue is what it has sent too late. -/
theorem leaves_run (hs : ¬ s.Leaves i) {turns : List Turn} (ht : s.run turns = some t) :
    t.Leaves i ↔ s.SentLate i turns := by
  induction turns using List.reverseRecOn generalizing t with
  | nil =>
    cases ht
    refine iff_of_false hs ?_
    rintro ⟨before, turn, later, hsplit, -⟩
    simp at hsplit
  | append_singleton turns turn ih =>
    rw [run_append] at ht
    obtain ⟨u, hu, ht⟩ := Option.bind_eq_some_iff.1 ht
    have hlate : (∃ v, s.run turns = some v ∧ v.SendsLate i turn) ↔ u.SendsLate i turn := by
      simp [hu]
    rw [leaves_step ht, ih hu, sentLate_append, hlate]

/-- Before anything happens: nothing is submitted or cancelled, and every slot was either never
asked for and has no code, or its attempt has ended. -/
structure Idle (s : System V) : Prop where
  stage : s.stage = .waiting
  calls : s.calls = []
  queue : s.worker.queue = []
  slots : ∀ a ∈ s.slots, a.state.isPending = true → a.state = .notRequested ∧ a.entry = none

theorem Idle.sound (h : s.Idle) {a : Slot V} (ha : s.slots[i.number]? = some a) : Sound i a s := by
  have hfresh := h.slots a (Array.mem_of_getElem? ha)
  have hqueued : a.state ≠ .queued := by
    intro hq
    have hstate := (hfresh (by rw [hq]; rfl)).1
    rw [hq] at hstate
    cases hstate
  have hcompiling : a.state ≠ .compiling := by
    intro hq
    have hstate := (hfresh (by rw [hq]; rfl)).1
    rw [hq] at hstate
    cases hstate
  refine ⟨ha, ?_, iff_of_false hcompiling (by rw [h.stage]; exact nofun), fun hp => (hfresh hp).2⟩
  rw [if_neg hqueued, tokens, h.calls, h.queue, h.stage]
  rfl

theorem foldr_tokens_of_returned {calls : List Submission}
    (h : ∀ c ∈ calls, c.isReturned = true) : calls.foldr (fun c k => c.tokens i + k) 0 = 0 := by
  induction calls with
  | nil => rfl
  | cons c calls ih =>
    obtain ⟨hc, hcalls⟩ := List.forall_mem_cons.1 h
    cases c with
    | returned result => exact (Nat.zero_add _).trans (ih hcalls)
    | _ => cases hc

theorem tokens_of_ended (hended : s.stage = .ended)
    (hreturned : ∀ c ∈ s.calls, c.isReturned = true) : s.tokens i = s.worker.queue.count i := by
  rw [tokens, foldr_tokens_of_returned hreturned, hended]
  exact Nat.zero_add _

/-- Whatever the schedule: once the worker has ended and all submissions have returned, no slot is
compiling, and a slot is left waiting exactly if it was sent, with success, between the worker's
last look into the queue and the moment the queue was given up. -/
theorem queued_iff_sentLate (hs : s.Idle) {turns : List Turn} (ht : s.run turns = some t)
    (hended : t.stage = .ended) (hreturned : ∀ c ∈ t.calls, c.isReturned = true)
    (hi : i.number < s.slots.size) :
    ∃ a, t.slots[i.number]? = some a ∧ a.state ≠ .compiling ∧
      (a.state = .queued ↔ s.SentLate i turns) := by
  obtain ⟨a, ha⟩ := (hs.sound (Array.getElem?_eq_getElem hi)).run ht
  have hleft := leaves_run (i := i) (fun h => by simp [Leaves, hs.queue] at h) ht
  refine ⟨a, ha.slot, mt ha.compiling.1 (by rw [hended]; exact nofun), ?_⟩
  have htokens := ha.tokens
  rw [tokens_of_ended hended hreturned] at htokens
  rw [← hleft, Leaves, hended, ← List.count_pos_iff, htokens]
  by_cases hq : a.state = .queued <;> simp [Stage.isPast, hq]

/-- Two closures and an idle worker. -/
def pair : System (Value Empty) where
  slots := #[Waiting.slot, Waiting.slot]
  worker := { escalator := Waiting.willing, capacity := 1 }

theorem pair_idle : pair.Idle := by
  refine ⟨rfl, rfl, rfl, fun a ha _ => ?_⟩
  obtain rfl : a = Waiting.slot := by simpa [pair] using ha
  exact ⟨rfl, rfl⟩

/-- The first slot is served; the worker is cancelled while the second one waits. -/
def orderly : List Turn :=
  [.submit ⟨0⟩, .advance 0, .advance 0, .advance 0, .receive, .proceed, .submit ⟨1⟩, .advance 1,
    .advance 1, .proceed, .proceed, .advance 1, .proceed, .proceed, .cancel, .signal, .heed,
    .proceed, .proceed, .proceed, .proceed]

/-- The first submission has marked its slot when the worker is cancelled, and sends it after the
worker's last look. -/
def late : List Turn :=
  [.submit ⟨0⟩, .advance 0, .advance 0, .cancel, .signal, .heed, .proceed, .advance 0, .proceed]

theorem queued_iff_sentLate_orderly :
    pair.Idle ∧ ∃ t, pair.run orderly = some t ∧ t.stage = .ended ∧
      (∀ c ∈ t.calls, c.isReturned = true) ∧
      ∃ a, t.slots[1]? = some a ∧ a.state = .failed .cancelled ∧ ¬ pair.SentLate ⟨1⟩ orderly := by
  have hreturned : ∀ c ∈ [Submission.returned (.ok ()), Submission.returned (.ok ())],
      c.isReturned = true := by decide
  obtain ⟨a, ha, -, hiff⟩ := queued_iff_sentLate (i := ⟨1⟩) pair_idle
    (show pair.run orderly = some _ from rfl) rfl hreturned (by decide)
  refine ⟨pair_idle, _, rfl, rfl, hreturned, a, ha, ?_, ?_⟩
  · cases ha
    rfl
  · cases ha
    exact mt hiff.2 nofun

/-- The worker has ended, the submission has returned with success, and its slot waits for ever. -/
theorem queued_after_end :
    pair.Idle ∧ ∃ t, pair.run late = some t ∧ t.stage = .ended ∧ t.calls = [.returned (.ok ())] ∧
      ∃ a, t.slots[0]? = some a ∧ a.state = .queued :=
  ⟨pair_idle, _, rfl, rfl, rfl, _, rfl, rfl⟩

end System

end Native

end Formula
