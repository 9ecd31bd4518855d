import Formula.Proofs.Faults.Values
import Formula.Proofs.Native.Histories

/-!
Computations under a regime. Started on a store whose lists, escalation records and memory fit, a
computation ends in a value or a fault of the kind it is said to end in, and leaves such a store.
Nothing is said of one that panics or runs out of its budget.
-/
namespace Formula
namespace Faults

variable {H W ε δ α β : Type} {R : Regime H W}

/-- What a list is made of fits. -/
def FitsSource (R : Regime H W) : Source H → Prop
  | .given items ending => R.HoldsAll items ∧ ∀ e, ending = some e → R.Within e
  | .range _ => True
  | .entries d => R.HoldsFields d.entries
  | .accept ref f | .map ref f | .combine ref f | .number ref f => R.listed ref ∧ R.Runs f
  | .iir ref initial f => R.listed ref ∧ R.Runs initial ∧ R.Runs f
  | .top ref _ => R.listed ref

structure FitsCell (R : Regime H W) (c : Cell H) : Prop where
  source : FitsSource R c.source
  items : ∀ vs, c.items = some vs → R.HoldsAll vs

/-- All that can be reached in the store fits, and what is still to be made may be reached. -/
structure Sound (R : Regime H W) (s : Store H W) : Prop where
  cells : ∀ ref c, R.listed ref → s.lists[ref.number]? = some c → FitsCell R c
  freshLists : ∀ n, s.lists.size ≤ n → R.listed ⟨n⟩
  slots : ∀ ref slot, R.slotted ref → s.slots[ref.number]? = some slot →
    ∀ x, R.Holds (slot.request.marshal.fromNative x)
  freshSlots : ∀ n, s.slots.size ≤ n → R.slotted ⟨n⟩
  memory : R.memory R.Holds s.world

/-- A store that holds nothing yet. -/
theorem sound_start (hlists : ∀ ref, R.listed ref) (hslots : ∀ ref, R.slotted ref) {world : W}
    (hmemory : R.memory R.Holds world) : Sound R { world } where
  cells _ _ _ h := by simp at h
  freshLists n _ := hlists ⟨n⟩
  slots _ _ _ h := by simp at h
  freshSlots n _ := hslots ⟨n⟩
  memory := hmemory

/-- The result is a value or a fault as described, and the store is in order. -/
def Outcome (R : Regime H W) (Q : α → Prop) (F : ε → Store H W → Prop) :
    EStateM.Result (Stop ε) (Store H W) α → Prop
  | .ok a s => Q a ∧ Sound R s
  | .error (.fault e) s => F e s ∧ Sound R s
  | .error _ _ => True

/-- The computation ends in a value or in a fault as described, and leaves the store in order. What
is said of a fault may speak of the store that it leaves. -/
def Ensures (R : Regime H W) (Q : α → Prop) (F : ε → Store H W → Prop) (x : Run H W ε α) : Prop :=
  ∀ s, Sound R s → Outcome R Q F (x s)

namespace Outcome

variable {Q : α → Prop} {Q' : β → Prop} {F : ε → Store H W → Prop} {x : Run H W ε α}
  {s : Store H W}

/-- The rest is run from the store that the first part leaves. -/
theorem bind {F' : ε → Store H W → Prop} {f : α → Run H W ε β} (hx : Outcome R Q F (x s))
    (hfirst : ∀ {e t}, F e t → F' e t)
    (hf : ∀ a u, x s = .ok a u → Q a → Sound R u → Outcome R Q' F' (f a u)) :
    Outcome R Q' F' ((x >>= f) s) := by
  cases h : x s with
  | ok a u =>
    rw [h] at hx
    rw [Run.bind_apply_ok h]
    exact hf a u h hx.1 hx.2
  | error stop u =>
    rw [h] at hx
    rw [Run.bind_apply_error h]
    cases stop with
    | fault e => exact ⟨hfirst hx.1, hx.2⟩
    | panic message => trivial
    | exhausted => trivial

/-- More can be said of the fault if it is known how the computation ended. -/
theorem mapFault {F' : δ → Store H W → Prop} {f : ε → δ} (hx : Outcome R Q F (x s))
    (hF : ∀ {e t}, x s = .error (.fault e) t → F e t → F' (f e) t) :
    Outcome R Q F' (x.mapFault f s) := by
  cases h : x s with
  | ok a u =>
    rw [h] at hx
    rw [(Run.mapFault_ok f).2 h]
    exact hx
  | error stop u =>
    rw [h] at hx
    cases stop with
    | fault e =>
      rw [Run.mapFault_fault f h]
      exact ⟨hF h hx.1, hx.2⟩
    | panic message =>
      simp only [Run.mapFault, h]
      trivial
    | exhausted =>
      simp only [Run.mapFault, h]
      trivial

theorem imp {F' : ε → Store H W → Prop} (hx : Outcome R Q F (x s))
    (hF : ∀ {e t}, x s = .error (.fault e) t → F e t → F' e t) : Outcome R Q F' (x s) := by
  cases h : x s with
  | ok a u =>
    rw [h] at hx
    exact hx
  | error stop u =>
    rw [h] at hx
    cases stop with
    | fault e => exact ⟨hF h hx.1, hx.2⟩
    | panic message => trivial
    | exhausted => trivial

theorem ofExcept {r : Except ε α} (hs : Sound R s) (hok : ∀ a, r = .ok a → Q a)
    (herror : ∀ e, r = .error e → F e s) : Outcome R Q F ((Run.ofExcept r : Run H W ε α) s) := by
  cases r with
  | ok a => exact ⟨hok a rfl, hs⟩
  | error e => exact ⟨herror e rfl, hs⟩

end Outcome

namespace Ensures

variable {Q : α → Prop} {Q' : β → Prop} {F : ε → Store H W → Prop} {F' : δ → Store H W → Prop}
  {x : Run H W ε α}

theorem pure {a : α} (h : Q a) : Ensures R Q F (pure a : Run H W ε α) := fun _ hs => ⟨h, hs⟩

theorem fault {e : ε} (h : ∀ s, F e s) : Ensures R Q F (Run.fault e : Run H W ε α) :=
  fun s hs => ⟨h s, hs⟩

theorem panic (message : String) : Ensures R Q F (Run.panic message : Run H W ε α) :=
  fun _ _ => trivial

theorem exhausted : Ensures R Q F (Run.exhausted : Run H W ε α) := fun _ _ => trivial

theorem bind {f : α → Run H W ε β} (hx : Ensures R Q F x) (hf : ∀ a, Q a → Ensures R Q' F (f a)) :
    Ensures R Q' F (x >>= f) :=
  fun s hs => (hx s hs).bind (fun h => h) fun a u _ ha hu => hf a ha u hu

theorem imp {F' : ε → Store H W → Prop} (hx : Ensures R Q F x)
    (hF : ∀ {e t}, F e t → F' e t) : Ensures R Q F' x :=
  fun s hs => (hx s hs).imp fun _ h => hF h

theorem map {f : α → β} (hx : Ensures R Q F x) (hf : ∀ a, Q a → Q' (f a)) :
    Ensures R Q' F (f <$> x) := by
  rw [map_eq_pure_bind]
  exact hx.bind fun a ha => .pure (hf a ha)

theorem mapFault {f : ε → δ} (hx : Ensures R Q F x) (hf : ∀ {e t}, F e t → F' (f e) t) :
    Ensures R Q F' (x.mapFault f) :=
  fun s hs => (hx s hs).mapFault fun _ h => hf h

theorem lift {x : Run H W Empty α} {G : Empty → Store H W → Prop} (hx : Ensures R Q G x) :
    Ensures R Q F (x.lift : Run H W ε α) := hx.mapFault fun {e _} _ => e.elim

/-- What is attempted has no fault, and its value, if it has one, is as described. -/
theorem attempt (hx : Ensures R Q F x) :
    Ensures R (fun r => ∀ a, r = .ok a → Q a) F' (x.attempt : Run H W δ (Except ε α)) := by
  intro s hs
  have hxs := hx s hs
  cases h : x s with
  | ok a u =>
    rw [h] at hxs
    rw [Run.attempt_ok h]
    exact ⟨fun b hb => Except.ok.inj hb ▸ hxs.1, hxs.2⟩
  | error stop u =>
    rw [h] at hxs
    cases stop with
    | fault e =>
      rw [Run.attempt_fault h]
      exact ⟨fun _ ha => (by cases ha), hxs.2⟩
    | panic message =>
      simp only [Run.attempt, h]
      trivial
    | exhausted =>
      simp only [Run.attempt, h]
      trivial

theorem ofExcept {r : Except ε α} (hok : ∀ a, r = .ok a → Q a)
    (herror : ∀ e, r = .error e → ∀ s, F e s) :
    Ensures R Q F (Run.ofExcept r : Run H W ε α) :=
  fun s hs => .ofExcept hs hok fun e he => herror e he s

theorem mapM {γ : Type} {P : γ → Prop} {f : γ → Run H W ε α} {xs : List γ} (hxs : ∀ c ∈ xs, P c)
    (hf : ∀ c, P c → Ensures R Q F (f c)) : Ensures R (fun as => ∀ a ∈ as, Q a) F (xs.mapM f) := by
  induction xs with
  | nil => exact .pure fun a ha => by cases ha
  | cons c rest ih =>
    obtain ⟨hc, hrest⟩ := List.forall_mem_cons.1 hxs
    rw [List.mapM_cons]
    refine (hf c hc).bind fun a ha => (ih hrest).bind fun as has => .pure ?_
    exact List.forall_mem_cons.2 ⟨ha, has⟩

theorem value (hx : Ensures R Q F x) {s s' : Store H W} (hs : Sound R s) {a : α}
    (h : x s = .ok a s') : Q a ∧ Sound R s' := by
  have hxs := hx s hs
  rwa [h] at hxs

theorem verdict (hx : Ensures R Q F x) {s s' : Store H W} (hs : Sound R s) {e : ε}
    (h : x s = .error (.fault e) s') : F e s' ∧ Sound R s' := by
  have hxs := hx s hs
  rwa [h] at hxs

end Ensures

/-- A fault that was changed comes from one of the computation. -/
theorem mapFault_eq_fault {f : ε → δ} {x : Run H W ε α} {s s' : Store H W} {e : δ}
    (h : x.mapFault f s = .error (.fault e) s') : ∃ e₀, e = f e₀ ∧ x s = .error (.fault e₀) s' := by
  unfold Run.mapFault at h
  cases hrun : x s with
  | ok b u =>
    rw [hrun] at h
    cases h
  | error stop u =>
    rw [hrun] at h
    cases stop with
    | fault e₀ =>
      cases h
      exact ⟨e₀, rfl, rfl⟩
    | panic message => cases h
    | exhausted => cases h

/-- Where panics become faults, a value is that of the computation. -/
theorem catchPanic_eq_ok {f : String → ε} {x : Run H W ε α} {s s' : Store H W} {a : α}
    (h : Run.catchPanic f x s = .ok a s') : x s = .ok a s' := by
  unfold Run.catchPanic at h
  cases hrun : x s with
  | ok b u =>
    rw [hrun] at h
    exact h
  | error stop u =>
    rw [hrun] at h
    cases stop <;> cases h

/-- Where panics become faults, a fault is one of the computation or a panic. -/
theorem catchPanic_eq_fault {f : String → ε} {x : Run H W ε α} {s s' : Store H W} {e : ε}
    (h : Run.catchPanic f x s = .error (.fault e) s') :
    x s = .error (.fault e) s' ∨ ∃ message, e = f message := by
  unfold Run.catchPanic at h
  cases hrun : x s with
  | ok b u =>
    rw [hrun] at h
    cases h
  | error stop u =>
    rw [hrun] at h
    cases stop with
    | fault e₀ =>
      cases h
      exact .inl rfl
    | panic message =>
      cases h
      exact .inr ⟨message, rfl⟩
    | exhausted => cases h

theorem fitsSource_given {items : List (Value H)} (h : R.HoldsAll items) :
    FitsSource R (.given items none) := ⟨h, fun _ he => by cases he⟩

/-- A list that holds its items from the start. -/
theorem fitsCell_full {items : List (Value H)} (h : R.HoldsAll items) :
    FitsCell R { source := .given items none, items := some items } :=
  ⟨fitsSource_given h, fun _ hvs => Option.some.inj hvs ▸ h⟩

theorem fitsCell_default : FitsCell R default := fitsCell_full fun _ hv => by cases hv

variable {F : ε → Store H W → Prop}

theorem ensures_cell {ref : ListRef} (h : R.listed ref) :
    Ensures R (FitsCell R) F (Store.cell ref : Run H W ε (Cell H)) := by
  intro s hs
  refine ⟨?_, hs⟩
  cases hc : s.lists[ref.number]? with
  | none => exact fitsCell_default
  | some c => exact hs.cells ref c h hc

theorem ensures_modifyCell (ref : ListRef) {f : Cell H → Cell H}
    (hf : ∀ c, FitsCell R c → FitsCell R (f c)) :
    Ensures R (fun _ => True) F (Store.modifyCell ref f : Run H W ε Unit) := by
  refine fun s hs => ⟨trivial, { hs with cells := fun k c hk hc => ?_, freshLists := ?_ }⟩
  · rw [Array.getElem?_modify] at hc
    cases hold : s.lists[k.number]? with
    | none => simp [hold] at hc
    | some old =>
      have hfits := hs.cells k old hk hold
      by_cases hr : ref.number = k.number
      · simp only [hold, hr, if_true, Option.map_some, Option.some.injEq] at hc
        exact hc ▸ hf old hfits
      · simp only [hold, hr, if_false, Option.some.injEq] at hc
        exact hc ▸ hfits
  · intro n hn
    exact hs.freshLists n (by simpa using hn)

theorem ensures_newCell {c : Cell H} (hc : FitsCell R c) :
    Ensures R R.listed F (Store.newCell c : Run H W ε ListRef) := by
  refine fun s hs => ⟨hs.freshLists _ (Nat.le_refl _), { hs with cells := ?_, freshLists := ?_ }⟩
  · intro ref c' href hc'
    rw [Array.getElem?_push] at hc'
    by_cases hlast : ref.number = s.lists.size
    · rw [if_pos hlast] at hc'
      cases hc'
      exact hc
    · rw [if_neg hlast] at hc'
      exact hs.cells ref c' href hc'
  · intro n hn
    rw [Array.size_push] at hn
    exact hs.freshLists n (Nat.le_of_succ_le hn)

theorem ensures_newList {vs : List (Value H)} (h : R.HoldsAll vs) :
    Ensures R R.Holds F (Store.newList vs : Run H W ε (Value H)) :=
  (ensures_newCell (fitsCell_full h)).map fun _ => .list

theorem ensures_newLazy {source : Source H} (h : FitsSource R source) :
    Ensures R R.Holds F (Store.newLazy source : Run H W ε (Value H)) :=
  (ensures_newCell ⟨h, fun vs hvs => by cases hvs⟩).map fun _ => .list

theorem ensures_freshIdentity :
    Ensures R (fun _ => True) F (Store.freshIdentity : Run H W ε Identity) :=
  fun _ hs => ⟨trivial, { hs with }⟩

theorem ensures_newMap {d : Dict (Value H)} (h : ∀ i, R.Holds (.map i d)) :
    Ensures R R.Holds F (Store.newMap d : Run H W ε (Value H)) :=
  ensures_freshIdentity.bind fun i _ => .pure (h i)

theorem ensures_fill (ref : ListRef) {items : List (Value H)} (h : R.HoldsAll items) :
    Ensures R (fun _ => True) F (Store.fill ref items : Run H W ε Unit) := by
  refine ensures_modifyCell ref fun c hc => ⟨hc.source, fun vs hvs => ?_⟩
  cases hi : c.items with
  | none =>
    simp only [hi, Option.getD_none, Option.some.injEq] at hvs
    exact hvs ▸ h
  | some ws =>
    simp only [hi, Option.getD_some, Option.some.injEq] at hvs
    exact hc.items vs (hi.trans (congrArg some hvs))

/-- Native code gives values that fit. -/
theorem ensures_slot? {ref : SlotRef} (h : R.slotted ref) :
    Ensures R (fun found => ∀ slot, found = some slot → ∀ x,
      R.Holds (slot.request.marshal.fromNative x)) F
      (Store.slot? ref : Run H W ε (Option (Native.Slot (Value H)))) :=
  fun _ hs => ⟨fun slot hslot => hs.slots ref slot h hslot, hs⟩

/-- What escalation changes does not matter. -/
theorem stable_sound : Native.Stable (fun _ => True) (Sound R) where
  escalators _ _ _ := trivial
  ofSlot {s} hs ref f hf := by
    refine { hs with slots := fun k slot hk hslot => ?_, freshSlots := ?_ }
    · rw [Array.getElem?_modify] at hslot
      cases hold : s.slots[k.number]? with
      | none => simp [hold] at hslot
      | some old =>
        have hfits := hs.slots k old hk hold
        by_cases hr : ref.number = k.number
        · simp only [hold, hr, if_true, Option.map_some, Option.some.injEq] at hslot
          rw [← hslot, (hf old (hr ▸ hold)).1]
          exact hfits
        · simp only [hold, hr, if_false, Option.some.injEq] at hslot
          exact hslot ▸ hfits
    · intro n hn
      exact hs.freshSlots n (by simpa using hn)
  ofWorker hs _ _ _ := { hs with }
  ofGate hs _ := { hs with }

theorem ensures_recordCall (ref : SlotRef) :
    Ensures R (fun _ => True) F (Native.recordCall ref : Run H W ε Unit) := by
  intro s hs
  obtain ⟨a, s', hrun, hs'⟩ := stable_sound.always_recordCall (ε := ε) ref s hs
  rw [hrun]
  exact ⟨trivial, hs'⟩

theorem ensures_newSlot {slot : Native.Slot (Value H)}
    (h : ∀ x, R.Holds (slot.request.marshal.fromNative x)) :
    Ensures R R.slotted F (Store.newSlot slot : Run H W ε SlotRef) := by
  refine fun s hs => ⟨hs.freshSlots _ (Nat.le_refl _), { hs with slots := ?_, freshSlots := ?_ }⟩
  · intro ref slot' href hslot
    rw [Array.getElem?_push] at hslot
    by_cases hlast : ref.number = s.slots.size
    · rw [if_pos hlast] at hslot
      cases hslot
      exact h
    · rw [if_neg hlast] at hslot
      exact hs.slots ref slot' href hslot
  · intro n hn
    rw [Array.size_push] at hn
    exact hs.freshSlots n (Nat.le_of_succ_le hn)

end Faults

end Formula
