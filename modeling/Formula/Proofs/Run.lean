import Formula.Store

/-!
Properties of the store that a computation keeps, and relations between two stores that two
computations keep.
-/
namespace Formula

variable {H W ε δ α β : Type}

namespace Run

/-- The computation ends in a value, and the property holds of the store then too. -/
def Always (P : Store H W → Prop) (x : Run H W ε α) : Prop :=
  ∀ s, P s → ∃ a s', x s = .ok a s' ∧ P s'

/-- The computation ends in a value or in a fault, and the property holds of the store then
too. -/
def Keeps (P : Store H W → Prop) (x : Run H W ε α) : Prop :=
  ∀ s, P s → (∃ a s', x s = .ok a s' ∧ P s') ∨ ∃ e s', x s = .error (.fault e) s' ∧ P s'

variable {P : Store H W → Prop}

theorem bind_apply_ok {x : Run H W ε α} {f : α → Run H W ε β} {s u : Store H W} {a : α}
    (h : x s = .ok a u) : (x >>= f) s = f a u := by
  change EStateM.bind x f s = _
  simp [EStateM.bind, h]

theorem bind_apply_error {x : Run H W ε α} {f : α → Run H W ε β} {s u : Store H W} {e : Stop ε}
    (h : x s = .error e u) : (x >>= f) s = .error e u := by
  change EStateM.bind x f s = _
  simp [EStateM.bind, h]

theorem Always.pure (a : α) : Always P (pure a : Run H W ε α) := fun s hs => ⟨a, s, rfl, hs⟩

theorem Always.modify {f : Store H W → Store H W} (h : ∀ s, P s → P (f s)) :
    Always P (modify f : Run H W ε Unit) := fun s hs => ⟨(), f s, rfl, h s hs⟩

theorem Always.bind {x : Run H W ε α} {f : α → Run H W ε β} (hx : Always P x)
    (hf : ∀ a, Always P (f a)) : Always P (x >>= f) := by
  intro s hs
  obtain ⟨a, u, ha, hu⟩ := hx s hs
  rw [bind_apply_ok ha]
  exact hf a u hu

theorem Always.keeps {x : Run H W ε α} (h : Always P x) : Keeps P x := fun s hs => .inl (h s hs)

/-- Reading the store first: what is read is that of the store the rest runs on. -/
theorem Always.read {g : Store H W → α} {x : Run H W ε α} {f : α → Run H W ε β}
    (hx : ∀ s, x s = .ok (g s) s) (hf : ∀ s, P s → ∃ b s', f (g s) s = .ok b s' ∧ P s') :
    Always P (x >>= f) := by
  intro s hs
  rw [bind_apply_ok (hx s)]
  exact hf s hs

theorem Keeps.fault (e : ε) : Keeps P (fault e : Run H W ε α) := fun s hs => .inr ⟨e, s, rfl, hs⟩

theorem Keeps.bind {x : Run H W ε α} {f : α → Run H W ε β} (hx : Keeps P x)
    (hf : ∀ a, Keeps P (f a)) : Keeps P (x >>= f) := by
  intro s hs
  obtain ⟨a, u, ha, hu⟩ | ⟨e, u, he, hu⟩ := hx s hs
  · rw [bind_apply_ok ha]
    exact hf a u hu
  · exact .inr ⟨e, u, bind_apply_error he, hu⟩

theorem Keeps.read {g : Store H W → α} {x : Run H W ε α} {f : α → Run H W ε β}
    (hx : ∀ s, x s = .ok (g s) s)
    (hf : ∀ s, P s → (∃ b s', f (g s) s = .ok b s' ∧ P s') ∨
      ∃ e s', f (g s) s = .error (.fault e) s' ∧ P s') : Keeps P (x >>= f) := by
  intro s hs
  rw [bind_apply_ok (hx s)]
  exact hf s hs

theorem Keeps.after {x : Run H W ε α} {f : α → Run H W ε β} {s u : Store H W} {a : α}
    (hf : Keeps P (f a)) (hx : x s = .ok a u) (hu : P u) :
    (∃ b s', (x >>= f) s = .ok b s' ∧ P s') ∨ ∃ e s', (x >>= f) s = .error (.fault e) s' ∧ P s' := by
  rw [bind_apply_ok hx]
  exact hf u hu

/-- A fault that is caught is a value. -/
theorem Keeps.attempt {x : Run H W ε α} (h : Keeps P x) :
    Always P (x.attempt : Run H W δ (Except ε α)) := by
  intro s hs
  obtain ⟨a, u, ha, hu⟩ | ⟨e, u, he, hu⟩ := h s hs
  · exact ⟨.ok a, u, attempt_ok ha, hu⟩
  · exact ⟨.error e, u, attempt_fault he, hu⟩

theorem Always.forM {xs : List α} {f : α → Run H W ε PUnit} (h : ∀ a, Always P (f a)) :
    Always P (xs.forM f) := by
  induction xs with
  | nil => exact .pure _
  | cons a xs ih => exact (h a).bind fun _ => ih

theorem Always.forM_option {x : Option α} {f : α → Run H W ε PUnit} (h : ∀ a, Always P (f a)) :
    Always P (x.forM f) := by
  cases x with
  | none => exact .pure _
  | some a => exact h a

theorem Always.forIn {xs : List α} {b : β} {f : α → β → Run H W ε (ForInStep β)}
    (h : ∀ a b, Always P (f a b)) : Always P (forIn xs b f) := by
  induction xs generalizing b with
  | nil => exact .pure b
  | cons a xs ih =>
    rw [List.forIn_cons]
    refine (h a b).bind fun r => ?_
    cases r with
    | done b' => exact .pure b'
    | yield b' => exact ih

variable {R : Store H W → Store H W → Prop}

/-- The same value or the same reason to stop, in related stores. -/
def Matches (R : Store H W → Store H W → Prop) :
    EStateM.Result (Stop ε) (Store H W) α → EStateM.Result (Stop ε) (Store H W) α → Prop
  | .ok a s, .ok b t => a = b ∧ R s t
  | .error e s, .error f t => e = f ∧ R s t
  | _, _ => False

/-- Run on related stores, the computations end alike. -/
def Relates (R : Store H W → Store H W → Prop) (x y : Run H W ε α) : Prop :=
  ∀ s t, R s t → Matches R (x s) (y t)

theorem Matches.mono {R' : Store H W → Store H W → Prop} {r q : EStateM.Result (Stop ε) (Store H W) α}
    (h : Matches R r q) (hR : ∀ s t, R s t → R' s t) : Matches R' r q := by
  match r, q, h with
  | .ok _ _, .ok _ _, ⟨he, h⟩ => exact ⟨he, hR _ _ h⟩
  | .error _ _, .error _ _, ⟨he, h⟩ => exact ⟨he, hR _ _ h⟩

theorem Relates.pure (a : α) : Relates R (pure a : Run H W ε α) (pure a) := fun _ _ h => ⟨rfl, h⟩

theorem Relates.fault (e : ε) : Relates R (fault e : Run H W ε α) (fault e) := fun _ _ h => ⟨rfl, h⟩

theorem Matches.bind {x y : Run H W ε α} {f g : α → Run H W ε β} {s t : Store H W}
    (hx : Matches R (x s) (y t))
    (hf : ∀ a s' t', y t = .ok a t' → R s' t' → Matches R (f a s') (g a t')) :
    Matches R ((x >>= f) s) ((y >>= g) t) := by
  cases hs : x s with
  | ok a s' =>
    cases ht : y t with
    | ok b t' =>
      rw [hs, ht] at hx
      obtain ⟨rfl, h'⟩ := hx
      rw [bind_apply_ok hs, bind_apply_ok ht]
      exact hf a s' t' ht h'
    | error e t' => rw [hs, ht] at hx; exact hx.elim
  | error e s' =>
    cases ht : y t with
    | ok b t' => rw [hs, ht] at hx; exact hx.elim
    | error f t' =>
      rw [hs, ht] at hx
      rw [bind_apply_error hs, bind_apply_error ht]
      exact hx

theorem Relates.bind {x y : Run H W ε α} {f g : α → Run H W ε β} (hx : Relates R x y)
    (hf : ∀ a, Relates R (f a) (g a)) : Relates R (x >>= f) (y >>= g) := by
  intro s t h
  exact (hx s t h).bind fun a s' t' _ h' => hf a s' t' h'

theorem Relates.attempt {x y : Run H W ε α} (h : Relates R x y) :
    Relates R (x.attempt : Run H W δ (Except ε α)) y.attempt := by
  intro s t hst
  have hxy := h s t hst
  unfold Run.attempt
  cases hs : x s with
  | ok a s' =>
    cases ht : y t with
    | ok b t' =>
      rw [hs, ht] at hxy
      obtain ⟨rfl, h'⟩ := hxy
      exact ⟨rfl, h'⟩
    | error e t' => rw [hs, ht] at hxy; exact hxy.elim
  | error e s' =>
    cases ht : y t with
    | ok b t' => rw [hs, ht] at hxy; exact hxy.elim
    | error f t' =>
      rw [hs, ht] at hxy
      obtain ⟨rfl, h'⟩ := hxy
      cases e <;> exact ⟨rfl, h'⟩

/-- A step of the first computation alone. -/
theorem Relates.left {x : Run H W ε α} {f : α → Run H W ε β} {y : Run H W ε β} {a : α}
    (hx : ∀ s t, R s t → ∃ s', x s = .ok a s' ∧ R s' t) (hf : Relates R (f a) y) :
    Relates R (x >>= f) y := by
  intro s t h
  obtain ⟨s', hs, h'⟩ := hx s t h
  rw [bind_apply_ok hs]
  exact hf s' t h'

end Run

end Formula
