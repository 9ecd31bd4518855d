import Formula.Proofs.Agreement.Stores

/-!
Two computations that end alike. Both end in values that agree, both in a fault, or both in a
panic, and afterwards some larger world is true of the stores.

A computation may also run out of its budget of nested calls. Nothing is said then, but it is
fixed beforehand which of the two may: going forward, the first one has at most the budget of the
second; going backward, the second one has less than the first.
-/
namespace Formula
namespace Agreement

variable {H W ε δ ε' δ' α β γ κ : Type}

inductive Mode where
  | forward
  | backward

/-- The budgets that a mode allows. -/
def Mode.Ready : Mode → Nat → Nat → Prop
  | .forward, n, k => n ≤ k
  | .backward, n, k => k < n

/-- How a computation on the store ends. -/
abbrev Result (H W ε α : Type) := EStateM.Result (Stop ε) (Store H W) α

/-- The computation that may run out of budget has done so. -/
def Spent : Mode → Result H W ε α → Result H W δ β → Prop
  | .forward, r, _ => ∃ s, r = .error .exhausted s
  | .backward, _, q => ∃ s, q = .error .exhausted s

inductive Alike (S : Setting H W) (R : World H → α → β → Prop) (w : World H) :
    Result H W ε α → Result H W δ β → Prop where
  | ok {w' : World H} {a : α} {b : β} {s t : Store H W} (hw : w ≤ w') (h : R w' a b)
      (hs : At S w' s t) : Alike S R w (.ok a s) (.ok b t)
  | fault {w' : World H} {e : ε} {e' : δ} {s t : Store H W} (hw : w ≤ w') (hs : At S w' s t) :
    Alike S R w (.error (.fault e) s) (.error (.fault e') t)
  | panic {w' : World H} {p p' : String} {s t : Store H W} (hw : w ≤ w') (hs : At S w' s t) :
    Alike S R w (.error (.panic p) s) (.error (.panic p') t)

/-- The two computations have ended alike, unless the one that may has run out of budget. -/
def Ends (S : Setting H W) (mode : Mode) (R : World H → α → β → Prop) (w : World H)
    (r : Result H W ε α) (q : Result H W δ β) : Prop := Spent mode r q ∨ Alike S R w r q

/-- Run on stores of which a larger world is true, the computations end alike. -/
def Related (S : Setting H W) (mode : Mode) (R : World H → α → β → Prop) (w : World H)
    (x : Run H W ε α) (y : Run H W δ β) : Prop :=
  ∀ w', w ≤ w' → ∀ s t, At S w' s t → Ends S mode R w' (x s) (y t)

/-- What agrees keeps agreeing when more is known. -/
def Mono (R : World H → α → β → Prop) : Prop := ∀ w w' a b, w ≤ w' → R w a b → R w' a b

variable {S : Setting H W} {mode : Mode} {w w' : World H} {R : World H → α → β → Prop}
  {R' : World H → γ → κ → Prop} {r : Result H W ε α} {q : Result H W δ β}

theorem Mode.ready_succ {n k : Nat} : mode.Ready (n + 1) (k + 1) ↔ mode.Ready n k := by
  cases mode with
  | forward => exact Nat.succ_le_succ_iff
  | backward => exact Nat.succ_lt_succ_iff

/-- One of the two computations has no budget left, or both have some. -/
theorem Mode.Ready.cases {n k : Nat} (h : mode.Ready n k) :
    (mode = .forward ∧ n = 0) ∨ (mode = .backward ∧ k = 0) ∨
      ∃ n' k', n = n' + 1 ∧ k = k' + 1 ∧ mode.Ready n' k' := by
  cases n with
  | zero =>
    cases mode with
    | forward => exact .inl ⟨rfl, rfl⟩
    | backward => exact absurd h (Nat.not_lt_zero k)
  | succ n =>
    cases k with
    | zero =>
      cases mode with
      | forward => exact absurd h (Nat.not_succ_le_zero n)
      | backward => exact .inr (.inl ⟨rfl, rfl⟩)
    | succ k => exact .inr (.inr ⟨n, k, rfl, rfl, ready_succ.1 h⟩)

theorem Ends.ok {a : α} {b : β} {s t : Store H W} (h : R w a b) (hs : At S w s t) :
    Ends S mode R w (.ok a s : Result H W ε α) (.ok b t : Result H W δ β) :=
  .inr (.ok le_rfl h hs)

theorem Ends.fault {e : ε} {e' : δ} {s t : Store H W} (hs : At S w s t) :
    Ends S mode R w (.error (.fault e) s : Result H W ε α) (.error (.fault e') t : Result H W δ β) :=
  .inr (.fault le_rfl hs)

/-- How two computations end in a larger world, seen from a smaller one. -/
theorem Ends.from (hw : w ≤ w') (h : Ends S mode R w' r q) : Ends S mode R w r q := by
  obtain h | h := h
  · exact .inl h
  · cases h with
    | ok hw' h hs => exact .inr (.ok (hw.trans hw') h hs)
    | fault hw' hs => exact .inr (.fault (hw.trans hw') hs)
    | panic hw' hs => exact .inr (.panic (hw.trans hw') hs)

theorem Ends.bind {x : Run H W ε α} {y : Run H W δ β} {f : α → Run H W ε γ} {g : β → Run H W δ κ}
    {s t : Store H W} (h : Ends S mode R w (x s) (y t))
    (hf : ∀ w' a b s' t', w ≤ w' → R w' a b → At S w' s' t' →
      Ends S mode R' w' (f a s') (g b t')) :
    Ends S mode R' w ((x >>= f) s) ((y >>= g) t) := by
  cases hx : x s with
  | ok a s' =>
    rw [Run.bind_apply_ok hx]
    rw [hx] at h
    cases hy : y t with
    | ok b t' =>
      rw [Run.bind_apply_ok hy]
      rw [hy] at h
      obtain h | h := h
      · cases mode <;> (obtain ⟨_, h⟩ := h; cases h)
      · cases h with
        | ok hw hab hst => exact (hf _ a b s' t' hw hab hst).from hw
    | error e t' =>
      rw [Run.bind_apply_error hy]
      rw [hy] at h
      obtain h | h := h
      · cases mode with
        | forward => obtain ⟨_, h⟩ := h; cases h
        | backward => obtain ⟨u, h⟩ := h; cases h; exact .inl ⟨_, rfl⟩
      · cases h
  | error e s' =>
    rw [Run.bind_apply_error hx]
    rw [hx] at h
    obtain h | h := h
    · cases mode with
      | forward => obtain ⟨u, h⟩ := h; cases h; exact .inl ⟨_, rfl⟩
      | backward =>
        obtain ⟨u, hy⟩ := h
        exact .inl ⟨u, Run.bind_apply_error hy⟩
    · cases hy : y t with
      | ok b t' => rw [hy] at h; cases h
      | error e' t' =>
        rw [Run.bind_apply_error hy]
        rw [hy] at h
        cases h with
        | fault hw hs => exact .inr (.fault hw hs)
        | panic hw hs => exact .inr (.panic hw hs)

/-- The texts of faults do not matter. -/
theorem Ends.mapFault {x : Run H W ε α} {y : Run H W δ β} {f : ε → ε'} {g : δ → δ'}
    {s t : Store H W} (h : Ends S mode R w (x s) (y t)) :
    Ends S mode R w (x.mapFault f s) (y.mapFault g t) := by
  unfold Run.mapFault
  obtain h | h := h
  · cases mode with
    | forward => obtain ⟨u, h⟩ := h; exact .inl ⟨u, by rw [h]⟩
    | backward => obtain ⟨u, h⟩ := h; exact .inl ⟨u, by rw [h]⟩
  · generalize x s = r, y t = q at h ⊢
    cases h with
    | ok hw h hs => exact .inr (.ok hw h hs)
    | fault hw hs => exact .inr (.fault hw hs)
    | panic hw hs => exact .inr (.panic hw hs)

/-- The same end, up to the text of a fault. -/
inductive SameEnd : Result H W δ β → Result H W δ' β → Prop where
  | ok (b : β) (t : Store H W) : SameEnd (.ok b t) (.ok b t)
  | fault (e : δ) (e' : δ') (t : Store H W) : SameEnd (.error (.fault e) t) (.error (.fault e') t)
  | panic (p : String) (t : Store H W) : SameEnd (.error (.panic p) t) (.error (.panic p) t)
  | exhausted (t : Store H W) : SameEnd (.error .exhausted t) (.error .exhausted t)

theorem SameEnd.symm {q : Result H W δ β} {q' : Result H W δ' β} (h : SameEnd q q') :
    SameEnd q' q := by
  cases h <;> constructor

theorem sameEnd_mapFault (y : Run H W δ β) (g : δ → δ') (t : Store H W) :
    SameEnd (y t) (y.mapFault g t) := by
  unfold Run.mapFault
  cases y t with
  | ok b u => exact .ok b u
  | error e u =>
    cases e with
    | fault e => exact .fault e (g e) u
    | panic p => exact .panic p u
    | exhausted => exact .exhausted u

theorem Ends.sameEnd {q' : Result H W δ' β} (h : Ends S mode R w r q) (hq : SameEnd q q') :
    Ends S mode R w r q' := by
  obtain h | h := h
  · cases mode with
    | forward => exact .inl h
    | backward =>
      obtain ⟨u, rfl⟩ := h
      cases hq
      exact .inl ⟨u, rfl⟩
  · cases h with
    | ok hw h hs =>
      cases hq
      exact .inr (.ok hw h hs)
    | fault hw hs =>
      cases hq
      exact .inr (.fault hw hs)
    | panic hw hs =>
      cases hq
      exact .inr (.panic hw hs)

theorem Ends.mapFault_right_iff {y : Run H W δ β} {g : δ → δ'} {t : Store H W} :
    Ends S mode R w r (y.mapFault g t) ↔ Ends S mode R w r (y t) :=
  ⟨fun h => h.sameEnd (sameEnd_mapFault y g t).symm, fun h => h.sameEnd (sameEnd_mapFault y g t)⟩

/-- Both attempts have a result that agrees, or both have a fault. -/
def Attempts (R : World H → α → β → Prop) (w : World H) : Except ε α → Except δ β → Prop
  | .ok a, .ok b => R w a b
  | .error _, .error _ => True
  | _, _ => False

theorem Ends.attempt {x : Run H W ε α} {y : Run H W δ β} {s t : Store H W}
    (h : Ends S mode R w (x s) (y t)) :
    Ends S mode (Attempts R) w ((x.attempt : Run H W ε' _) s) ((y.attempt : Run H W δ' _) t) := by
  unfold Run.attempt
  obtain h | h := h
  · cases mode with
    | forward => obtain ⟨u, h⟩ := h; exact .inl ⟨u, by rw [h]⟩
    | backward => obtain ⟨u, h⟩ := h; exact .inl ⟨u, by rw [h]⟩
  · generalize x s = r, y t = q at h ⊢
    cases h with
    | ok hw h hs => exact .inr (.ok hw h hs)
    | fault hw hs => exact .inr (.ok hw trivial hs)
    | panic hw hs => exact .inr (.panic hw hs)

theorem mono_values : Mono (Values S) := fun _ _ _ _ hw h => h.mono hw

theorem mono_forall₂ : Mono fun w (vs vs' : List (Value H)) => vs.Forall₂ (Values S w) vs' :=
  fun _ _ _ _ hw h => forall₂_mono hw h

namespace Related

variable {x : Run H W ε α} {y : Run H W δ β}

theorem mono (h : Related S mode R w x y) (hw : w ≤ w') : Related S mode R w' x y :=
  fun w'' hw' => h w'' (hw.trans hw')

theorem pure (hR : Mono R) {a : α} {b : β} (h : R w a b) :
    Related S mode R w (pure a : Run H W ε α) (pure b : Run H W δ β) :=
  fun _ hw _ _ hst => .ok (hR _ _ _ _ hw h) hst

theorem fault (e : ε) (e' : δ) :
    Related S mode R w (Run.fault e : Run H W ε α) (Run.fault e' : Run H W δ β) :=
  fun _ _ _ _ hst => .fault hst

theorem bind {f : α → Run H W ε γ} {g : β → Run H W δ κ} (h : Related S mode R w x y)
    (hf : ∀ w' a b, w ≤ w' → R w' a b → Related S mode R' w' (f a) (g b)) :
    Related S mode R' w (x >>= f) (y >>= g) := by
  intro w' hw s t hst
  exact (h w' hw s t hst).bind fun w'' a b s' t' hw' hab hst' =>
    hf w'' a b (hw.trans hw') hab w'' le_rfl s' t' hst'

/-- The second computation only starts with a value that is known. -/
theorem bind_const {b : β} {f : α → Run H W ε γ} {y : Run H W δ' κ}
    (h : Related S mode R w x (Pure.pure b : Run H W δ β))
    (hf : ∀ w' a, w ≤ w' → R w' a b → Related S mode R' w' (f a) y) :
    Related S mode R' w (x >>= f) y := by
  intro w' hw s t hst
  have hx := h w' hw s t hst
  cases hs : x s with
  | ok a s' =>
    rw [hs] at hx
    rw [Run.bind_apply_ok hs]
    obtain hx | hx := hx
    · cases mode <;> (obtain ⟨_, hx⟩ := hx; cases hx)
    · cases hx with
      | ok hw' hab hst' => exact (hf _ a (hw.trans hw') hab _ le_rfl s' t hst').from hw'
  | error e s' =>
    rw [hs] at hx
    rw [Run.bind_apply_error hs]
    obtain hx | hx := hx
    · cases mode with
      | forward => obtain ⟨_, hx⟩ := hx; cases hx; exact .inl ⟨_, rfl⟩
      | backward => obtain ⟨_, hx⟩ := hx; cases hx
    · cases hx

theorem mapFault {f : ε → ε'} {g : δ → δ'} (h : Related S mode R w x y) :
    Related S mode R w (x.mapFault f) (y.mapFault g) :=
  fun w' hw s t hst => (h w' hw s t hst).mapFault

theorem attempt (h : Related S mode R w x y) :
    Related S mode (Attempts R) w (x.attempt : Run H W ε' _) (y.attempt : Run H W δ' _) :=
  fun w' hw s t hst => (h w' hw s t hst).attempt

/-- Running out of budget where this is allowed. -/
theorem exhausted_left : Related S .forward R w (Run.exhausted : Run H W ε α) y :=
  fun _ _ s _ _ => .inl ⟨s, rfl⟩

theorem exhausted_right : Related S .backward R w x (Run.exhausted : Run H W δ β) :=
  fun _ _ _ t _ => .inl ⟨t, rfl⟩

end Related

theorem newMap_related {d d' : Dict (Value H)}
    (h : ∀ i j, Values S w (.map i d) (.map j d')) :
    Related S mode (Values S) w (Store.newMap d : Run H W ε _) (Store.newMap d' : Run H W δ _) := by
  intro w' hw s t hst
  refine .ok ((h (.made s.identities) (.made t.identities)).mono hw) ?_
  exact hst.congr rfl rfl hst.idleLeft hst.idleRight hst.memory

theorem newList_related {vs vs' : List (Value H)} (h : vs.Forall₂ (Values S w) vs') :
    Related S mode (Values S) w (Store.newList vs : Run H W ε _) (Store.newList vs' : Run H W δ _) := by
  intro w' hw s t hst
  obtain ⟨w₁, hw₁, hleft, hst₁⟩ :=
    hst.newLeft (c := { source := .given vs none, items := some vs }) (.inl rfl)
  obtain ⟨w₂, hw₂, hright, hst₂⟩ :=
    hst₁.newRight (c := { source := .given vs' none, items := some vs' }) (.inl rfl)
  obtain ⟨z, rfl, rfl, hz⟩ := forall₂_iff.1 (forall₂_mono (hw.trans (hw₁.trans hw₂)) h)
  exact (Ends.ok (.list z (World.le_left hw₂ hleft) hright hz) hst₂).from (hw₁.trans hw₂)

end Agreement

end Formula
