import Formula.Proofs.Agreement.Values
import Formula.Proofs.Sequence.Memo

/-!
Two stores side by side. A world is true of two stores if the lists whose contents it knows have
these contents, whether they hold them already or would produce them by themselves, if the twins
among the other lists are in the same state, and if what the host remembers agrees. No code has
been escalated, on either side.
-/
namespace Formula
namespace Agreement

variable {H W : Type} {S : Setting H W} {w w' : World H}

/-- The source sends these items in every run, and does nothing else. -/
def Fixed : Source H → List (Value H) → Prop
  | .given items none, vs => items = vs
  | .range bound, vs => rangeItems bound.toInt.toNat 0 = vs
  | _, _ => False

/-- The list consists of these items, whether it holds them already or not. -/
def Holds (c : Cell H) (vs : List (Value H)) : Prop :=
  c.items = some vs ∨ c.items = none ∧ Fixed c.source vs

/-- Sources that send agreeing items if they are run on agreeing lists, and whose items are not
known beforehand. -/
inductive Sources (S : Setting H W) (w : World H) : Source H → Source H → Prop where
  | failing {vs vs' : List (Value H)} {e e' : CollectionError} (h : vs.Forall₂ (Values S w) vs') :
    Sources S w (.given vs (some e)) (.given vs' (some e'))
  | entries {i j : Identity} {d d' : Dict (Value H)} (h : Values S w (.map i d) (.map j d')) :
    Sources S w (.entries d) (.entries d')
  | accept {r q : ListRef} {f g : Function H} (hr : Values S w (.list r) (.list q))
      (hf : Functions S w f g) : Sources S w (.accept r f) (.accept q g)
  | map {r q : ListRef} {f g : Function H} (hr : Values S w (.list r) (.list q))
      (hf : Functions S w f g) : Sources S w (.map r f) (.map q g)
  | combine {r q : ListRef} {f g : Function H} (hr : Values S w (.list r) (.list q))
      (hf : Functions S w f g) : Sources S w (.combine r f) (.combine q g)
  | iir {r q : ListRef} {i j f g : Function H} (hr : Values S w (.list r) (.list q))
      (hi : Functions S w i j) (hf : Functions S w f g) : Sources S w (.iir r i f) (.iir q j g)
  | top {r q : ListRef} {n : Nat} (hr : Values S w (.list r) (.list q)) :
    Sources S w (.top r n) (.top q n)
  | number {r q : ListRef} {f g : Function H} (hr : Values S w (.list r) (.list q))
      (hf : Functions S w f g) : Sources S w (.number r f) (.number q g)

/-- Two lists that come about in the same way: neither has been run to its end, or both have. -/
inductive Twins (S : Setting H W) (w : World H) (c c' : Cell H) : Prop where
  | waiting (hc : c.items = none) (hc' : c'.items = none) (h : Sources S w c.source c'.source)
  | full {vs vs' : List (Value H)} (hc : c.items = some vs) (hc' : c'.items = some vs')
      (h : vs.Forall₂ (Values S w) vs')

/-- Nothing is or will be escalated. -/
def Idle (s : Store H W) : Prop := ∀ slot ∈ s.slots, slot.entry = none ∧ slot.trigger = none

/-- The world is true of the two stores. -/
structure At (S : Setting H W) (w : World H) (s t : Store H W) : Prop where
  left : ∀ r vs, w.left r vs → ∃ c, s.lists[r.number]? = some c ∧ Holds c vs
  right : ∀ q vs, w.right q vs → ∃ c, t.lists[q.number]? = some c ∧ Holds c vs
  twins : ∀ r q, w.twin r q → ∃ c c', s.lists[r.number]? = some c ∧ t.lists[q.number]? = some c' ∧
    Twins S w c c'
  functional : ∀ r q q', w.twin r q → w.twin r q' → q = q'
  injective : ∀ r r' q, w.twin r q → w.twin r' q → r = r'
  notLeft : ∀ r q vs, w.twin r q → ¬w.left r vs
  notRight : ∀ r q vs, w.twin r q → ¬w.right q vs
  idleLeft : Idle s
  idleRight : Idle t
  memory : S.memory (Values S) w s.world t.world

theorem ListRef.ext {r q : ListRef} (h : r.number = q.number) : r = q := by
  cases r
  cases q
  exact congrArg _ h

theorem Holds.unique {c : Cell H} {vs vs' : List (Value H)} (h : Holds c vs) (h' : Holds c vs') :
    vs = vs' := by
  obtain h | ⟨hn, h⟩ := h
  · obtain h' | ⟨hn', -⟩ := h'
    · rw [h] at h'
      exact Option.some.inj h'
    · rw [h] at hn'
      cases hn'
  · obtain h' | ⟨-, h'⟩ := h'
    · rw [hn] at h'
      cases h'
    · cases hs : c.source with
      | given items ending =>
        rw [hs] at h h'
        cases ending with
        | none => exact h.symm.trans h'
        | some e => exact h.elim
      | range bound =>
        rw [hs] at h h'
        exact h.symm.trans h'
      | _ =>
        rw [hs] at h
        exact h.elim

theorem Sources.mono (hw : w ≤ w') {a b : Source H} (h : Sources S w a b) : Sources S w' a b := by
  cases h with
  | failing h => exact .failing (forall₂_mono hw h)
  | entries h => exact .entries (h.mono hw)
  | accept hr hf => exact .accept (hr.mono hw) (hf.mono hw)
  | map hr hf => exact .map (hr.mono hw) (hf.mono hw)
  | combine hr hf => exact .combine (hr.mono hw) (hf.mono hw)
  | iir hr hi hf => exact .iir (hr.mono hw) (hi.mono hw) (hf.mono hw)
  | top hr => exact .top (hr.mono hw)
  | number hr hf => exact .number (hr.mono hw) (hf.mono hw)

theorem Sources.not_fixed {a b : Source H} (h : Sources S w a b) (vs : List (Value H)) :
    ¬Fixed a vs ∧ ¬Fixed b vs := by
  cases h <;> exact ⟨id, id⟩

theorem Twins.mono (hw : w ≤ w') {c c' : Cell H} (h : Twins S w c c') : Twins S w' c c' := by
  cases h with
  | waiting hc hc' h => exact .waiting hc hc' (h.mono hw)
  | full hc hc' h => exact .full hc hc' (forall₂_mono hw h)

theorem getElem?_push_of_some {xs : Array (Cell H)} {i : Nat} {a b : Cell H}
    (h : xs[i]? = some a) : (xs.push b)[i]? = some a := by
  rw [Array.getElem?_push, if_neg, h]
  have hi := (Array.getElem?_eq_some_iff.1 h).1
  omega

namespace At

variable {s s' t t' : Store H W}

/-- Only the lists, the slots and the memory of the host matter. -/
theorem congr (h : At S w s t) (hs : s'.lists = s.lists) (ht : t'.lists = t.lists)
    (hidle : Idle s') (hidle' : Idle t') (hmemory : S.memory (Values S) w s'.world t'.world) :
    At S w s' t' :=
  { h with
    left := by rw [hs]; exact h.left
    right := by rw [ht]; exact h.right
    twins := by rw [hs, ht]; exact h.twins
    idleLeft := hidle
    idleRight := hidle'
    memory := hmemory }

/-- A new list of the first store whose contents are known. -/
theorem newLeft (h : At S w s t) {c : Cell H} {vs : List (Value H)} (hc : Holds c vs) :
    ∃ w', w ≤ w' ∧ w'.left ⟨s.lists.size⟩ vs ∧ At S w' { s with lists := s.lists.push c } t := by
  let w' : World H := { w with left := fun r vs' => w.left r vs' ∨ r = ⟨s.lists.size⟩ ∧ vs' = vs }
  have hw : w ≤ w' := ⟨fun _ _ hl => .inl hl, fun _ _ hr => hr, fun _ _ ht => ht⟩
  refine ⟨w', hw, .inr ⟨rfl, rfl⟩, ?_⟩
  refine { h with
    left := ?_, twins := ?_, notLeft := ?_, memory := memory_le hw h.memory }
  · rintro r vs' (hl | ⟨rfl, rfl⟩)
    · obtain ⟨c', hc', hv⟩ := h.left r vs' hl
      exact ⟨c', getElem?_push_of_some hc', hv⟩
    · exact ⟨c, Array.getElem?_push_size, hc⟩
  · intro r q ht
    obtain ⟨a, b, ha, hb, hab⟩ := h.twins r q ht
    exact ⟨a, b, getElem?_push_of_some ha, hb, hab.mono hw⟩
  · rintro r q vs' ht (hl | ⟨rfl, -⟩)
    · exact h.notLeft r q vs' ht hl
    · obtain ⟨a, b, ha, -⟩ := h.twins _ q ht
      simp at ha

/-- A new list of the second store whose contents are known. -/
theorem newRight (h : At S w s t) {c : Cell H} {vs : List (Value H)} (hc : Holds c vs) :
    ∃ w', w ≤ w' ∧ w'.right ⟨t.lists.size⟩ vs ∧ At S w' s { t with lists := t.lists.push c } := by
  let w' : World H := { w with right := fun q vs' => w.right q vs' ∨ q = ⟨t.lists.size⟩ ∧ vs' = vs }
  have hw : w ≤ w' := ⟨fun _ _ hl => hl, fun _ _ hr => .inl hr, fun _ _ ht => ht⟩
  refine ⟨w', hw, .inr ⟨rfl, rfl⟩, ?_⟩
  refine { h with
    right := ?_, twins := ?_, notRight := ?_, memory := memory_le hw h.memory }
  · rintro q vs' (hr | ⟨rfl, rfl⟩)
    · obtain ⟨c', hc', hv⟩ := h.right q vs' hr
      exact ⟨c', getElem?_push_of_some hc', hv⟩
    · exact ⟨c, Array.getElem?_push_size, hc⟩
  · intro r q ht
    obtain ⟨a, b, ha, hb, hab⟩ := h.twins r q ht
    exact ⟨a, b, ha, getElem?_push_of_some hb, hab.mono hw⟩
  · rintro r q vs' ht (hr | ⟨rfl, -⟩)
    · exact h.notRight r q vs' ht hr
    · obtain ⟨a, b, -, hb, -⟩ := h.twins r _ ht
      simp at hb

/-- One list of each store may change, as long as contents stay what they are and twins are changed
together. -/
theorem modify (h : At S w s t) (r q : ListRef) {f g : Cell H → Cell H}
    (hleft : ∀ c vs, w.left r vs → Holds c vs → Holds (f c) vs)
    (hright : ∀ c vs, w.right q vs → Holds c vs → Holds (g c) vs)
    (htwin : ∀ c c' r' q', w.twin r' q' → r' = r ∨ q' = q → Twins S w c c' →
      Twins S w (if r' = r then f c else c) (if q' = q then g c' else c')) :
    At S w { s with lists := s.lists.modify r.number f }
      { t with lists := t.lists.modify q.number g } := by
  have cell {xs : Array (Cell H)} {k r : ListRef} {f : Cell H → Cell H} {c : Cell H}
      (hc : xs[k.number]? = some c) :
      (xs.modify r.number f)[k.number]? = some (if k = r then f c else c) := by
    by_cases hk : k = r
    · subst hk
      rw [if_pos rfl]
      exact getElem?_modify_self hc
    · rw [if_neg hk, getElem?_modify_other fun he => hk (ListRef.ext he.symm), hc]
  refine { h with left := ?_, right := ?_, twins := ?_ }
  · intro r' vs hl
    obtain ⟨c, hc, hv⟩ := h.left r' vs hl
    refine ⟨_, cell hc, ?_⟩
    by_cases hr : r' = r
    · rw [if_pos hr]
      exact hleft c vs (hr ▸ hl) hv
    · rw [if_neg hr]
      exact hv
  · intro q' vs hr
    obtain ⟨c, hc, hv⟩ := h.right q' vs hr
    refine ⟨_, cell hc, ?_⟩
    by_cases hq : q' = q
    · rw [if_pos hq]
      exact hright c vs (hq ▸ hr) hv
    · rw [if_neg hq]
      exact hv
  · intro r' q' ht
    obtain ⟨c, c', hc, hc', hcc⟩ := h.twins r' q' ht
    refine ⟨_, _, cell hc, cell hc', ?_⟩
    by_cases hrq : r' = r ∨ q' = q
    · exact htwin c c' r' q' ht hrq hcc
    · rw [not_or] at hrq
      rw [if_neg hrq.1, if_neg hrq.2]
      exact hcc

theorem holds_count {c : Cell H} {vs : List (Value H)} (h : Holds c vs) {f : Cell H → Cell H}
    (hsource : (f c).source = c.source) (hitems : (f c).items = c.items) : Holds (f c) vs := by
  rw [Holds, hsource, hitems]
  exact h

/-- Counters do not matter. -/
theorem count (h : At S w s t) (r q : ListRef) {f g : Cell H → Cell H}
    (hf : ∀ c, (f c).source = c.source ∧ (f c).items = c.items)
    (hg : ∀ c, (g c).source = c.source ∧ (g c).items = c.items) :
    At S w { s with lists := s.lists.modify r.number f }
      { t with lists := t.lists.modify q.number g } := by
  have same {f : Cell H → Cell H} (hf : ∀ c, (f c).source = c.source ∧ (f c).items = c.items)
      (c : Cell H) (b : Prop) [Decidable b] :
      (if b then f c else c).source = c.source ∧ (if b then f c else c).items = c.items := by
    by_cases hb : b
    · rw [if_pos hb]
      exact hf c
    · rw [if_neg hb]
      exact ⟨rfl, rfl⟩
  refine h.modify r q (fun c vs _ hv => holds_count hv (hf c).1 (hf c).2)
    (fun c vs _ hv => holds_count hv (hg c).1 (hg c).2) fun c c' r' q' _ _ hcc => ?_
  obtain ⟨hs, hi⟩ := same hf c (r' = r)
  obtain ⟨hs', hi'⟩ := same hg c' (q' = q)
  cases hcc with
  | waiting hc hc' hsource =>
    rw [← hs, ← hs'] at hsource
    exact .waiting (hi.trans hc) (hi'.trans hc') hsource
  | full hc hc' hvs => exact .full (hi.trans hc) (hi'.trans hc') hvs

theorem modify_id {xs : Array (Cell H)} {i : Nat} : xs.modify i (fun c => c) = xs := modify_eq_self

theorem countLeft (h : At S w s t) (r : ListRef) {f : Cell H → Cell H}
    (hf : ∀ c, (f c).source = c.source ∧ (f c).items = c.items) :
    At S w { s with lists := s.lists.modify r.number f } t := by
  have hcount := h.count r r hf (g := fun c => c) fun _ => ⟨rfl, rfl⟩
  rw [modify_id] at hcount
  exact hcount

theorem countRight (h : At S w s t) (q : ListRef) {f : Cell H → Cell H}
    (hf : ∀ c, (f c).source = c.source ∧ (f c).items = c.items) :
    At S w s { t with lists := t.lists.modify q.number f } := by
  have hcount := h.count q q (f := fun c => c) (fun _ => ⟨rfl, rfl⟩) hf
  rw [modify_id] at hcount
  exact hcount

/-- A list whose contents are known comes to hold them. -/
theorem holds_fill {c : Cell H} {vs : List (Value H)} (h : Holds c vs) :
    Holds { c with items := some (c.items.getD vs) } vs := by
  obtain h | ⟨h, -⟩ := h
  · exact .inl (by simp [h])
  · exact .inl (by simp [h])

theorem fillLeft (h : At S w s t) {r : ListRef} {vs : List (Value H)} (hr : w.left r vs) :
    At S w { s with lists := s.lists.modify r.number fun c =>
      { c with items := some (c.items.getD vs) } } t := by
  have hfill := h.modify r r (f := fun c => { c with items := some (c.items.getD vs) })
    (g := fun c => c) ?_ (fun c vs _ hv => hv) ?_
  · rw [modify_id] at hfill
    exact hfill
  · intro c vs' hl hv
    obtain ⟨a, ha, hav⟩ := h.left r vs hr
    obtain ⟨b, hb, hbv⟩ := h.left r vs' hl
    rw [ha] at hb
    cases hb
    rw [hav.unique hbv]
    exact holds_fill hv
  · intro c c' r' q' ht hrq hcc
    have hne : r' ≠ r := fun he => h.notLeft r' q' vs ht (he ▸ hr)
    rw [if_neg hne, ite_self]
    exact hcc

theorem fillRight (h : At S w s t) {q : ListRef} {vs : List (Value H)} (hq : w.right q vs) :
    At S w s { t with lists := t.lists.modify q.number fun c =>
      { c with items := some (c.items.getD vs) } } := by
  have hfill := h.modify q q (f := fun c => c)
    (g := fun c => { c with items := some (c.items.getD vs) }) (fun c vs _ hv => hv) ?_ ?_
  · rw [modify_id] at hfill
    exact hfill
  · intro c vs' hr hv
    obtain ⟨a, ha, hav⟩ := h.right q vs hq
    obtain ⟨b, hb, hbv⟩ := h.right q vs' hr
    rw [ha] at hb
    cases hb
    rw [hav.unique hbv]
    exact holds_fill hv
  · intro c c' r' q' ht hrq hcc
    have hne : q' ≠ q := fun he => h.notRight r' q' vs ht (he ▸ hq)
    rw [if_neg hne, ite_self]
    exact hcc

/-- Twins come to hold their items together, unless they do already. -/
theorem fillTwins (h : At S w s t) {r q : ListRef} (hrq : w.twin r q) {vs vs' : List (Value H)}
    (hvs : vs.Forall₂ (Values S w) vs') :
    At S w
      { s with lists := s.lists.modify r.number fun c =>
        { c with items := some (c.items.getD vs) } }
      { t with lists := t.lists.modify q.number fun c =>
        { c with items := some (c.items.getD vs') } } := by
  refine h.modify r q (fun c vs hl => (h.notLeft r q vs hrq hl).elim)
    (fun c vs hr => (h.notRight r q vs hrq hr).elim) fun c c' r' q' ht hor hcc => ?_
  have hr : r' = r := by
    obtain hr | hq := hor
    · exact hr
    · exact h.injective r' r q (hq ▸ ht) hrq
  have hq : q' = q := h.functional r' q' q ht (hr ▸ hrq)
  rw [if_pos hr, if_pos hq]
  cases hcc with
  | waiting hc hc' _ => exact .full (by simp [hc]) (by simp [hc']) hvs
  | full hc hc' hvs' => exact .full (by simp [hc]) (by simp [hc']) hvs'

end At

end Agreement

end Formula
