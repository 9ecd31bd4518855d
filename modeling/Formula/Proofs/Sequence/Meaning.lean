import Formula.Proofs.Run
import Formula.Sequence

/-!
What a list means: a finite sequence of items that ends, or breaks off with a fault. The caches
and the counters of a list are not part of its meaning. `Same` says of two computations that they
cannot be told apart by anything but counters and the caches that nobody watches; the first of
them may run lists, the second one goes by the meanings.
-/
namespace Formula

variable {H W S : Type}

/-- The items of a list, and the fault that comes instead of an end. -/
structure Meaning (H : Type) where
  items : List (Value H)
  ending : Option CollectionError

namespace Meaning

/-- Sends the items until the sink has enough. -/
def sendFrom (ending : Option CollectionError) (sink : Sink H W S) :
    List (Value H) → S → Run H W CollectionError (S × Bool)
  | [], s =>
    match ending with
    | none => pure (s, true)
    | some e => Run.fault e
  | v :: rest, s => do
    let (s, more) ← sink s v
    if more then sendFrom ending sink rest s else pure (s, false)

def send (μ : Meaning H) (sink : Sink H W S) (s : S) : Run H W CollectionError (S × Bool) :=
  sendFrom μ.ending sink μ.items s

/-- A list with this meaning has not been run to its end yet, or it holds all items. -/
def Holds (μ : Meaning H) (c : Cell H) : Prop :=
  c.items = none ∨ μ.ending = none ∧ c.items = some μ.items

end Meaning

/-- The lists whose meaning is known, with their sources. The caches of some of them are
watched. -/
structure Catalog (H : Type) where
  lists : ListRef → Option (Source H × Meaning H)
  watched : ListRef → Prop

/-- Two states of the same list. -/
structure Catalog.Agree (V : Catalog H) (ref : ListRef) (source : Source H) (μ : Meaning H)
    (c c' : Cell H) : Prop where
  left : c.source = source
  right : c'.source = source
  holds : μ.Holds c
  holds' : μ.Holds c'
  watched : V.watched ref → c'.items = c.items

/-- The stores differ in counters and unwatched caches of known lists only. -/
structure Similar (V : Catalog H) (s t : Store H W) : Prop where
  rest : { t with lists := s.lists } = s
  other : ∀ ref, V.lists ref = none → t.lists[ref.number]? = s.lists[ref.number]?
  known : ∀ ref source μ, V.lists ref = some (source, μ) →
    ∃ c c', s.lists[ref.number]? = some c ∧ t.lists[ref.number]? = some c' ∧
      V.Agree ref source μ c c'

/-- A known list that holds its items keeps them, and its source is not started again. -/
def Later (V : Catalog H) (s s' : Store H W) : Prop :=
  ∀ ref source μ, V.lists ref = some (source, μ) → ∀ c, s.lists[ref.number]? = some c →
    c.items.isSome = true →
    ∃ c', s'.lists[ref.number]? = some c' ∧ c'.items = c.items ∧ c'.runs = c.runs

/-- Similar stores, each of them later than another one. -/
structure Linked (V : Catalog H) (s₀ t₀ s t : Store H W) : Prop where
  similar : Similar V s t
  later : Later V s₀ s
  later' : Later V t₀ t

/-- The computations cannot be told apart, and neither touches what a list holds. -/
def Same {ε α : Type} (V : Catalog H) (x y : Run H W ε α) : Prop :=
  ∀ s₀ t₀, Run.Relates (Linked V s₀ t₀) x y

/-- The source of a list does, run with any sink, what its meaning says. One that makes new values
in each run, as the entries of a map do, sends the same only in the sense of a `Reading`. -/
def Sends (m : Machine H W) (V : Catalog H) (depth : Nat) (source : Source H) (μ : Meaning H) :
    Prop :=
  ∀ {S : Type} {sink sink' : Sink H W S}, (∀ s v, Same V (sink s v) (sink' s v)) →
    ∀ s, Same V (Sequence.produce m (Sequence.traverseAt m depth) source s sink) (μ.send sink' s)

variable {V : Catalog H}

theorem Later.refl (s : Store H W) : Later V s s :=
  fun _ _ _ _ c hc _ => ⟨c, hc, rfl, rfl⟩

theorem Later.trans {s s' s'' : Store H W} (h : Later V s s') (h' : Later V s' s'') :
    Later V s s'' := by
  intro ref source μ hV c hc hsome
  obtain ⟨c₁, hc₁, hitems₁, hruns₁⟩ := h ref source μ hV c hc hsome
  obtain ⟨c₂, hc₂, hitems₂, hruns₂⟩ := h' ref source μ hV c₁ hc₁ (by rw [hitems₁]; exact hsome)
  exact ⟨c₂, hc₂, hitems₂.trans hitems₁, hruns₂.trans hruns₁⟩

theorem Linked.refl {s t : Store H W} (h : Similar V s t) : Linked V s t s t :=
  ⟨h, .refl s, .refl t⟩

section Congruence

variable {ε δ α β : Type}

theorem Same.pure (a : α) : Same V (pure a : Run H W ε α) (pure a) := fun _ _ => .pure a

theorem Same.fault (e : ε) : Same V (Run.fault e : Run H W ε α) (Run.fault e) :=
  fun _ _ => .fault e

theorem Same.bind {x y : Run H W ε α} {f g : α → Run H W ε β} (hx : Same V x y)
    (hf : ∀ a, Same V (f a) (g a)) : Same V (x >>= f) (y >>= g) :=
  fun s₀ t₀ => (hx s₀ t₀).bind fun a => hf a s₀ t₀

theorem Same.attempt {x y : Run H W ε α} (h : Same V x y) :
    Same V (x.attempt : Run H W δ (Except ε α)) y.attempt := fun s₀ t₀ => (h s₀ t₀).attempt

/-- What a pair of computations does to two stores, as seen from these. -/
theorem Same.apply {x y : Run H W ε α} (h : Same V x y) {s₀ t₀ s t : Store H W}
    (hst : Linked V s₀ t₀ s t) :
    Run.Matches (fun s' t' => Linked V s₀ t₀ s' t' ∧ Linked V s t s' t') (x s) (y t) := by
  refine (h s t s t (.refl hst.similar)).mono fun s' t' h' => ⟨⟨h'.similar, ?_, ?_⟩, h'⟩
  · exact hst.later.trans h'.later
  · exact hst.later'.trans h'.later'

theorem Meaning.sendFrom_same {sink sink' : Sink H W S} (h : ∀ s v, Same V (sink s v) (sink' s v))
    (ending : Option CollectionError) (items : List (Value H)) (s : S) :
    Same V (sendFrom ending sink items s) (sendFrom ending sink' items s) := by
  induction items generalizing s with
  | nil =>
    cases ending with
    | none => exact .pure _
    | some e => exact .fault e
  | cons v rest ih =>
    refine (h s v).bind fun p => ?_
    obtain ⟨s', more⟩ := p
    cases more with
    | true => exact ih s'
    | false => exact .pure _

end Congruence

theorem getElem?_modify_self {xs : Array (Cell H)} {i : Nat} {f : Cell H → Cell H} {c : Cell H}
    (h : xs[i]? = some c) : (xs.modify i f)[i]? = some (f c) := by
  simp [Array.getElem?_modify, h]

theorem getElem?_modify_other {xs : Array (Cell H)} {i j : Nat} {f : Cell H → Cell H}
    (h : i ≠ j) : (xs.modify i f)[j]? = xs[j]? := by
  simp [Array.getElem?_modify, h]

theorem modify_eq_self {xs : Array (Cell H)} {i : Nat} : xs.modify i id = xs := by
  apply Array.ext_getElem?
  intro j
  rw [Array.getElem?_modify]
  split <;> simp

theorem Later.modifyCell {s : Store H W} (ref : ListRef) {f : Cell H → Cell H}
    (hf : ∀ c, s.lists[ref.number]? = some c → c.items.isSome = true →
      (f c).items = c.items ∧ (f c).runs = c.runs) :
    Later V s { s with lists := s.lists.modify ref.number f } := by
  intro ref' source μ hV c hc hsome
  by_cases hr : ref.number = ref'.number
  · rw [← hr] at hc
    obtain ⟨hitems, hruns⟩ := hf c hc hsome
    exact ⟨f c, by rw [← hr]; exact getElem?_modify_self hc, hitems, hruns⟩
  · exact ⟨c, by rw [getElem?_modify_other hr]; exact hc, rfl, rfl⟩

theorem Similar.modifyCell {s t : Store H W} (h : Similar V s t) {ref : ListRef}
    {source : Source H} {μ : Meaning H} (hV : V.lists ref = some (source, μ))
    {f g : Cell H → Cell H}
    (hagree : ∀ c c', s.lists[ref.number]? = some c → t.lists[ref.number]? = some c' →
      V.Agree ref source μ c c' → V.Agree ref source μ (f c) (g c')) :
    Similar V { s with lists := s.lists.modify ref.number f }
      { t with lists := t.lists.modify ref.number g } := by
  refine ⟨?_, fun ref' hnone => ?_, fun ref' source' μ' hsome => ?_⟩
  · have hrest := h.rest
    cases s
    cases hrest
    rfl
  · have hr : ref.number ≠ ref'.number := by
      intro hr
      have href : ref = ref' := by
        cases ref
        cases ref'
        exact congrArg _ hr
      rw [href, hnone] at hV
      cases hV
    rw [getElem?_modify_other hr, getElem?_modify_other hr]
    exact h.other ref' hnone
  · obtain ⟨c, c', hc, hc', hcc⟩ := h.known ref' source' μ' hsome
    by_cases hr : ref.number = ref'.number
    · have href : ref = ref' := by
        cases ref
        cases ref'
        exact congrArg _ hr
      subst href
      rw [hV] at hsome
      cases hsome
      exact ⟨f c, g c', getElem?_modify_self hc, getElem?_modify_self hc', hagree c c' hc hc' hcc⟩
    · refine ⟨c, c', ?_, ?_, hcc⟩
      · rw [getElem?_modify_other hr]
        exact hc
      · rw [getElem?_modify_other hr]
        exact hc'

theorem Linked.modifyCell {s₀ t₀ s t : Store H W} (h : Linked V s₀ t₀ s t) {ref : ListRef}
    {source : Source H} {μ : Meaning H} (hV : V.lists ref = some (source, μ))
    {f g : Cell H → Cell H}
    (hagree : ∀ c c', s.lists[ref.number]? = some c → t.lists[ref.number]? = some c' →
      V.Agree ref source μ c c' → V.Agree ref source μ (f c) (g c'))
    (hf : ∀ c, s.lists[ref.number]? = some c → c.items.isSome = true →
      (f c).items = c.items ∧ (f c).runs = c.runs)
    (hg : ∀ c, t.lists[ref.number]? = some c → c.items.isSome = true →
      (g c).items = c.items ∧ (g c).runs = c.runs) :
    Linked V s₀ t₀ { s with lists := s.lists.modify ref.number f }
      { t with lists := t.lists.modify ref.number g } :=
  ⟨h.similar.modifyCell hV hagree, h.later.trans (.modifyCell ref hf),
    h.later'.trans (.modifyCell ref hg)⟩

/-- Counters of the first store may change at will, the number of runs while there are no items
yet. -/
theorem Linked.countLeft {s₀ t₀ s t : Store H W} (h : Linked V s₀ t₀ s t) {ref : ListRef}
    {source : Source H} {μ : Meaning H} (hV : V.lists ref = some (source, μ))
    {f : Cell H → Cell H} (hsource : ∀ c, (f c).source = c.source)
    (hitems : ∀ c, (f c).items = c.items)
    (hruns : ∀ c, s.lists[ref.number]? = some c → c.items.isSome = true → (f c).runs = c.runs) :
    Linked V s₀ t₀ { s with lists := s.lists.modify ref.number f } t := by
  have hid : { t with lists := t.lists.modify ref.number id } = t := by rw [modify_eq_self]
  rw [← hid]
  refine h.modifyCell hV (fun c c' _ _ hcc => ?_) (fun c hc hsome => ⟨hitems c, hruns c hc hsome⟩)
    (fun _ _ _ => ⟨rfl, rfl⟩)
  refine ⟨(hsource c).trans hcc.left, hcc.right, ?_, hcc.holds', fun hw => ?_⟩
  · rw [Meaning.Holds, hitems]
    exact hcc.holds
  · rw [hitems]
    exact hcc.watched hw

end Formula
