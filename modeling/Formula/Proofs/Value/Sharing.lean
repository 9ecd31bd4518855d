import Formula.Dialect.Standard
import Formula.Engine
import Formula.Proofs.Double.Equality
import Formula.Proofs.Value.Comparison

/-!
Whether it matters that two lists are one. A list is equal to itself without being run, while two
lists that were made in the same way are run and compared item by item. So the answers are the same
if the lists can be run to their end and every item is equal to the item that the other list makes
in its place, and only then: with a NaN among the items, or with a producer that fails, it can be
seen whether a list was made once or twice.

Where two lists hold the very same items, NaN is the only item that matters. A list, a map or a
function among the items is compared with itself, whatever is in it.
-/
namespace Formula

variable {H W D : Type}

namespace Reading

open Run

variable {R : Reading H W D} {m : Machine H W} {l l' : ListRef} {μ : Course D} {E : D → Prop}
  {s : Store H W}

theorem compares_copies {equal : Value H → Value H → Run H W Empty Bool}
    (h : ∀ d ∈ μ.items, R.Compares equal d d (E d)) :
    ∀ p ∈ μ.items.zip μ.items, R.Compares equal p.1 p.2 (E p.1) := by
  intro p hp
  rw [List.zip_eq_zipWith, List.zipWith_self, List.mem_map] at hp
  obtain ⟨d, hd, rfl⟩ := hp
  exact h d hd

theorem forall₂_copies (ds : List D) : ds.Forall₂ (fun d _ => E d) ds ↔ ∀ d ∈ ds, E d :=
  List.forall₂_same

/-- Two lists of the same course agree if it has an end and all of its items are equal to
themselves. -/
theorem gives_copies (hne : l ≠ l') (hl : R.Yields m l μ) (hl' : R.Yields m l' μ)
    (h : ∀ d ∈ μ.items, R.Compares (Value.equal m) d d (E d)) (hs : R.Valid s) :
    Gives (R.Later s) (fun _ b p => b = true ↔ p) (Sequence.equal m l l' s)
      ((fun ds => ∀ d ∈ ds, E d) <$> μ.all) := by
  have hgives := gives_listsEqual (A := fun d _ => E d) hne hl hl' (compares_copies h) hs
  unfold Course.all at hgives ⊢
  cases hμ : μ.ending with
  | none =>
    rw [hμ] at hgives
    obtain ⟨b, t, hb, ht, hiff⟩ := hgives.of_ok
    rw [Sequence.equal, hb]
    exact ⟨ht, hiff.trans (forall₂_copies _)⟩
  | some e =>
    rw [hμ] at hgives
    exact hgives

theorem decides_copies {n : Nat} (hne : l ≠ l') (hl : R.Yields m l μ) (hl' : R.Yields m l' μ)
    (h : ∀ d ∈ μ.items, R.Compares (Value.equalAt m n) d d (E d)) (hs : R.Valid s) :
    Decides (R.Later s) (Value.equalAt m (n + 1) (.list l) (.list l')) s
      (μ.ending = none ∧ ∀ d ∈ μ.items, E d) := by
  have hdecides := decides_list_equal (A := fun d _ => E d) hne hl hl' (compares_copies h) hs
  refine hdecides.congr ⟨fun ⟨hending, _, hall⟩ => ?_, fun ⟨hending, hall⟩ => ?_⟩
  · exact ⟨hending, (forall₂_copies _).1 hall⟩
  · exact ⟨hending, hending, (forall₂_copies _).2 hall⟩

end Reading

namespace Value

variable {m : Machine H W}

def isNaN : Value H → Bool
  | .float x => x.isNaN
  | _ => false

/-- A value that is compared with itself is equal unless it is a NaN. -/
theorem equalAt_self (m : Machine H W) (n : Nat) (v : Value H) (s : Store H W) :
    equalAt m (n + 1) v v s = .ok (!v.isNaN) s := by
  cases v with
  | float x =>
    rw [equalAt, Double.beq_self]
    rfl
  | int a =>
    rw [equalAt, beq_self_eq_true]
    rfl
  | bool b =>
    rw [equalAt, beq_self_eq_true]
    rfl
  | str t =>
    rw [equalAt, beq_self_eq_true]
    rfl
  | closure f =>
    rw [equalAt, Function.same, beq_self_eq_true]
    rfl
  | list l => exact equalAt_list_ok (listsEqual_self l s)
  | map i a =>
    rw [equalAt, if_pos rfl]
    rfl

/-- If values have one form for each datum, data that are no NaN are equal to themselves. -/
theorem compares_embedded {lists : ListRef → Option (Source H × Course D)} {embed : D → Value H}
    {n : Nat} (hn : 0 < n) (d : D) :
    (Reading.embedded lists embed).Compares (equalAt m n) d d ((embed d).isNaN = false) := by
  rintro s _ _ hs rfl rfl
  obtain ⟨k, rfl⟩ := Nat.exists_eq_succ_of_ne_zero (Nat.ne_of_gt hn)
  refine ⟨_, s, equalAt_self m k (embed d) s, .refl hs, ?_⟩
  cases (embed d).isNaN <;> simp

theorem agree_iff_of_decides {ε : Type} {after : Store H W → Prop} {x y : Run H W ε Bool}
    {s : Store H W} {p : Prop} (hx : x s = .ok true s) (hy : Run.Decides after y s p) :
    Agree x y s ↔ p := by
  obtain ⟨b, t, hb, -, hp⟩ := hy
  rw [← hp]
  constructor
  · rintro ⟨r, _, _, hr, hr'⟩
    cases hx.symm.trans hr
    cases hb.symm.trans hr'
    rfl
  · rintro rfl
    exact ⟨true, s, t, hx, hb⟩

/-- What comes of comparing a list of this course with itself and with another list of it, where
`E` says which of its items are equal to themselves. -/
structure Compared (m : Machine H W) (after : Store H W → Prop) (l l' : ListRef) (s : Store H W)
    (μ : Course D) (E : D → Prop) : Prop where
  itself : Sequence.equal m l l s = .ok true s
  other : Reading.Gives after (fun _ b p => b = true ↔ p) (Sequence.equal m l l' s)
    ((fun ds => ∀ d ∈ ds, E d) <$> μ.all)
  itself_value : equal m (.list l) (.list l) s = .ok true s
  other_value : Run.Decides after (equal m (.list l) (.list l')) s
    (μ.ending = none ∧ ∀ d ∈ μ.items, E d)

/-- The answers are the same if the lists can be run and the items are equal to themselves. -/
theorem Compared.agree_iff {after : Store H W → Prop} {l l' : ListRef} {s : Store H W}
    {μ : Course D} {E : D → Prop} (h : Compared m after l l' s μ E) :
    (Agree (Sequence.equal m l l) (Sequence.equal m l l') s ↔
      μ.ending = none ∧ ∀ d ∈ μ.items, E d) ∧
    (Agree (equal m (.list l) (.list l)) (equal m (.list l) (.list l')) s ↔
      μ.ending = none ∧ ∀ d ∈ μ.items, E d) := by
  refine ⟨?_, agree_iff_of_decides h.itself_value h.other_value⟩
  have hother := h.other
  unfold Course.all at hother
  cases hμ : μ.ending with
  | none =>
    rw [hμ] at hother
    obtain ⟨b, t, hb, ht, hiff⟩ := hother.of_ok
    rw [agree_iff_of_decides h.itself ⟨b, t, hb, ht, hiff⟩]
    simp
  | some e =>
    rw [hμ] at hother
    obtain ⟨t, he, -⟩ := hother.of_error
    refine iff_of_false (fun hagree => ?_) (by simp)
    obtain ⟨r, _, u, _, hr⟩ := hagree
    cases he.symm.trans hr

theorem compared_of_yields {R : Reading H W D} {l l' : ListRef} {μ : Course D} {E : D → Prop}
    (hm : 0 < m.budget) (hne : l ≠ l') (hl : R.Yields m l μ) (hl' : R.Yields m l' μ)
    (hE : ∀ d ∈ μ.items, ∀ k, k ≤ m.budget → m.budget ≤ k + 1 →
      R.Compares (equalAt m k) d d (E d)) {s : Store H W} (hs : R.Valid s) :
    Compared m (R.Later s) l l' s μ E := by
  obtain ⟨k, hk⟩ := Nat.exists_eq_succ_of_ne_zero (Nat.ne_of_gt hm)
  refine ⟨?_, ?_, ?_, ?_⟩
  · exact listsEqual_self l s
  · refine Reading.gives_copies hne hl hl' (fun d hd => ?_) hs
    exact hE d hd m.budget (Nat.le_refl _) (Nat.le_succ _)
  · rw [equal, hk, equalAt_self]
    rfl
  · rw [equal, hk]
    refine Reading.decides_copies hne hl hl' (fun d hd => ?_) hs
    exact hE d hd k (by omega) (by omega)

/-- The list was made of these items, or with a producer that sends them and ends so; it may have
been run already. -/
def Made (s : Store H W) (l : ListRef) (vs : List (Value H)) (ending : Option CollectionError) :
    Prop :=
  ∃ c, s.lists[l.number]? = some c ∧ c.source = .given vs ending ∧
    (c.items = none ∨ ending = none ∧ c.items = some vs)

/-- The reading of two lists that were made of the same items. -/
def twins (l l' : ListRef) (vs : List (Value H)) (ending : Option CollectionError) :
    Reading H W (Value H) :=
  .embedded (fun ref => if ref = l ∨ ref = l' then some (.given vs ending, ⟨vs, ending⟩) else none)
    fun v => v

theorem twins_valid {l l' : ListRef} {vs : List (Value H)} {ending : Option CollectionError}
    {s : Store H W} (h : Made s l vs ending) (h' : Made s l' vs ending) :
    (twins l l' vs ending).Valid s := by
  refine ⟨trivial, fun ref source μ hknown => ?_⟩
  obtain ⟨href, hsome⟩ := Option.ite_none_right_eq_some.1 hknown
  cases hsome
  have hmade : Made s ref vs ending := by
    obtain rfl | rfl := href
    · exact h
    · exact h'
  obtain ⟨c, hc, hsource, hitems⟩ := hmade
  refine ⟨c, hc, hsource, hitems.imp_right fun ⟨hending, hvs⟩ => ?_⟩
  exact ⟨hending, vs, hvs, List.forall₂_same.2 fun _ _ => rfl⟩

/-- Two lists of the same items are compared item by item, and every item with itself. -/
theorem compared_of_made (hm : 1 < m.budget) {l l' : ListRef} (hne : l ≠ l')
    {vs : List (Value H)} {ending : Option CollectionError} {s : Store H W}
    (h : Made s l vs ending) (h' : Made s l' vs ending) :
    Compared m (fun _ => True) l l' s ⟨vs, ending⟩ fun v => v.isNaN = false := by
  have hpos : 0 < m.budget := Nat.zero_lt_of_lt hm
  have hR : (twins l l' vs ending : Reading H W (Value H)).Lawful fun _ => False :=
    Reading.embedded_lawful fun _ hown => hown.elim
  have hsource : Reading.Denotes m (twins l l' vs ending) (fun _ => False) 0
    (.given vs ending) ⟨vs, ending⟩ := .given fun _ _ => List.forall₂_same.2 fun _ _ => rfl
  have hl : (twins l l' vs ending).Yields m l ⟨vs, ending⟩ :=
    hsource.yields hR (if_pos (.inl rfl)) hpos
  have hl' : (twins l l' vs ending).Yields m l' ⟨vs, ending⟩ :=
    hsource.yields hR (if_pos (.inr rfl)) hpos
  have hself : ∀ v ∈ vs, ∀ k, k ≤ m.budget → m.budget ≤ k + 1 →
      (twins l l' vs ending).Compares (equalAt m k) v v (v.isNaN = false) := by
    intro v _ k _ hk
    exact compares_embedded (by omega) v
  have hcompared := compared_of_yields hpos hne hl hl' hself (twins_valid h h')
  exact { hcompared with
    other := hcompared.other.mono fun _ _ => trivial
    other_value := hcompared.other_value.mono fun _ _ => trivial }

/-- A list that is compared with itself is equal without being run. A list that was made of the same
items or in the same way gets the same answer if and only if the lists can be run and every item is
equal to itself: of the same items every one but a NaN, and in general those of which the two lists
make equal ones. -/
theorem sharing_unseen_iff (m : Machine H W) (hm : 1 < m.budget) {l l' : ListRef} (hne : l ≠ l')
    (s : Store H W) :
    (∀ vs ending, Made s l vs ending → Made s l' vs ending →
      Compared m (fun _ => True) l l' s ⟨vs, ending⟩ (fun v => v.isNaN = false) ∧
      (Agree (Sequence.equal m l l) (Sequence.equal m l l') s ↔
        ending = none ∧ ∀ v ∈ vs, v.isNaN = false) ∧
      (Agree (equal m (.list l) (.list l)) (equal m (.list l) (.list l')) s ↔
        ending = none ∧ ∀ v ∈ vs, v.isNaN = false)) ∧
    ∀ (D : Type) (R : Reading H W D) (own : ListRef → Prop) (n : Nat) (source : Source H)
      (μ : Course D) (E : D → Prop), R.Lawful own → Reading.Denotes m R own n source μ →
      n < m.budget → R.lists l = some (source, μ) → R.lists l' = some (source, μ) →
      (∀ d ∈ μ.items, ∀ k, k ≤ m.budget → m.budget ≤ k + 1 →
        R.Compares (equalAt m k) d d (E d)) → R.Valid s →
      Compared m (R.Later s) l l' s μ E ∧
      (Agree (Sequence.equal m l l) (Sequence.equal m l l') s ↔
        μ.ending = none ∧ ∀ d ∈ μ.items, E d) ∧
      (Agree (equal m (.list l) (.list l)) (equal m (.list l) (.list l')) s ↔
        μ.ending = none ∧ ∀ d ∈ μ.items, E d) := by
  constructor
  · intro vs ending h h'
    have hcompared := compared_of_made hm hne h h'
    exact ⟨hcompared, hcompared.agree_iff⟩
  · intro D R own n source μ E hR hsource hn hl hl' hE hs
    have hcompared := compared_of_yields (Nat.zero_lt_of_lt hm) hne (hsource.yields hR hl hn)
      (hsource.yields hR hl' hn) hE hs
    exact ⟨hcompared, hcompared.agree_iff⟩

namespace Twice

open Reading.Nested (machine negate)

/-- The second and the third list are both the first one with its items negated, and the third one
has been run. -/
def sources : List (Source Empty × Course Float) :=
  [(.given [.float 1.5, .float 0] none, ⟨[1.5, 0], none⟩),
    (.map ⟨0⟩ negate, ⟨[-1.5, -0], none⟩), (.map ⟨0⟩ negate, ⟨[-1.5, -0], none⟩)]

def reading : Reading Empty Unit Float := .embedded (fun ref => sources[ref.number]?) .float

def store : Store Empty Unit where
  world := ()
  lists := #[{ source := .given [.float 1.5, .float 0] none },
    { source := .map ⟨0⟩ negate },
    { source := .map ⟨0⟩ negate, items := some [.float (-1.5), .float (-0)] }]

theorem valid : reading.Valid store := by
  refine ⟨trivial, fun ⟨ref⟩ source μ hknown => ?_⟩
  match ref, hknown with
  | 0, rfl => exact ⟨_, rfl, rfl, .inl rfl⟩
  | 1, rfl => exact ⟨_, rfl, rfl, .inl rfl⟩
  | 2, rfl => exact ⟨_, rfl, rfl, .inr ⟨rfl, _, rfl, .cons rfl (.cons rfl .nil)⟩⟩

theorem lawful : reading.Lawful fun _ => False := Reading.embedded_lawful fun _ hown => hown.elim

theorem denotes : Reading.Denotes machine reading (fun _ => False) 1 (.map ⟨0⟩ negate)
    ⟨[-1.5, -0], none⟩ :=
  .map (μ := ⟨[1.5, 0], none⟩) (g := fun x => .ok (-x)) rfl
    (.given fun _ _ => .cons rfl (.cons rfl .nil)) (Reading.embedded_pure fun _ _ => rfl)

/-- The second and the third list hold the same two items, and the third one has been run. -/
def held : Store Empty Unit where
  world := ()
  lists := #[{ source := .given [.float Double.nan] none },
    { source := .given [.list ⟨0⟩, .float 1.5] none },
    { source := .given [.list ⟨0⟩, .float 1.5] none, items := some [.list ⟨0⟩, .float 1.5] }]

end Twice

open Reading.Nested (machine negate) in
theorem sharing_unseen_iff_negated :
    (Made Twice.held ⟨1⟩ [.list ⟨0⟩, .float 1.5] none ∧
      Agree (Sequence.equal machine ⟨1⟩ ⟨1⟩) (Sequence.equal machine ⟨1⟩ ⟨2⟩) Twice.held) ∧
    Twice.reading.Valid Twice.store ∧ Twice.reading.lists ⟨1⟩ = Twice.reading.lists ⟨2⟩ ∧
      Agree (Sequence.equal machine ⟨1⟩ ⟨1⟩) (Sequence.equal machine ⟨1⟩ ⟨2⟩) Twice.store ∧
      Agree (equal machine (.list ⟨1⟩) (.list ⟨1⟩)) (equal machine (.list ⟨1⟩) (.list ⟨2⟩))
        Twice.store := by
  have hne : (⟨1⟩ : ListRef) ≠ ⟨2⟩ := by decide
  have hbudget : 1 < machine.budget := by decide
  have hmade : Made Twice.held ⟨1⟩ [.list ⟨0⟩, .float 1.5] none := ⟨_, rfl, rfl, .inl rfl⟩
  have hmade' : Made Twice.held ⟨2⟩ [.list ⟨0⟩, .float 1.5] none :=
    ⟨_, rfl, rfl, .inr ⟨rfl, rfl⟩⟩
  obtain ⟨-, hheld, -⟩ := (sharing_unseen_iff machine hbudget hne Twice.held).1 _ _ hmade hmade'
  obtain ⟨-, hlists, hvalues⟩ := (sharing_unseen_iff machine hbudget hne Twice.store).2 Float
    Twice.reading _ 1 _ _ _ Twice.lawful Twice.denotes hbudget rfl rfl
    (fun x _ k _ hk => compares_embedded (by omega) x) Twice.valid
  have hfloats : ∀ x ∈ [(-1.5 : Float), -0], (.float x : Value Empty).isNaN = false :=
    List.forall_mem_cons.2 ⟨rfl, List.forall_mem_singleton.2 rfl⟩
  have hitems : ∀ v ∈ [(.list ⟨0⟩ : Value Empty), .float 1.5], v.isNaN = false :=
    List.forall_mem_cons.2 ⟨rfl, List.forall_mem_singleton.2 rfl⟩
  exact ⟨⟨hmade, hheld.2 ⟨rfl, hitems⟩⟩, Twice.valid, rfl, hlists.2 ⟨rfl, hfloats⟩,
    hvalues.2 ⟨rfl, hfloats⟩⟩

namespace Apart

open Reading.Nested (machine)

/-- Two lists of a NaN, and two with a producer that fails. -/
def store : Store Empty Unit where
  world := ()
  lists := #[{ source := .given [.float Double.nan] none },
    { source := .given [.float Double.nan] none },
    { source := .given [.int 1] (some (.eval (.custom "producer failed"))) },
    { source := .given [.int 1] (some (.eval (.custom "producer failed"))) }]

/-- `let f = () -> [NaN] in f() = f()` -/
def tree : Tree (Value Empty) :=
  .letIn .unknown "f" (.closure .unknown [] (.list .unknown [.const .unknown (.float Double.nan)]))
    (.binary .unknown "=" (.call .unknown (.ident .unknown "f") [])
      (.call .unknown (.ident .unknown "f") []))

def result (fold : Bool) : Run Empty Unit Fault (Value Empty) := do
  let e ← Engine.generate machine { Dialect.standard with foldConstants := fold } tree
  Engine.eval machine e .empty

end Apart

open Reading.Nested (machine) in
/-- Two lists of one NaN differ, though each is equal to itself; of two lists that fail, comparing
one with itself does not fail, and comparing the two does. So folding a literal into one list can
change the result of a comparison. -/
theorem sharing_seen :
    (Sequence.equal machine ⟨0⟩ ⟨0⟩ Apart.store = .ok true Apart.store ∧
      ∃ t, Sequence.equal machine ⟨0⟩ ⟨1⟩ Apart.store = .ok false t) ∧
    (Sequence.equal machine ⟨2⟩ ⟨2⟩ Apart.store = .ok true Apart.store ∧
      ∃ e t, Sequence.equal machine ⟨2⟩ ⟨3⟩ Apart.store = .error (.fault e) t) ∧
    (∃ t, Apart.result true Apart.store = .ok (.bool true) t) ∧
      ∃ t, Apart.result false Apart.store = .ok (.bool false) t :=
  ⟨⟨rfl, _, rfl⟩, ⟨rfl, _, _, rfl⟩, ⟨_, rfl⟩, _, rfl⟩

end Value

end Formula
