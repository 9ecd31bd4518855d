import Formula.Evaluation
import Formula.Proofs.Sequence.Programs

/-!
The cache of a list. It is empty until a traversal has gone through the whole list, holds all
items from then on and never changes again, and the source is not started after that; a
traversal that was stopped or failed leaves it as it was. No program can tell from its results
that there is a cache at all.
-/
namespace Formula

variable {H W S : Type} {V : Catalog H} {m : Machine H W}

/-- The items that a list holds. -/
def Store.held (s : Store H W) (ref : ListRef) : Option (List (Value H)) :=
  s.lists[ref.number]?.bind (·.items)

/-- The store in which a computation ended. -/
def Run.final {ε α : Type} : EStateM.Result (Stop ε) (Store H W) α → Store H W
  | .ok _ s => s
  | .error _ s => s

/-- Every known list has its source and is in one of its two states. -/
def Catalog.Valid (V : Catalog H) (s : Store H W) : Prop :=
  ∀ ref source μ, V.lists ref = some (source, μ) →
    ∃ c, s.lists[ref.number]? = some c ∧ c.source = source ∧ μ.Holds c

/-- The cache of a list behind a computation: filled if the computation went through the whole
list, else as before. -/
def Filled {α : Type} (l : Known V) (before : Option (List (Value H))) (complete : α → Bool) :
    EStateM.Result (Stop CollectionError) (Store H W) α → Prop
  | .ok a s => s.held l.ref = if complete a then some l.meaning.items else before
  | .error _ s => s.held l.ref = before

theorem Similar.refl {s : Store H W} (h : V.Valid s) : Similar V s s := by
  refine ⟨rfl, fun _ _ => rfl, fun ref source μ hV => ?_⟩
  obtain ⟨c, hc, hsource, hholds⟩ := h ref source μ hV
  exact ⟨c, c, hc, hc, hsource, hsource, hholds, hholds, fun _ => rfl⟩

theorem Similar.valid {s t : Store H W} (h : Similar V s t) : V.Valid s := by
  intro ref source μ hV
  obtain ⟨c, c', hc, -, hcc⟩ := h.known ref source μ hV
  exact ⟨c, hc, hcc.left, hcc.holds⟩

/-- Watched caches are the same in similar stores. -/
theorem Similar.held_eq {s t : Store H W} (h : Similar V s t) (l : Known V)
    (hw : V.watched l.ref) : t.held l.ref = s.held l.ref := by
  obtain ⟨c, c', hc, hc', hcc⟩ := h.known l.ref l.source l.meaning l.known
  simp only [Store.held, hc, hc', Option.bind_some]
  exact hcc.watched hw

theorem held_fill {s : Store H W} (h : V.Valid s) (l : Known V) :
    Store.held (Run.final ((Store.fill l.ref l.meaning.items : Run H W CollectionError Unit) s))
      l.ref = some l.meaning.items := by
  obtain ⟨c, hc, -, hholds⟩ := h l.ref l.source l.meaning l.known
  have hcell : (s.lists.modify l.ref.number fun c =>
      { c with items := some (c.items.getD l.meaning.items) })[l.ref.number]? =
      some { c with items := some (c.items.getD l.meaning.items) } := getElem?_modify_self hc
  have hall : c.items.getD l.meaning.items = l.meaning.items := by
    obtain hempty | ⟨-, hfull⟩ := hholds
    · rw [hempty]
      rfl
    · rw [hfull]
      rfl
  change ((s.lists.modify l.ref.number fun c =>
    { c with items := some (c.items.getD l.meaning.items) })[l.ref.number]?).bind _ = _
  rw [hcell]
  exact congrArg some hall

/-- Sending leaves a cache alone if the sink does. -/
theorem held_sendFrom {ref : ListRef} {sink : Sink H W S}
    (hsink : ∀ z v u, (Run.final (sink z v u)).held ref = u.held ref)
    (ending : Option CollectionError) (items : List (Value H)) (z : S) (u : Store H W) :
    (Run.final (Meaning.sendFrom ending sink items z u)).held ref = u.held ref := by
  induction items generalizing z u with
  | nil => cases ending <;> rfl
  | cons v rest ih =>
    have hv := hsink z v u
    cases hs : sink z v u with
    | error e u' =>
      rw [hs] at hv
      have hsend : Meaning.sendFrom ending sink (v :: rest) z u = .error e u' :=
        Run.bind_apply_error hs
      rw [hsend]
      exact hv
    | ok p u' =>
      obtain ⟨z', more⟩ := p
      rw [hs] at hv
      have hsend : Meaning.sendFrom ending sink (v :: rest) z u =
          (if more then Meaning.sendFrom ending sink rest z' else pure (z', false)) u' :=
        Run.bind_apply_ok hs
      rw [hsend]
      cases more with
      | false => exact hv
      | true => exact (ih z' u').trans hv

theorem filled_traverse {u : Store H W} (hu : V.Valid u) (l : Known V) {sink : Sink H W S}
    (hsame : ∀ z v, Same V (sink z v) (sink z v))
    (hsink : ∀ z v u, (Run.final (sink z v u)).held l.ref = u.held l.ref) (z : S) :
    Filled l (u.held l.ref) Prod.snd (l.meaning.traverse l.ref z sink u) := by
  have hsend := held_sendFrom hsink l.meaning.ending l.meaning.items z u
  have hvalid := Meaning.sendFrom_same hsame l.meaning.ending l.meaning.items z u u u u
    (.refl (.refl hu))
  unfold Meaning.traverse Meaning.send
  cases hs : Meaning.sendFrom l.meaning.ending sink l.meaning.items z u with
  | error e u' =>
    rw [hs] at hsend
    rw [Run.bind_apply_error hs]
    exact hsend
  | ok p u' =>
    obtain ⟨z', complete⟩ := p
    rw [hs] at hsend hvalid
    rw [Run.bind_apply_ok hs]
    cases complete with
    | false => exact hsend
    | true => exact held_fill hvalid.2.similar.valid l

theorem filled_all {u : Store H W} (hu : V.Valid u) (l : Known V) :
    Filled l (u.held l.ref) (fun _ => true)
      (l.meaning.all l.ref u : EStateM.Result (Stop CollectionError) (Store H W) _) := by
  unfold Meaning.all Meaning.finish
  cases l.meaning.ending with
  | none => exact held_fill hu l
  | some e => rfl

/-- Computations that cannot be told apart fill a watched cache alike. -/
theorem Filled.of_matches {α : Type} {l : Known V} (hw : V.watched l.ref)
    {before : Option (List (Value H))} {complete : α → Bool} {s t : Store H W}
    {r q : EStateM.Result (Stop CollectionError) (Store H W) α} (h : Run.Matches (Linked V s t) r q)
    (hq : Filled l before complete q) : Filled l before complete r := by
  match r, q, h with
  | .ok a s', .ok _ t', ⟨rfl, hl⟩ => exact (hl.similar.held_eq l hw).symm.trans hq
  | .error e s', .error _ t', ⟨rfl, hl⟩ => exact (hl.similar.held_eq l hw).symm.trans hq

theorem sends_given (m : Machine H W) (V : Catalog H) (depth : Nat) (items : List (Value H))
    (ending : Option CollectionError) : Sends m V depth (.given items ending) ⟨items, ending⟩ := by
  intro S sink sink' h s
  rw [produce_given]
  exact Meaning.sendFrom_same h ending items s

theorem sends_range (m : Machine H W) (V : Catalog H) (depth : Nat) (bound : Int64) :
    Sends m V depth (.range bound) ⟨rangeItems bound.toInt.toNat 0, none⟩ := by
  intro S sink sink' h s
  rw [produce_range]
  exact Meaning.sendFrom_same h none _ s

/-- A program on lists ends as it does on the sequences they mean. -/
theorem Program.run_matches (hbudget : 0 < m.budget) (hD : Determined m V) {s : Store H W}
    (hs : V.Valid s) {α : Type} (p : Program m V α) :
    Run.Matches (fun s' t' => Similar V s' t' ∧ Later V s s') (p.run s) (p.eager s) :=
  (p.run_same hbudget hD s s s s (.refl (.refl hs))).mono fun _ _ h => ⟨h.similar, h.later⟩

theorem traverse_filled (hbudget : 0 < m.budget) (hD : Determined m V) {s : Store H W}
    (hs : V.Valid s) (l : Known V) (hw : V.watched l.ref) {sink : Sink H W S}
    (hsame : ∀ z v, Same V (sink z v) (sink z v))
    (hsink : ∀ z v u, (Run.final (sink z v u)).held l.ref = u.held l.ref) (z : S) :
    Filled l (s.held l.ref) Prod.snd (Sequence.traverse m l.ref z sink s) :=
  .of_matches hw (traverse_same hbudget hD l.known hsame z s s s s (.refl (.refl hs)))
    (filled_traverse hs l hsame hsink z)

theorem items_filled (hD : Determined m V) {s : Store H W} (hs : V.Valid s) (l : Known V)
    (hw : V.watched l.ref) :
    Filled l (s.held l.ref) (fun _ => true) (Sequence.items m l.ref s) :=
  .of_matches hw (items_same hD l.known s s s s (.refl (.refl hs))) (filled_all hs l)

/-- Let the sources of the known lists do in every run what the meanings say. Then every program
on these lists ends as it does on the sequences they mean, with the same caches where these are
watched, and a list that holds its items keeps them and does not start its source again. A
traversal whose sink leaves the cache alone fills it if it is complete, and else leaves it as it
was; so does a request for all items. -/
theorem memo_transparent (hbudget : 0 < m.budget) (hD : Determined m V) {s : Store H W}
    (hs : V.Valid s) :
    (∀ {α : Type} (p : Program m V α),
      Run.Matches (fun s' t' => Similar V s' t' ∧ Later V s s') (p.run s) (p.eager s)) ∧
    ∀ l : Known V, V.watched l.ref →
      (∀ {S : Type} (z : S) (sink : Sink H W S), (∀ z v, Same V (sink z v) (sink z v)) →
        (∀ z v u, (Run.final (sink z v u)).held l.ref = u.held l.ref) →
        Filled l (s.held l.ref) Prod.snd (Sequence.traverse m l.ref z sink s)) ∧
      Filled l (s.held l.ref) (fun _ => true) (Sequence.items m l.ref s) := by
  refine ⟨fun p => p.run_matches hbudget hD hs, fun l hw => ⟨fun z sink hsame hsink => ?_, ?_⟩⟩
  · exact traverse_filled hbudget hD hs l hw hsame hsink z
  · exact items_filled hD hs l hw

namespace Reentrant

def machine : Machine Empty Unit := Machine.ofHost ⟨fun h => h.elim, fun h => h.elim⟩ 4

def refusal : CollectionError := .eval ⟨.custom "refused", .unknown⟩

/-- The list of the integers below two, and one that breaks off after its first item. -/
def catalog : Catalog Empty where
  lists ref :=
    if ref = ⟨0⟩ then some (.range 2, ⟨rangeItems 2 0, none⟩)
    else if ref = ⟨1⟩ then some (.given [.int 7] refusal, ⟨[.int 7], refusal⟩)
    else none
  watched _ := True

def list : Known catalog := ⟨⟨0⟩, .range 2, ⟨rangeItems 2 0, none⟩, rfl⟩

def broken : Known catalog := ⟨⟨1⟩, .given [.int 7] refusal, ⟨[.int 7], refusal⟩, rfl⟩

def start : Store Empty Unit where
  lists := #[{ source := .range 2 }, { source := .given [.int 7] refusal }]
  world := ()

def filled : Store Empty Unit where
  lists := #[⟨.range 2, some [.int 0, .int 1], 2, 4⟩, ⟨.given [.int 7] refusal, none, 3, 3⟩]
  world := ()

/-- Adds up the size of the list at each of its items, and asks in vain for all of the other one;
then takes the first item of that. -/
def program : Program machine catalog ((Nat × Bool) × Value Empty) :=
  .andThen
    (.iterate list 0 fun n _ => .andThen (.size list) fun k =>
      .andThen (.attempt (.items broken)) fun r =>
        .ret (n + k + r.toOption.elim 0 List.length, true))
    fun total => .andThen (.first broken) fun v => .ret (total, v)

theorem determined : Determined machine catalog := by
  intro ref source μ h depth _
  by_cases hlist : ref = ⟨0⟩
  · simp only [catalog, if_pos hlist] at h
    cases h
    exact sends_range machine catalog depth 2
  · by_cases hbroken : ref = ⟨1⟩
    · simp only [catalog, if_neg hlist, if_pos hbroken] at h
      cases h
      exact sends_given machine catalog depth [.int 7] refusal
    · simp only [catalog, if_neg hlist, if_neg hbroken] at h
      cases h

theorem valid : catalog.Valid start := by
  intro ref source μ h
  by_cases hlist : ref = ⟨0⟩
  · simp only [catalog, if_pos hlist] at h
    cases h
    subst hlist
    exact ⟨_, rfl, rfl, .inl rfl⟩
  · by_cases hbroken : ref = ⟨1⟩
    · simp only [catalog, if_neg hlist, if_pos hbroken] at h
      cases h
      subst hbroken
      exact ⟨_, rfl, rfl, .inl rfl⟩
    · simp only [catalog, if_neg hlist, if_neg hbroken] at h
      cases h

end Reentrant

open Reentrant in
/-- A sink that runs the list which is being traversed: the inner run fills the cache, and the
source is started twice and no more. The source that breaks off is started by each request, and
its list stays empty. -/
theorem memo_transparent_reentrant :
    Run.Matches (fun s' t' => Similar catalog s' t' ∧ Later catalog start s') (program.run start)
        (program.eager start) ∧
      Filled list (start.held list.ref) (fun _ => true) (Sequence.items machine list.ref start) ∧
      Filled broken (start.held broken.ref) (fun _ => true)
        (Sequence.items machine broken.ref start) ∧
      program.run start = .ok ((4, true), .int 7) filled := by
  have h := memo_transparent (by decide) determined valid
  exact ⟨h.1 program, (h.2 list trivial).2, (h.2 broken trivial).2, rfl⟩

/-- Lists of given items, which may break off behind them. -/
def Catalog.given (producers : ListRef → Option (Meaning H)) : Catalog H where
  lists ref := (producers ref).map fun μ => (.given μ.items μ.ending, μ)
  watched _ := True

theorem determined_given (m : Machine H W) (producers : ListRef → Option (Meaning H)) :
    Determined m (.given producers) := by
  intro ref source μ h depth _
  obtain ⟨μ', -, hμ⟩ := Option.map_eq_some_iff.1 h
  cases hμ
  exact sends_given m _ depth μ.items μ.ending

/-- Of lists of given items nothing else has to be known, whether they end or break off. -/
theorem given_transparent (hbudget : 0 < m.budget) (producers : ListRef → Option (Meaning H))
    {s : Store H W} (hs : (Catalog.given producers).Valid s) :
    (∀ {α : Type} (p : Program m (.given producers) α),
      Run.Matches (fun s' t' => Similar (.given producers) s' t' ∧ Later (.given producers) s s')
        (p.run s) (p.eager s)) ∧
    ∀ l : Known (.given producers),
      (∀ {S : Type} (z : S) (sink : Sink H W S),
        (∀ z v, Same (.given producers) (sink z v) (sink z v)) →
        (∀ z v u, (Run.final (sink z v u)).held l.ref = u.held l.ref) →
        Filled l (s.held l.ref) Prod.snd (Sequence.traverse m l.ref z sink s)) ∧
      Filled l (s.held l.ref) (fun _ => true) (Sequence.items m l.ref s) := by
  have hD := determined_given m producers
  refine ⟨fun p => p.run_matches hbudget hD hs, fun l => ⟨fun z sink hsame hsink => ?_, ?_⟩⟩
  · exact traverse_filled hbudget hD hs l trivial hsame hsink z
  · exact items_filled hD hs l trivial

end Formula
