import Formula.Evaluation
import Formula.Proofs.Sequence.Readings

/-!
Derived lists mean what the eager functions on their courses mean. `Denotes` gives each source its
course: that of its items, or that which the eager function makes of the course of another list.
Whichever of the lists in such a chain hold their items already, a traversal feeds the course to its
sink, item by item until the sink has enough, and a fault comes where the course has it.
-/
namespace Formula

namespace Sequence

variable {H W S : Type} {m : Machine H W} {s : Store H W} {ref : ListRef} {c : Cell H}

theorem cell_eq {ε : Type} (hc : s.lists[ref.number]? = some c) :
    (Store.cell ref : Run H W ε (Cell H)) s = .ok c s := by
  rw [Store.cell, hc]
  rfl

theorem traverseAt_held (hc : s.lists[ref.number]? = some c) {vs : List (Value H)}
    (hitems : c.items = some vs) (depth : Nat) (z : S) (sink : Sink H W S) :
    traverseAt m (depth + 1) ref z sink s = feed sink vs z s := by
  rw [traverseAt, Run.bind_apply_ok (cell_eq hc), hitems]

theorem traverseAt_waiting (hc : s.lists[ref.number]? = some c) (hitems : c.items = none)
    (depth : Nat) (z : S) (sink : Sink H W S) :
    traverseAt m (depth + 1) ref z sink s = (do
      let ((seen, z), complete) ←
        start m (traverseAt m depth) ref c.source ([], z) (recording sink)
      if complete then Store.fill ref seen.reverse
      pure (z, complete) : Run H W CollectionError (S × Bool)) s := by
  rw [traverseAt, Run.bind_apply_ok (cell_eq hc), hitems]

theorem items_held (hc : s.lists[ref.number]? = some c) {vs : List (Value H)}
    (hitems : c.items = some vs) : items m ref s = .ok vs s := by
  rw [items, Run.bind_apply_ok (cell_eq hc), hitems]
  rfl

theorem items_waiting (hc : s.lists[ref.number]? = some c) (hitems : c.items = none) :
    items m ref s = (do
      let (seen, _) ← start m (traverse m) ref c.source [] collect
      Store.fill ref seen.reverse
      pure seen.reverse : Run H W CollectionError (List (Value H))) s := by
  rw [items, Run.bind_apply_ok (cell_eq hc), hitems]

end Sequence

namespace Reading

variable {H W D : Type} {R : Reading H W D} {own : ListRef → Prop} {m : Machine H W}
  {Q T : Store H W → Store H W → Prop} {s : Store H W} {μ : Course D}

/-- With any sink that implements a consumer, the traversal feeds this course to the consumer. -/
structure Follows (R : Reading H W D) (Q T : Store H W → Store H W → Prop)
    (run : {S : Type} → S → Sink H W S → Run H W CollectionError (S × Bool)) (μ : Course D) :
    Prop where
  feeds : ∀ {S A : Type} {Rel : Store H W → S → A → Prop} {sink : Sink H W S} {step : Consumer D A},
    Implements R Q T Rel sink step → ∀ {s z a}, R.Valid s → Rel s z a →
      Gives (T s) (Both Rel) (run z sink s) (μ.feed step a)

section

variable {S A : Type} {Rel : Store H W → S → A → Prop} {sink : Sink H W S} {step : Consumer D A}

/-- After one step the rest is sent if the sink asks for more. -/
theorem Gives.onward (hfit : Fits R own Q T) {x : Run H W CollectionError (S × Bool)}
    {r : Except CollectionError (A × Bool)} {k : S → Run H W CollectionError (S × Bool)}
    {l : A → Except CollectionError (A × Bool)} (hx : Gives (T s) (Both Rel) (x s) r)
    (hk : ∀ {z a s'}, T s s' → Rel s' z a → Gives (T s') (Both Rel) (k z s') (l a)) :
    Gives (T s) (Both Rel)
      ((do
        let (z, more) ← x
        if more then k z else return (z, false) : Run H W CollectionError (S × Bool)) s)
      (do
        let (a, more) ← r
        if more then l a else .ok (a, false)) := by
  refine hx.bind (fun _ ht => ht) fun (z, more) (a, more') s' _ ht hxy => ?_
  obtain ⟨hrel, rfl⟩ := hxy
  cases more with
  | false => exact .pure ht ⟨hrel, rfl⟩
  | true => exact (hk ht hrel).mono fun _ => hfit.trans ht

/-- Sending values feeds what they stand for. -/
theorem Implements.sendFrom (h : Implements R Q T Rel sink step) (hfit : Fits R own Q T)
    (ending : Option CollectionError) {vs : List (Value H)} {ds : List D} {z : S} {a : A}
    (hs : R.Valid s) (hrel : Rel s z a) (hvs : vs.Forall₂ (R.stands s) ds) :
    Gives (T s) (Both Rel) (Meaning.sendFrom ending sink vs z s)
      (Course.feedFrom ending step ds a) := by
  induction vs generalizing ds z a s with
  | nil =>
    cases hvs
    cases ending with
    | none => exact .pure (hfit.part (.refl hs)) ⟨hrel, rfl⟩
    | some e => exact .fault (hfit.part (.refl hs))
  | cons v vs ih =>
    cases hvs with
    | cons hv hvs =>
      refine (h.runs hs hrel hv).onward hfit fun ht hrel' => ?_
      have hlater := hfit.reads ht
      exact ih hlater.valid hrel' (hlater.reads_all hvs)

/-- In every store that comes up, the map that is made for an entry stands for this datum. -/
def Entry (R : Reading H W D) (own : ListRef → Prop) (e : String × Value H) (d : D) : Prop :=
  ∀ s, R.Valid s → Gives (R.Quiet own s) R.stands (Sequence.entryMap (.str e.1) e.2 s) (.ok d)

theorem Implements.feedEntries (h : Implements R Q T Rel sink step) (hfit : Fits R own Q T)
    {es : List (String × Value H)} {ds : List D} {z : S} {a : A} (hs : R.Valid s)
    (hrel : Rel s z a) (hes : es.Forall₂ (Entry R own) ds) :
    Gives (T s) (Both Rel) (Sequence.feedEntries sink es z s)
      (Course.feedFrom none step ds a) := by
  induction es generalizing ds z a s with
  | nil =>
    cases hes
    exact .pure (hfit.part (.refl hs)) ⟨hrel, rfl⟩
  | cons e es ih =>
    cases hes with
    | @cons _ d _ ds he hes =>
      refine Gives.bind (g := fun d => Course.feedFrom none step (d :: ds) a) (he s hs)
        (fun _ => hfit.part) fun v d s' _ hq hv => ?_
      have hstep := h.runs hq.valid (h.stable (hfit.other hq) hrel) hv
      refine (hstep.onward hfit fun ht hrel' => ?_).mono fun _ => hfit.trans (hfit.part hq)
      exact ih (hfit.reads ht).valid hrel' hes

end

/-- The course of a source, whose chain of sources is at most so deep. -/
inductive Denotes (m : Machine H W) (R : Reading H W D) (own : ListRef → Prop) :
    Nat → Source H → Course D → Prop where
  | given {n : Nat} {items : List (Value H)} {ds : List D} {ending : Option CollectionError}
      (h : ∀ s, R.Valid s → items.Forall₂ (R.stands s) ds) :
    Denotes m R own n (.given items ending) ⟨ds, ending⟩
  | range {n : Nat} {bound : Int64} {ds : List D}
      (h : ∀ s, R.Valid s → (rangeItems bound.toInt.toNat 0).Forall₂ (R.stands s) ds) :
    Denotes m R own n (.range bound) ⟨ds, none⟩
  | entries {n : Nat} {map : Dict (Value H)} {ds : List D}
      (h : map.entries.Forall₂ (Entry R own) ds) :
    Denotes m R own n (.entries map) ⟨ds, none⟩
  | accept {n : Nat} {ref : ListRef} {source : Source H} {μ : Course D} {f : Function H}
      {p : D → Except CollectionError (Option Bool)} (hknown : R.lists ref = some (source, μ))
      (h : Denotes m R own n source μ) (hf : Judges m R own f p) :
    Denotes m R own (n + 1) (.accept ref f) (μ.accept p)
  | map {n : Nat} {ref : ListRef} {source : Source H} {μ : Course D} {f : Function H}
      {g : D → Except CollectionError D} (hknown : R.lists ref = some (source, μ))
      (h : Denotes m R own n source μ) (hf : Pure m R own f g) :
    Denotes m R own (n + 1) (.map ref f) (μ.map g)
  | combine {n : Nat} {ref : ListRef} {source : Source H} {μ : Course D} {f : Function H}
      {g : D → D → Except CollectionError D} (hknown : R.lists ref = some (source, μ))
      (h : Denotes m R own n source μ) (hf : PurePair m R own f g) :
    Denotes m R own (n + 1) (.combine ref f) (μ.combine g)
  | iir {n : Nat} {ref : ListRef} {source : Source H} {μ : Course D} {initial f : Function H}
      {i : D → Except CollectionError D} {g : D → D → Except CollectionError D}
      (hknown : R.lists ref = some (source, μ)) (h : Denotes m R own n source μ)
      (hi : Pure m R own initial i) (hf : PurePair m R own f g) :
    Denotes m R own (n + 1) (.iir ref initial f) (μ.iir i g)
  | top {n : Nat} {ref : ListRef} {source : Source H} {μ : Course D} {count : Nat}
      (hknown : R.lists ref = some (source, μ)) (h : Denotes m R own n source μ) :
    Denotes m R own (n + 1) (.top ref count) (μ.top count)
  | number {n : Nat} {ref : ListRef} {source : Source H} {μ : Course D} {f : Function H}
      {g : Int64 → D → Except CollectionError D} (hknown : R.lists ref = some (source, μ))
      (h : Denotes m R own n source μ) (hf : PureIndexed m R own f g) :
    Denotes m R own (n + 1) (.number ref f) (μ.number g)

section

variable {traverse : Traversal H W} {ref : ListRef} {f initial : Function H}

/-- A run whose stage has remembered something. -/
theorem Gives.forget {S A M N : Type} {rel : Store H W → S × Bool → A × Bool → Prop}
    {rel' : Store H W → (M × S) × Bool → (N × A) × Bool → Prop} {after : Store H W → Prop}
    {x : Run H W CollectionError ((M × S) × Bool)} {r : Except CollectionError ((N × A) × Bool)}
    (hx : Gives after rel' (x s) r)
    (hrel : ∀ {s p q}, rel' s p q → rel s (p.1.2, p.2) (Course.forget q)) :
    Gives after rel
      ((do
        let ((_, z), complete) ← x
        return (z, complete) : Run H W CollectionError (S × Bool)) s) (Course.forget <$> r) := by
  rw [map_eq_pure_bind]
  exact hx.bind (fun _ h => h) fun p q s' _ h hpq => .pure h (hrel hpq)

theorem Follows.accept (h : Follows R Q T (traverse ref) μ) (hfit : Fits R own Q T)
    {p : D → Except CollectionError (Option Bool)} (hf : Judges m R own f p) :
    Follows R Q T (Sequence.produce m traverse (.accept ref f)) (μ.accept p) := by
  refine ⟨fun {S A Rel sink step} himp {s z a} hs hrel => ?_⟩
  rw [Course.feed_accept]
  exact h.feeds (himp.accept hfit hf) hs hrel

theorem Follows.map (h : Follows R Q T (traverse ref) μ) (hfit : Fits R own Q T)
    {g : D → Except CollectionError D} (hf : Pure m R own f g) :
    Follows R Q T (Sequence.produce m traverse (.map ref f)) (μ.map g) := by
  refine ⟨fun {S A Rel sink step} himp {s z a} hs hrel => ?_⟩
  rw [Course.feed_map]
  exact h.feeds (himp.map hfit hf) hs hrel

theorem Follows.combine (h : Follows R Q T (traverse ref) μ) (hfit : Fits R own Q T)
    {g : D → D → Except CollectionError D} (hf : PurePair m R own f g) :
    Follows R Q T (Sequence.produce m traverse (.combine ref f)) (μ.combine g) := by
  refine ⟨fun {S A Rel sink step} himp {s z a} hs hrel => ?_⟩
  rw [Course.feed_combine]
  exact (h.feeds (himp.combine hfit hf) hs ⟨.none, hrel⟩).forget fun hr => ⟨hr.1.2, hr.2⟩

theorem Follows.iir (h : Follows R Q T (traverse ref) μ) (hfit : Fits R own Q T)
    {i : D → Except CollectionError D} {g : D → D → Except CollectionError D}
    (hi : Pure m R own initial i) (hf : PurePair m R own f g) :
    Follows R Q T (Sequence.produce m traverse (.iir ref initial f)) (μ.iir i g) := by
  refine ⟨fun {S A Rel sink step} himp {s z a} hs hrel => ?_⟩
  rw [Course.feed_iir]
  exact (h.feeds (himp.iir hfit hi hf) hs ⟨.none, hrel⟩).forget fun hr => ⟨hr.1.2, hr.2⟩

theorem Follows.number (h : Follows R Q T (traverse ref) μ) (hfit : Fits R own Q T)
    {g : Int64 → D → Except CollectionError D} (hf : PureIndexed m R own f g) :
    Follows R Q T (Sequence.produce m traverse (.number ref f)) (μ.number g) := by
  refine ⟨fun {S A Rel sink step} himp {s z a} hs hrel => ?_⟩
  rw [Course.feed_number]
  exact (h.feeds (himp.number hfit hf) hs ⟨rfl, hrel⟩).forget fun hr => ⟨hr.1.2, hr.2⟩

theorem Follows.top (h : Follows R Q T (traverse ref) μ) (hfit : Fits R own Q T) (n : Nat) :
    Follows R Q T (Sequence.produce m traverse (.top ref n)) (μ.top n) := by
  refine ⟨fun {S A Rel sink step} himp {s z a} hs hrel => ?_⟩
  rw [Course.feed_top]
  simp only [Sequence.produce]
  split
  · exact .pure (hfit.part (.refl hs)) ⟨hrel, rfl⟩
  · rw [map_eq_pure_bind]
    refine (h.feeds himp.top hs ⟨rfl, rfl, hrel⟩).bind (fun _ ht => ht) fun p q s' _ ht hpq => ?_
    obtain ⟨⟨-, hstopped, hrel'⟩, -⟩ := hpq
    exact .pure ht ⟨hrel', congrArg not hstopped⟩

end

section

variable {ref : ListRef} {source : Source H}

/-- Counting is running. -/
theorem Lawful.counts (hR : R.Lawful own) (hs : R.Valid s)
    (hknown : R.lists ref = some (source, μ)) {f : Cell H → Cell H}
    (hsource : ∀ c, (f c).source = c.source) (hitems : ∀ c, (f c).items = c.items) :
    R.Quiet own s { s with lists := s.lists.modify ref.number f } := by
  obtain ⟨c, hc, -, -⟩ := hs.known ref source μ hknown
  exact hR.quiet hs hknown hc ⟨hsource c, .inl (hitems c)⟩

/-- The items of a complete run may be kept. -/
theorem Lawful.fills (hR : R.Lawful own) (hs : R.Valid s)
    (hknown : R.lists ref = some (source, μ)) (hending : μ.ending = none) {vs : List (Value H)}
    (hvs : vs.Forall₂ (R.stands s) μ.items) :
    R.Quiet own s { s with
      lists := s.lists.modify ref.number fun c => { c with items := some (c.items.getD vs) } } := by
  obtain ⟨c, hc, -, -⟩ := hs.known ref source μ hknown
  refine hR.quiet hs hknown hc ⟨rfl, ?_⟩
  cases hitems : c.items with
  | none => exact .inr ⟨rfl, .inr ⟨hending, vs, rfl, hvs⟩⟩
  | some _ => exact .inl rfl

/-- A run that has been counted and is counted on. -/
theorem Follows.start (hR : R.Lawful own) (hfit : Fits R own Q T)
    (hknown : R.lists ref = some (source, μ)) {traverse : Traversal H W}
    (h : Follows R Q T (Sequence.produce m traverse source) μ) :
    Follows R Q T (Sequence.start m traverse ref source) μ := by
  refine ⟨fun {S A Rel sink step} himp {s z a} hs hrel => ?_⟩
  have hquiet := hR.counts (f := fun c => { c with runs := c.runs + 1 }) hs hknown
    (fun _ => rfl) fun _ => rfl
  have hmetered : Implements R Q T Rel (Sequence.metered ref sink) step :=
    himp.metered hfit id id fun hs =>
      have hq := hR.counts (f := fun c => { c with sent := c.sent + 1 }) hs hknown
        (fun _ => rfl) fun _ => rfl
      ⟨hfit.other hq, hfit.part hq⟩
  exact (h.feeds hmetered hquiet.valid (himp.stable (hfit.other hquiet) hrel)).mono fun _ =>
    hfit.trans (hfit.part hquiet)

theorem Follows.traverse (hR : R.Lawful own) (hfit : Fits R own Q T)
    (hknown : R.lists ref = some (source, μ)) {depth : Nat}
    (h : Follows R Q T (Sequence.produce m (Sequence.traverseAt m depth) source) μ) :
    Follows R Q T (Sequence.traverseAt m (depth + 1) ref) μ := by
  refine ⟨fun {S A Rel sink step} himp {s z a} hs hrel => ?_⟩
  obtain ⟨c, hc, rfl, hholds⟩ := hs.known ref source μ hknown
  obtain hnone | ⟨hending, vs, hitems, hvs⟩ := hholds
  · have hstart := (h.start hR hfit hknown).feeds (himp.recording hfit)
      (z := ([], z)) (a := ([], a)) hs ⟨.nil, hrel⟩
    rw [Sequence.traverseAt_waiting hc hnone, Course.feed, ← Course.feed_record _ _ _ [] a,
      map_eq_pure_bind]
    refine hstart.bind (fun _ ht => ht) fun p q s' hfeed ht hpq => ?_
    obtain ⟨⟨seen, z'⟩, complete⟩ := p
    obtain ⟨⟨seen', a'⟩, complete'⟩ := q
    obtain ⟨⟨hseen, hrel'⟩, rfl⟩ := hpq
    -- only a run that no sink has stopped has recorded the whole course
    cases complete with
    | false => exact .pure ht ⟨hrel', rfl⟩
    | true =>
      obtain ⟨hending, rfl⟩ := Course.feed_record_complete hfeed
      have hall : seen.reverse.Forall₂ (R.stands s') μ.items := by
        simpa using List.rel_reverse hseen
      have hfull := hR.fills (hfit.reads ht).valid hknown hending hall
      exact .pure (hfit.trans ht (hfit.part hfull)) ⟨himp.stable (hfit.other hfull) hrel', rfl⟩
  · rw [Sequence.traverseAt_held hc hitems, Sequence.feed_eq, Course.feed, hending]
    exact himp.sendFrom hfit none hs hrel hvs

/-- A known list, if its source follows its course at every sufficient depth. -/
theorem Follows.known (hR : R.Lawful own) (hfit : Fits R own Q T)
    (hknown : R.lists ref = some (source, μ)) {n depth : Nat}
    (h : ∀ {depth}, n ≤ depth →
      Follows R Q T (Sequence.produce m (Sequence.traverseAt m depth) source) μ)
    (hdepth : n < depth) : Follows R Q T (Sequence.traverseAt m depth ref) μ := by
  cases depth with
  | zero => exact absurd hdepth (Nat.not_lt_zero n)
  | succ depth => exact (h (Nat.le_of_lt_succ hdepth)).traverse hR hfit hknown

end

/-- Run at a sufficient depth, a source feeds its course to the sink. -/
theorem Denotes.follows (hR : R.Lawful own) (hfit : Fits R own Q T) {n depth : Nat}
    {source : Source H} (h : Denotes m R own n source μ) (hdepth : n ≤ depth) :
    Follows R Q T (Sequence.produce m (Sequence.traverseAt m depth) source) μ := by
  induction h generalizing depth with
  | given h =>
    refine ⟨fun {S A Rel sink step} himp {s z a} hs hrel => ?_⟩
    rw [produce_given]
    exact himp.sendFrom hfit _ hs hrel (h _ hs)
  | range h =>
    refine ⟨fun {S A Rel sink step} himp {s z a} hs hrel => ?_⟩
    rw [produce_range]
    exact himp.sendFrom hfit _ hs hrel (h _ hs)
  | entries h =>
    refine ⟨fun {S A Rel sink step} himp {s z a} hs hrel => ?_⟩
    exact himp.feedEntries hfit hs hrel h
  | accept hknown _ hf ih => exact (Follows.known hR hfit hknown ih hdepth).accept hfit hf
  | map hknown _ hf ih => exact (Follows.known hR hfit hknown ih hdepth).map hfit hf
  | combine hknown _ hf ih => exact (Follows.known hR hfit hknown ih hdepth).combine hfit hf
  | iir hknown _ hi hf ih => exact (Follows.known hR hfit hknown ih hdepth).iir hfit hi hf
  | top hknown _ ih => exact (Follows.known hR hfit hknown ih hdepth).top hfit _
  | number hknown _ hf ih => exact (Follows.known hR hfit hknown ih hdepth).number hfit hf

theorem fits_later : Fits R own (R.Quiet own) R.Later :=
  ⟨id, Quiet.toLater, Later.trans, Quiet.toLater, id⟩

/-- All items of a known list. -/
theorem Follows.items (hR : R.Lawful own) {ref : ListRef} {source : Source H}
    (hknown : R.lists ref = some (source, μ))
    (h : Follows R (R.Quiet own) R.Later (Sequence.produce m (Sequence.traverse m) source) μ)
    (hs : R.Valid s) :
    Gives (R.Later s) (fun s' vs ds => vs.Forall₂ (R.stands s') ds) (Sequence.items m ref s)
      μ.all := by
  obtain ⟨c, hc, rfl, hholds⟩ := hs.known ref source μ hknown
  obtain hnone | ⟨hending, vs, hitems, hvs⟩ := hholds
  · have hstart := (h.start hR fits_later hknown).feeds (implements_collect fits_later)
      (z := []) (a := []) hs .nil
    rw [Sequence.items_waiting hc hnone, Course.all_eq]
    refine hstart.bind (fun _ ht => ht) fun (seen, _) (seen', _) s' hfeed ht hseen => ?_
    obtain ⟨hending, rfl⟩ := Course.feed_collect_ok hfeed
    have hall := List.rel_reverse hseen.1
    rw [List.reverse_reverse] at hall
    have hfull := (hR.fills ht.valid hknown hending hall).toLater
    exact .pure (ht.trans hfull) (by simpa using hfull.reads_all hall)
  · rw [Sequence.items_held hc hitems, Course.all, hending]
    exact ⟨.refl hs, hvs⟩

/-- Derived lists mean what the eager functions mean: to ask for all items of a list gives all items
of its course, or the fault in it, and every traversal goes through the course until its sink has
enough. -/
theorem derived_lists_eager (hR : R.Lawful own) {n : Nat} {ref : ListRef} {source : Source H}
    (hknown : R.lists ref = some (source, μ)) (h : Denotes m R own n source μ)
    (hn : n < m.budget) (hs : R.Valid s) :
    Gives (R.Later s) (fun s' vs ds => vs.Forall₂ (R.stands s') ds) (Sequence.items m ref s) μ.all ∧
      Follows R (R.Quiet own) R.Later (Sequence.traverse m ref) μ := by
  have hfollows {depth : Nat} (hdepth : n ≤ depth) := h.follows hR fits_later hdepth
  exact ⟨(hfollows (Nat.le_of_lt hn)).items hR hknown hs, .known hR fits_later hknown hfollows hn⟩

namespace Nested

def machine : Machine Empty Unit := Machine.ofHost ⟨fun h => h.elim, fun h => h.elim⟩ 8

def negate : Function Empty := .ofCallback (.builtin "negate") (.fixed 1) true (.unary .neg)

def minus : Function Empty := .ofCallback (.builtin "minus") (.fixed 2) true (.binary .sub)

def modulo : Function Empty := .ofCallback (.builtin "modulo") (.fixed 2) true (.binary .rem)

/-- The closure `x -> x < 4`. -/
def small : Function Empty :=
  .mk (.made 0) { name := "small", arity := .fixed 1, isPure := true }
    (.code ["x"] (.binary .unknown (.binary .lt) (.var .unknown "x" none) (.const (.int 4))) [])

def remainder (a b : Int64) : Except CollectionError Int64 :=
  if b = 0 then .error (.eval (.custom "division by zero in %")) else .ok (a % b)

section

variable {lists : ListRef → Option (Source Empty × Course Int64)} {own : ListRef → Prop}

theorem negate_pure : Pure machine (embedded lists .int) own negate fun d => .ok (-d) :=
  embedded_pure fun _ _ => rfl

theorem minus_pure : PurePair machine (embedded lists .int) own minus fun d e => .ok (d - e) :=
  embedded_purePair fun _ _ _ => rfl

theorem minus_pureIndexed :
    PureIndexed machine (embedded lists .int) own minus fun i d => .ok (i - d) :=
  embedded_pureIndexed fun _ _ _ => rfl

theorem small_judges : Judges machine (embedded lists .int) own small
    fun d => .ok (some (compare d.toInt 4).isLT) :=
  embedded_judges fun _ _ => rfl

theorem modulo_pure : PurePair machine (embedded lists .int) own modulo remainder := by
  refine embedded_purePair fun s d e => ?_
  have happly : machine.apply modulo [.int d, .int e] =
      (Run.ofExcept (Builtin.remainder (.int d) (.int e))).mapFault .eval := rfl
  rw [happly, remainder]
  by_cases he : e = 0
  · subst he
    rfl
  · have hrem : (Builtin.remainder (.int d) (.int e) : Except EvalError (Value Empty)) =
        .ok (.int (d % e)) := by
      unfold Builtin.remainder
      split
      · rename_i heq
        cases heq
        exact absurd rfl he
      · rfl
    rw [hrem, if_neg he]
    rfl

end

def kept : Course Int64 :=
  let filtered :=
    Course.iir (fun d => .ok (-d)) (fun d last => .ok (d - last)) ⟨[3, 5, 4, -4, 5], none⟩
  filtered.accept fun d => .ok (some (compare d.toInt 4).isLT)

def mapped : Course Int64 :=
  ((kept.combine remainder).number fun i d => .ok (i - d)).map fun d => .ok (-d)

/-- Each list is derived from the one before. -/
def lists : List (Source Empty × Course Int64) :=
  let numbers : Course Int64 := ⟨[3, 5, 4, -4, 5], none⟩
  [(.given [.int 3, .int 5, .int 4, .int (-4), .int 5] none, numbers),
    (.iir ⟨0⟩ negate minus, numbers.iir (fun d => .ok (-d)) fun d last => .ok (d - last)),
    (.accept ⟨1⟩ small, kept), (.combine ⟨2⟩ modulo, kept.combine remainder),
    (.number ⟨3⟩ minus, (kept.combine remainder).number fun i d => .ok (i - d)),
    (.map ⟨4⟩ negate, mapped), (.top ⟨5⟩ 1, mapped.top 1)]

def reading : Reading Empty Unit Int64 := embedded (fun ref => lists[ref.number]?) .int

/-- Only the second list holds its items. -/
def store : Store Empty Unit where
  lists := #[{ source := .given [.int 3, .int 5, .int 4, .int (-4), .int 5] none },
    { source := .iir ⟨0⟩ negate minus,
      items := some [.int (-3), .int 8, .int (-4), .int 0, .int 5] },
    { source := .accept ⟨1⟩ small }, { source := .combine ⟨2⟩ modulo },
    { source := .number ⟨3⟩ minus }, { source := .map ⟨4⟩ negate }, { source := .top ⟨5⟩ 1 }]
  world := ()

theorem valid : reading.Valid store := by
  refine ⟨trivial, fun ref source μ hknown => ?_⟩
  match ref, hknown with
  | ⟨0⟩, rfl | ⟨2⟩, rfl | ⟨3⟩, rfl | ⟨4⟩, rfl | ⟨5⟩, rfl | ⟨6⟩, rfl => exact ⟨_, rfl, rfl, .inl rfl⟩
  | ⟨1⟩, rfl => exact ⟨_, rfl, rfl, .inr ⟨by decide, _, rfl, by repeat constructor⟩⟩

theorem mapped_denotes :
    Denotes machine reading (fun _ => False) 5 (.map ⟨4⟩ negate) mapped := by
  refine .map rfl (.number rfl (.combine rfl (.accept rfl (.iir rfl ?_ negate_pure minus_pure)
    small_judges) modulo_pure) minus_pureIndexed) negate_pure
  exact .given fun _ _ => by repeat constructor

end Nested

theorem derived_lists_eager_nested :
    (∃ s, Sequence.items Nested.machine ⟨5⟩ Nested.store =
      .error (.fault (.eval (.custom "division by zero in %"))) s) ∧
    ∃ s, Sequence.items Nested.machine ⟨6⟩ Nested.store = .ok [.int (-3)] s := by
  have hlawful : Nested.reading.Lawful fun _ => False := embedded_lawful fun _ h => h.elim
  constructor
  · have hknown : Nested.reading.lists ⟨5⟩ = some (_, Nested.mapped) := rfl
    have h := (derived_lists_eager hlawful hknown Nested.mapped_denotes (by decide) Nested.valid).1
    have hall : Nested.mapped.all = .error (.eval (.custom "division by zero in %")) := by decide
    rw [hall] at h
    obtain ⟨s, hs, -⟩ := h.of_error
    exact ⟨s, hs⟩
  · have hknown : Nested.reading.lists ⟨6⟩ = some (_, Nested.mapped.top 1) := rfl
    have h := (derived_lists_eager hlawful hknown (.top rfl Nested.mapped_denotes) (by decide)
      Nested.valid).1
    have hall : (Nested.mapped.top 1).all = .ok [-3] := by decide
    rw [hall] at h
    obtain ⟨vs, s, hs, -, hvs⟩ := h.of_ok
    rw [eq_map_of_embedded hvs] at hs
    exact ⟨s, hs⟩

end Reading

end Formula
