import Formula.Proofs.Sequence.Derived
import Formula.Proofs.Sequence.Stages

/-!
Exact demand. The first items of a pipeline over a list that has not been run are asked for: the
source of this list is started once and sends as many items as it takes to get so many through the
pipeline, and none if none are asked for. The list comes to hold its items only if the pipeline
wants more than it has.

The lists of the pipeline are run inside of one another. While one of them runs, what those above it
do leaves it and those below it alone, and the other way round; so the cell of the first list counts
what is sent, whatever happens above it.
-/
namespace Formula
namespace Reading

variable {H W D : Type} {R : Reading H W D} {own : ListRef → Prop} {m : Machine H W}
  {Q T : Store H W → Store H W → Prop} {u u' : Store H W}

/-- What values stand for does not depend on how far some lists have been run. -/
structure Blind (R : Reading H W D) (own : ListRef → Prop) : Prop where
  settle : ∀ {s ref} {f : Cell H → Cell H}, own ref → R.Valid s → (∀ c, (f c).source = c.source) →
    R.admits { s with lists := s.lists.modify ref.number f } ∧
      ∀ v d, R.stands s v d → R.stands { s with lists := s.lists.modify ref.number f } v d

/-- Running one of these lists leaves the others alone. -/
theorem Blind.quiet (hblind : R.Blind own) (hR : R.Lawful own) (hu : R.Valid u) {ref : ListRef}
    (hown : own ref) {f : Cell H → Cell H} (hf : ∀ c, (f c).source = c.source)
    {keep : ListRef → Prop} (hkeep : ¬keep ref) :
    R.Quiet keep u { u with lists := u.lists.modify ref.number f } := by
  obtain ⟨hadmits, hreads⟩ := hblind.settle hown hu hf
  refine ⟨⟨⟨hadmits, fun ref' source μ hknown => ?_⟩, hreads⟩, fun ref' hkept => ?_⟩
  · obtain ⟨c, hc, hsource, hholds⟩ := hu.known ref' source μ hknown
    have hr : ref.number ≠ ref'.number := fun hr => by
      obtain rfl := ListRef.eq_of_number hr
      cases hknown.symm.trans (hR.foreign ref hown)
    exact ⟨c, by rw [getElem?_modify_other hr]; exact hc, hsource, hholds.later hreads⟩
  · refine getElem?_modify_other fun hr => ?_
    obtain rfl := ListRef.eq_of_number hr
    exact hkeep hkept

theorem Quiet.mono {keep keep' : ListRef → Prop} (h : R.Quiet keep u u')
    (hkeep : ∀ ref, keep' ref → keep ref) : R.Quiet keep' u u' :=
  ⟨h.toLater, fun ref hkept => h.own ref (hkeep ref hkept)⟩

/-- The lists of a pipeline that come behind a list. -/
def above (own : ListRef → Prop) (ref q : ListRef) : Prop := own q ∧ ref.number < q.number

/-- The lists of a pipeline up to a list. -/
def upto (own : ListRef → Prop) (ref q : ListRef) : Prop := own q ∧ q.number ≤ ref.number

/-- Those above a list are not concerned by what happens to it. -/
theorem Blind.quiet_above (hblind : R.Blind own) (hR : R.Lawful own) (hu : R.Valid u)
    {ref : ListRef} (hown : own ref) {f : Cell H → Cell H} (hf : ∀ c, (f c).source = c.source) :
    R.Quiet (above own ref) u { u with lists := u.lists.modify ref.number f } :=
  hblind.quiet hR hu hown hf fun hin => Nat.lt_irrefl _ hin.2

/-- Neither are those further below. -/
theorem Blind.quiet_upto (hblind : R.Blind own) (hR : R.Lawful own) (hu : R.Valid u)
    {ref ref' : ListRef} (hown : own ref') (hlt : ref.number < ref'.number) {f : Cell H → Cell H}
    (hf : ∀ c, (f c).source = c.source) :
    R.Quiet (upto own ref) u { u with lists := u.lists.modify ref'.number f } :=
  hblind.quiet hR hu hown hf fun hin => Nat.not_lt_of_le hin.2 hlt

theorem fits_quiet {keep keep' : ListRef → Prop} (hkeep : ∀ ref, keep ref → own ref)
    (hkeep' : ∀ ref, keep' ref → own ref) : Fits R own (R.Quiet keep) (R.Quiet keep') where
  other h := h.mono hkeep
  part h := h.mono hkeep'
  trans := Quiet.trans
  later := Quiet.toLater
  reads := Quiet.toLater

theorem fits_between (ref : ListRef) :
    Fits R own (R.Quiet (above own ref)) (R.Quiet (upto own ref)) :=
  fits_quiet (fun _ h => h.1) fun _ h => h.1

/-- The source of the list has been started once and has sent what was taken of it; the list holds
its items if the run was complete. -/
def Spent (s : ListRef) (c : Cell H) (length : Nat) (asks : Nat → Prop) (complete : Bool)
    (u : Store H W) : Prop :=
  ∃ c' k, u.lists[s.number]? = some c' ∧ c'.runs = c.runs + 1 ∧ c'.sent = c.sent + k ∧
    c'.items.isSome = complete ∧ Course.Takes asks length k

/-- With any sink that implements a consumer, the run feeds the image of the items to the consumer,
and takes of them what the consumer wants. -/
structure Draws (R : Reading H W D) (Q T : Store H W → Store H W → Prop) (ready : Store H W → Prop)
    (s : ListRef) (c : Cell H) (ds : List D)
    (run : {S : Type} → S → Sink H W S → Run H W CollectionError (S × Bool))
    (image : List D → List D) : Prop where
  feeds : ∀ {S A : Type} {Rel : Store H W → S → A → Prop} {sink : Sink H W S} {step : Consumer D A},
    Implements R Q T Rel sink step → ∀ {u z a}, R.Valid u → ready u → Rel u z a →
      Gives (R.Later u)
        (fun u' p q => Both Rel u' p q ∧ Spent s c ds.length
          (fun i => Course.Asks (Course.feedFrom none step (image (ds.take i)) a)) q.2 u')
        (run z sink u) (Course.feedFrom none step (image ds) a)

section

variable {ready : Store H W → Prop} {s : ListRef} {c : Cell H} {ds : List D}
  {image : List D → List D} {ref : ListRef}

/-- The source of a list that a stage is derived from, with callbacks that never fail. -/
inductive Builds (m : Machine H W) (R : Reading H W D) (own : ListRef → Prop) (ref : ListRef) :
    Stage D → Source H → Prop where
  | map {f : Function H} {g : D → D} (hf : Pure m R own f fun d => .ok (g d)) :
    Builds m R own ref (.map g) (.map ref f)
  | accept {f : Function H} {p : D → Bool} (hf : Judges m R own f fun d => .ok (some (p d))) :
    Builds m R own ref (.accept p) (.accept ref f)
  | combine {f : Function H} {g : D → D → D} (hf : PurePair m R own f fun d e => .ok (g d e)) :
    Builds m R own ref (.combine g) (.combine ref f)
  | iir {initial f : Function H} {i : D → D} {g : D → D → D}
      (hi : Pure m R own initial fun d => .ok (i d))
      (hf : PurePair m R own f fun d e => .ok (g d e)) :
    Builds m R own ref (.iir i g) (.iir ref initial f)
  | number {f : Function H} {g : Int64 → D → D}
      (hf : PureIndexed m R own f fun i d => .ok (g i d)) :
    Builds m R own ref (.number g) (.number ref f)

theorem Draws.produce {traverse : Traversal H W}
    (h : Draws R Q T ready s c ds (traverse ref) image) (hfit : Fits R own Q T) {σ : Stage D}
    {source : Source H} (hσ : Builds m R own ref σ source) :
    Draws R Q T ready s c ds (Sequence.produce m traverse source) (σ.image ∘ image) := by
  refine ⟨fun {S A Rel sink step} himp {u z a} hu hready hrel => ?_⟩
  simp only [Function.comp_apply, Stage.feed_image]
  cases hσ with
  | map hf =>
    simp only [Stage.course, Course.feed_map]
    exact h.feeds (himp.map hfit hf) hu hready hrel
  | accept hf =>
    simp only [Stage.course, Course.feed_accept]
    exact h.feeds (himp.accept hfit hf) hu hready hrel
  | combine hf =>
    simp only [Stage.course, Course.feed_combine, Course.asks_forget]
    exact (h.feeds (himp.combine hfit hf) hu hready ⟨.none, hrel⟩).forget fun hr =>
      ⟨⟨hr.1.1.2, hr.1.2⟩, hr.2⟩
  | iir hi hf =>
    simp only [Stage.course, Course.feed_iir, Course.asks_forget]
    exact (h.feeds (himp.iir hfit hi hf) hu hready ⟨.none, hrel⟩).forget fun hr =>
      ⟨⟨hr.1.1.2, hr.1.2⟩, hr.2⟩
  | number hf =>
    simp only [Stage.course, Course.feed_number, Course.asks_forget]
    exact (h.feeds (himp.number hfit hf) hu hready ⟨rfl, hrel⟩).forget fun hr =>
      ⟨⟨hr.1.1.2, hr.1.2⟩, hr.2⟩

/-- The lists of a pipeline up to this one are what they were in the beginning. -/
def Untouched (own : ListRef → Prop) (u₀ : Store H W) (ref : ListRef) (u : Store H W) : Prop :=
  ∀ q, upto own ref q → u.lists[q.number]? = u₀.lists[q.number]?

theorem Spent.quiet {length : Nat} {asks : Nat → Prop} {complete : Bool} {keep : ListRef → Prop}
    (h : Spent s c length asks complete u) (hq : R.Quiet keep u u') (hs : keep s) :
    Spent s c length asks complete u' := by
  obtain ⟨c', k, hc', h⟩ := h
  exact ⟨c', k, (hq.own s hs).trans hc', h⟩

theorem upto_of_lt {ref' q : ListRef} (hlt : ref.number < ref'.number) (hq : upto own ref q) :
    upto own ref' q := ⟨hq.1, Nat.le_trans hq.2 (Nat.le_of_lt hlt)⟩

/-- A sink behind a list of the pipeline, as those below the list see it. -/
theorem Implements.meteredAbove (hR : R.Lawful own) (hblind : R.Blind own) {ref' : ListRef}
    (hown : own ref') (hlt : ref.number < ref'.number) {S A : Type}
    {Rel : Store H W → S → A → Prop} {sink : Sink H W S} {step : Consumer D A}
    (himp : Implements R (R.Quiet (above own ref')) (R.Quiet (upto own ref')) Rel sink step) :
    Implements R (R.Quiet (above own ref)) (R.Quiet (upto own ref)) Rel
      (Sequence.metered ref' sink) step := by
  refine himp.metered (fits_between ref) (fun hq => hq.mono fun q hin => ?_)
    (fun hq => hq.mono fun _ => upto_of_lt hlt) fun hu => ⟨?_, ?_⟩
  · exact ⟨hin.1, Nat.lt_trans hlt hin.2⟩
  · exact hblind.quiet_above hR hu hown fun _ => rfl
  · exact hblind.quiet_upto hR hu hown hlt fun _ => rfl

/-- A list of the pipeline, run for those above it. -/
theorem Draws.traverse (hR : R.Lawful own) (hblind : R.Blind own) {u₀ : Store H W} {c' : Cell H}
    {ref' : ListRef} (hs : upto own ref s) (hown : own ref') (hlt : ref.number < ref'.number)
    (hc' : u₀.lists[ref'.number]? = some c') (hnone : c'.items = none) {depth : Nat}
    (h : Draws R (R.Quiet (above own ref)) (R.Quiet (upto own ref)) (Untouched own u₀ ref) s c ds
      (Sequence.produce m (Sequence.traverseAt m depth) c'.source) image) :
    Draws R (R.Quiet (above own ref')) (R.Quiet (upto own ref')) (Untouched own u₀ ref') s c ds
      (Sequence.traverseAt m (depth + 1) ref') image := by
  refine ⟨fun {S A Rel sink step} himp {u z a} hu hready hrel => ?_⟩
  have hmetered := (himp.recording (fits_between ref')).meteredAbove hR hblind hown hlt
  -- the run is counted in the cell of this list, which neither side looks at
  have habove := hblind.quiet_above (f := fun c => { c with runs := c.runs + 1 }) hR hu hown
    fun _ => rfl
  have hupto := hblind.quiet_upto (f := fun c => { c with runs := c.runs + 1 }) hR hu hown hlt
    fun _ => rfl
  have hrun := h.feeds hmetered (z := ([], z)) (a := ([], a)) habove.valid
    (fun q hq => (hupto.own q hq).trans (hready q (upto_of_lt hlt hq)))
    ⟨.nil, himp.stable habove hrel⟩
  rw [Sequence.traverseAt_waiting ((hready ref' ⟨hown, Nat.le_refl _⟩).trans hc') hnone]
  simp only [← Course.feed_record none step _ [] a, Course.asks_forget]
  rw [map_eq_pure_bind]
  refine (hrun.mono fun _ => habove.toLater.trans).bind (fun _ h => h) fun p q u' _ hlater hpq => ?_
  obtain ⟨⟨seen, z'⟩, complete⟩ := p
  obtain ⟨⟨seen', a'⟩, complete'⟩ := q
  obtain ⟨⟨⟨-, hrel'⟩, rfl⟩, hspent⟩ := hpq
  cases complete with
  | false => exact .pure hlater ⟨⟨hrel', rfl⟩, hspent⟩
  | true =>
    have hfilled := hblind.quiet_above
      (f := fun c => { c with items := some (c.items.getD seen.reverse) }) hR hlater.valid hown
      fun _ => rfl
    refine .pure (hlater.trans hfilled.toLater) ⟨⟨himp.stable hfilled hrel', rfl⟩, ?_⟩
    exact hspent.quiet (hblind.quiet_upto hR hlater.valid hown hlt fun _ => rfl) hs

/-- The cell counts what has been recorded. -/
def Counts (R : Reading H W D) {S A : Type} (Rel : Store H W → S → A → Prop) (s : ListRef)
    (c : Cell H) (u : Store H W) (p : List (Value H) × S) (q : List D × A) : Prop :=
  Records R Rel u p q ∧
    u.lists[s.number]? = some { c with runs := c.runs + 1, sent := c.sent + q.1.length }

theorem Implements.counts (hR : R.Lawful own) (hblind : R.Blind own) (hown : own s) {S A : Type}
    {Rel : Store H W → S → A → Prop} {sink : Sink H W S} {step : Consumer D A}
    (himp : Implements R (R.Quiet (above own s)) (R.Quiet (upto own s)) Rel sink step) :
    Implements R (R.Quiet own) R.Later (Counts R Rel s c)
      (Sequence.metered s (Sequence.recording sink)) (Course.recordStep step) := by
  have hrec := himp.recording (fits_between s)
  refine ⟨fun hq hr => ⟨hrec.stable (hq.mono fun _ hin => hin.1) hr.1, (hq.own s hown).trans hr.2⟩,
    fun {u p q v d} hu hr hv => ?_⟩
  have hcounted := hblind.quiet_above (f := fun c => { c with sent := c.sent + 1 }) hR hu hown
    fun _ => rfl
  have hstep := hrec.runs hcounted.valid (hrec.stable hcounted hr.1) (hcounted.reads v d hv)
  refine hstep.imp (fun _ hq => hcounted.toLater.trans hq.toLater) fun p' q' u' hq' hq hrel => ?_
  refine ⟨⟨hrel.1, (hq.own s ⟨hown, Nat.le_refl _⟩).trans ?_⟩, hrel.2⟩
  rw [Course.recordStep_ok hq']
  exact getElem?_modify_self hr.2

/-- The list below all others. -/
theorem Denotes.draws (hR : R.Lawful own) (hblind : R.Blind own) {u₀ : Store H W} (hown : own s)
    (hc : u₀.lists[s.number]? = some c) (hnone : c.items = none) {n depth : Nat}
    (h : Denotes m R own n c.source ⟨ds, none⟩) (hdepth : n ≤ depth) :
    Draws R (R.Quiet (above own s)) (R.Quiet (upto own s)) (Untouched own u₀ s) s c ds
      (Sequence.traverseAt m (depth + 1) s) id := by
  refine ⟨fun {S A Rel sink step} himp {u z a} hu hready hrel => ?_⟩
  have hcell := (hready s ⟨hown, Nat.le_refl _⟩).trans hc
  have hcounted := hblind.quiet_above (f := fun c => { c with runs := c.runs + 1 }) hR hu hown
    fun _ => rfl
  have hrun := (h.follows hR fits_later hdepth).feeds (himp.counts hR hblind hown)
    (z := ([], z)) (a := ([], a)) hcounted.valid
    ⟨⟨.nil, himp.stable hcounted hrel⟩, getElem?_modify_self hcell⟩
  rw [Sequence.traverseAt_waiting hcell hnone]
  rw [id_eq, ← Course.feed_record none step ds [] a, map_eq_pure_bind]
  refine (hrun.mono fun _ => hcounted.toLater.trans).bind (fun _ h => h)
    fun p q u' hfeed hlater hpq => ?_
  obtain ⟨⟨seen, z'⟩, complete⟩ := p
  obtain ⟨⟨seen', a'⟩, complete'⟩ := q
  obtain ⟨⟨⟨-, hrel'⟩, hcell'⟩, rfl⟩ := hpq
  -- the cell has counted what was recorded, and this is what the consumer takes
  obtain ⟨k, hk, htakes⟩ := Course.feed_record_takes hfeed
  rw [List.length_nil, Nat.zero_add] at hk
  cases complete with
  | false =>
    refine .pure hlater ⟨⟨hrel', rfl⟩, _, k, hcell', rfl, congrArg (c.sent + ·) hk, ?_, htakes⟩
    rw [hnone]
    rfl
  | true =>
    have hfilled := hblind.quiet_above
      (f := fun c => { c with items := some (c.items.getD seen.reverse) }) hR hlater.valid hown
      fun _ => rfl
    exact .pure (hlater.trans hfilled.toLater) ⟨⟨himp.stable hfilled hrel', rfl⟩, _, k,
      getElem?_modify_self hcell', rfl, congrArg (c.sent + ·) hk, rfl, htakes⟩

/-- The lists of a pipeline in a store: each has not been run to its end, and is derived from the
one before, which is older. -/
inductive Pipeline (m : Machine H W) (R : Reading H W D) (own : ListRef → Prop) (u : Store H W)
    (s : ListRef) : List (Stage D) → ListRef → Prop where
  | source : Pipeline m R own u s [] s
  | stage {stages : List (Stage D)} {σ : Stage D} {ref ref' : ListRef} {c : Cell H}
      (h : Pipeline m R own u s stages ref) (hown : own ref') (hlt : ref.number < ref'.number)
      (hc : u.lists[ref'.number]? = some c) (hwaiting : c.items = none)
      (hσ : Builds m R own ref σ c.source) : Pipeline m R own u s (stages ++ [σ]) ref'

theorem Pipeline.draws (hR : R.Lawful own) (hblind : R.Blind own) {stages : List (Stage D)}
    (h : Pipeline m R own u s stages ref) (hown : own s) (hc : u.lists[s.number]? = some c)
    (hwaiting : c.items = none) {n depth : Nat} (hsource : Denotes m R own n c.source ⟨ds, none⟩)
    (hdepth : n + stages.length ≤ depth) :
    upto own ref s ∧
      Draws R (R.Quiet (above own ref)) (R.Quiet (upto own ref)) (Untouched own u ref) s c ds
        (Sequence.traverseAt m (depth + 1) ref) (Stage.images stages) := by
  induction h generalizing depth with
  | source => exact ⟨⟨hown, Nat.le_refl _⟩, hsource.draws hR hblind hown hc hwaiting hdepth⟩
  | @stage stages σ ref ref' c' _ hown' hlt hc' hwaiting' hσ ih =>
    rw [List.length_append, List.length_singleton, ← Nat.add_assoc] at hdepth
    match depth, hdepth with
    | depth + 1, hdepth =>
      obtain ⟨hs, hdraws⟩ := ih (Nat.le_of_succ_le_succ hdepth)
      have himage : Stage.images (stages ++ [σ]) = σ.image ∘ Stage.images stages :=
        funext fun _ => Stage.images_concat stages σ _
      have hproduce := hdraws.produce (fits_between ref) hσ
      rw [himage]
      exact ⟨upto_of_lt hlt hs, hproduce.traverse hR hblind hs hown' hlt hc' hwaiting'⟩

variable {t : ListRef} {ct : Cell H}

/-- If none are asked for, nothing below is run. -/
theorem items_top_zero (hR : R.Lawful own) (hblind : R.Blind own) (hown : own t)
    (hlt : ref.number < t.number) (ht : u.lists[t.number]? = some ct)
    (htop : ct.source = .top ref 0) (hwaiting : ct.items = none) (hu : R.Valid u) :
    ∃ u', Sequence.items m t u = .ok [] u' ∧ R.Quiet (upto own ref) u u' := by
  have hcounted := hblind.quiet_upto (f := fun c => { c with runs := c.runs + 1 }) hR hu hown hlt
    fun _ => rfl
  have hfilled := hblind.quiet_upto (f := fun c => { c with items := some (c.items.getD []) }) hR
    hcounted.valid hown hlt fun _ => rfl
  rw [Sequence.items_waiting ht hwaiting, htop]
  exact ⟨_, rfl, hcounted.trans hfilled⟩

/-- Otherwise all that is done below is what the consumer that counts them wants. -/
theorem Draws.items_top (hR : R.Lawful own) (hblind : R.Blind own) (hs : upto own ref s)
    (hown : own t) (hlt : ref.number < t.number) (ht : u.lists[t.number]? = some ct) {n : Nat}
    (hn : 0 < n) (htop : ct.source = .top ref n) (hwaiting : ct.items = none) (hu : R.Valid u)
    (h : Draws R (R.Quiet (above own ref)) (R.Quiet (upto own ref)) (Untouched own u ref) s c ds
      (Sequence.traverse m ref) image) :
    ∃ vs u', Sequence.items m t u = .ok vs u' ∧ vs.Forall₂ (R.stands u') ((image ds).take n) ∧
      Spent s c ds.length (fun i => (image (ds.take i)).length < n) ((image ds).length < n) u' := by
  have hcollect := (implements_collect (fits_between t)).meteredAbove hR hblind hown hlt
  have hcounted := hblind.quiet_upto (f := fun c => { c with runs := c.runs + 1 }) hR hu hown hlt
    fun _ => rfl
  have hrun := h.feeds hcollect.top (z := (n, false, [])) (a := (n, false, [])) hcounted.valid
    hcounted.own ⟨rfl, rfl, .nil⟩
  simp only [Course.feed_top_collect _ _ hn, Course.asks_ok, decide_eq_true_eq] at hrun
  obtain ⟨⟨⟨remaining, stopped, seen⟩, complete⟩, u', heq, hlater, ⟨⟨-, -, hseen⟩, -⟩, hspent⟩ :=
    hrun.of_ok
  have hstart : Sequence.start m (Sequence.traverse m) t (.top ref n) [] Sequence.collect u =
      .ok (seen, !stopped) u' := by
    simp only [Sequence.start, Sequence.produce, if_neg (Nat.ne_of_gt hn)]
    exact Run.bind_apply_ok heq
  have hall : seen.reverse.Forall₂ (R.stands u') ((image ds).take n) := by
    simpa using List.rel_reverse hseen
  have hfilled := hblind.quiet_upto
    (f := fun c => { c with items := some (c.items.getD seen.reverse) }) hR hlater.valid hown hlt
    fun _ => rfl
  rw [Sequence.items_waiting ht hwaiting, htop, Run.bind_apply_ok hstart]
  exact ⟨seen.reverse, _, rfl, hfilled.reads_all hall, hspent.quiet hfilled hs⟩

end

/-- Exact demand. All items of the first `n` of a pipeline are asked for, and nothing of it has been
run to its end. The source below is started only if `n` is not zero, and once; it sends the shortest
prefix whose image has `n` items, or everything if there is none. Its list comes to hold its items
only if the whole image has fewer than `n`.

The callbacks may run and make other lists, but must leave those of the pipeline alone: one that
runs the list below it starts the source a second time. -/
theorem demand_exact (hR : R.Lawful own) (hblind : R.Blind own) {s ref t : ListRef} {c ct : Cell H}
    {depth n : Nat} {ds : List D} {stages : List (Stage D)} (hown : own s)
    (hc : u.lists[s.number]? = some c) (hwaiting : c.items = none)
    (hsource : Denotes m R own depth c.source ⟨ds, none⟩) (hpipe : Pipeline m R own u s stages ref)
    (hownt : own t) (hlt : ref.number < t.number) (ht : u.lists[t.number]? = some ct)
    (htop : ct.source = .top ref n) (hwaitingt : ct.items = none)
    (hbudget : depth + stages.length < m.budget) (hu : R.Valid u) :
    ∃ vs u' c' k, Sequence.items m t u = .ok vs u' ∧
      vs.Forall₂ (R.stands u') ((Stage.images stages ds).take n) ∧
      u'.lists[s.number]? = some c' ∧ c'.runs = c.runs + (if n = 0 then 0 else 1) ∧
      c'.sent = c.sent + k ∧
      (if n ≤ (Stage.images stages ds).length then
        IsLeast {j | (Stage.images stages (ds.take j)).length = n} k
      else k = ds.length) ∧
      (c'.items.isSome ↔ 0 < n ∧ (Stage.images stages ds).length < n) := by
  obtain ⟨b, hb⟩ := Nat.exists_eq_add_of_lt hbudget
  obtain ⟨hs, hdraws⟩ := hpipe.draws hR hblind hown hc hwaiting hsource (Nat.le_add_right _ b)
  rw [← hb] at hdraws
  obtain rfl | hn := Nat.eq_zero_or_pos n
  · obtain ⟨u', heq, hquiet⟩ := items_top_zero (m := m) hR hblind hownt hlt ht htop hwaitingt hu
    refine ⟨[], u', c, 0, heq, .nil, (hquiet.own s hs).trans hc, rfl, rfl, ?_, ?_⟩
    · rw [if_pos (Nat.zero_le _)]
      exact ⟨by simp [Stage.images_empty], fun _ _ => Nat.zero_le _⟩
    · simp [hwaiting]
  · obtain ⟨vs, u', heq, hvs, c', k, hc', hruns, hsent, hitems, htakes⟩ :=
      hdraws.items_top hR hblind hs hownt hlt ht hn htop hwaitingt hu
    refine ⟨vs, u', c', k, heq, hvs, hc', ?_, hsent, Stage.takes_shortest htakes, ?_⟩
    · rw [hruns, if_neg (Nat.ne_of_gt hn)]
    · rw [hitems, decide_eq_true_eq]
      exact ⟨fun h => ⟨hn, h⟩, fun h => h.2⟩

namespace Thrift

open Nested

def numbers : List Int64 := [3, 5, 4, -4, 5, 2, 9]

def stages : List (Stage Int64) :=
  [.iir (fun d => -d) fun d last => d - last, .accept fun d => (compare d.toInt 4).isLT,
    .combine fun d e => d - e, .number fun i d => i - d, .map fun d => -d]

/-- The lists of the pipeline, none of which has been run. -/
def store (n : Nat) : Store Empty Unit where
  lists := #[{ source := .given (numbers.map .int) none }, { source := .iir ⟨0⟩ negate minus },
    { source := .accept ⟨1⟩ small }, { source := .combine ⟨2⟩ minus },
    { source := .number ⟨3⟩ minus }, { source := .map ⟨4⟩ negate }, { source := .top ⟨5⟩ n }]
  world := ()

/-- No list is known but those of the pipeline. -/
def reading : Reading Empty Unit Int64 := embedded (fun _ => none) .int

def inside (ref : ListRef) : Prop := ref.number < 7

theorem blind : reading.Blind inside := ⟨fun _ _ _ => ⟨trivial, fun _ _ hv => hv⟩⟩

theorem valid (n : Nat) : reading.Valid (store n) := ⟨trivial, fun _ _ _ hknown => by cases hknown⟩

theorem numbers_denotes :
    Denotes machine reading inside 0 (.given (numbers.map .int) none) ⟨numbers, none⟩ :=
  .given fun _ _ => by repeat constructor

theorem pipeline (n : Nat) : Pipeline machine reading inside (store n) ⟨0⟩ stages ⟨5⟩ := by
  have hin : ∀ k < 7, inside ⟨k⟩ := fun _ hk => hk
  have h : Pipeline machine reading inside (store n) ⟨0⟩ [] ⟨0⟩ := .source
  have h := h.stage (hin 1 (by decide)) (by decide) rfl rfl (.iir negate_pure minus_pure)
  have h := h.stage (hin 2 (by decide)) (by decide) rfl rfl (.accept small_judges)
  have h := h.stage (hin 3 (by decide)) (by decide) rfl rfl (.combine minus_pure)
  have h := h.stage (hin 4 (by decide)) (by decide) rfl rfl (.number minus_pureIndexed)
  exact h.stage (hin 5 (by decide)) (by decide) rfl rfl (.map negate_pure)

end Thrift

theorem demand_exact_thrift :
    (∃ u c, Sequence.items Nested.machine ⟨6⟩ (Thrift.store 2) = .ok [.int 1, .int (-5)] u ∧
      u.lists[0]? = some c ∧ c.runs = 1 ∧ c.sent = 4 ∧ c.items.isSome = false) ∧
    ∃ u c, Sequence.items Nested.machine ⟨6⟩ (Thrift.store 9) =
        .ok [.int 1, .int (-5), .int 1] u ∧
      u.lists[0]? = some c ∧ c.runs = 1 ∧ c.sent = 7 ∧ c.items.isSome = true := by
  have hlawful : Thrift.reading.Lawful Thrift.inside := embedded_lawful fun _ _ => rfl
  have hdemand (n : Nat) := demand_exact (s := ⟨0⟩) (t := ⟨6⟩) hlawful Thrift.blind
    (by decide : 0 < 7) rfl rfl Thrift.numbers_denotes (Thrift.pipeline n) (by decide : 6 < 7)
    (by decide) rfl rfl rfl (by decide) (Thrift.valid n)
  constructor
  · obtain ⟨vs, u, c, k, hitems, hvs, hc, hruns, hsent, hk, hfull⟩ := hdemand 2
    rw [eq_map_of_embedded hvs] at hitems
    rw [if_pos (by decide)] at hk
    have hfewer : ∀ j < 4, (Stage.images Thrift.stages (Thrift.numbers.take j)).length ≠ 2 := by
      decide
    have hfour : (Stage.images Thrift.stages (Thrift.numbers.take 4)).length = 2 := by decide
    obtain rfl : k = 4 := Nat.le_antisymm (hk.2 hfour) (Nat.le_of_not_lt fun h => hfewer k h hk.1)
    have hwaiting : c.items.isSome ≠ true := fun h => absurd (hfull.1 h).2 (by decide)
    exact ⟨u, c, hitems, hc, hruns, hsent, Bool.eq_false_iff.2 hwaiting⟩
  · obtain ⟨vs, u, c, k, hitems, hvs, hc, hruns, hsent, hk, hfull⟩ := hdemand 9
    rw [eq_map_of_embedded hvs] at hitems
    rw [if_neg (by decide)] at hk
    subst hk
    exact ⟨u, c, hitems, hc, hruns, hsent, hfull.2 (by decide)⟩

namespace Reentrance

/-- The closure `x -> numbers.size()` of the list that it maps. -/
def sizeBelow : Function Empty :=
  .mk (.made 0) { name := "sizeBelow", arity := .fixed 1, isPure := true }
    (.code ["x"] (.method .unknown true true (.var .unknown "numbers" none) "size" [])
      [.value "numbers" (.list ⟨0⟩)])

def store : Store Empty Unit where
  lists := #[{ source := .given ([3, 5, 4].map .int) none }, { source := .map ⟨0⟩ sizeBelow },
    { source := .top ⟨1⟩ 1 }]
  world := ()

end Reentrance

/-- One item is asked for and would be enough, but the callback of the pipeline starts the source
again and runs it to its end. -/
theorem demand_reentrant :
    ∃ u c, Sequence.items Nested.machine ⟨2⟩ Reentrance.store = .ok [.int 3] u ∧
      u.lists[0]? = some c ∧ c.runs = 2 ∧ c.sent = 4 ∧ c.items.isSome = true :=
  ⟨_, _, rfl, rfl, rfl, rfl, rfl⟩

end Reading

end Formula
