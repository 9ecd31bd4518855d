import Formula.Method
import Formula.Proofs.Faults.Runs

/-!
Lists and maps under a regime. A traversal sends items that fit and ends in faults of the functions
that its stages call, or in those of the operations on lists themselves; the methods of lists and
maps are built on that.
-/
namespace Formula
namespace Faults

variable {H W S : Type} {R : Regime H W} {m : Machine H W}

namespace Regime

/-- Faults that calls and callbacks may end in. -/
abbrev Raw (R : Regime H W) (e : EvalError) (_ : Store H W) : Prop := R.raw e

/-- The fault is the very one that a call on the machine ended in, with this store, or one that a
list from outside breaks off with. -/
inductive Arises (R : Regime H W) (m : Machine H W) (e : EvalError) (t : Store H W) : Prop where
  | call {f : Function H} {args : List (Value H)} {s : Store H W} (hf : R.Runs f)
      (hargs : R.HoldsAll args) (hs : Sound R s) (h : m.call f args s = .error (.fault e) t)
  | ending (h : R.ends e)

/-- Faults of operations on lists and maps: their own, or those of the functions they call. -/
def Inside (R : Regime H W) (m : Machine H W) : CollectionError → Store H W → Prop
  | .eval e, t => R.raw e ∧ R.Arises m e t
  | _, _ => True

end Regime

/-- A machine on which calls end as the regime says. -/
structure Serves (R : Regime H W) (m : Machine H W) : Prop where
  host : m.host = R.host
  call : ∀ {f args}, R.Runs f → R.HoldsAll args → Ensures R R.Holds R.Raw (m.call f args)

theorem Serves.apply (hm : Serves R m) {f : Function H} {args : List (Value H)} (hf : R.Runs f)
    (hargs : R.HoldsAll args) : Ensures R R.Holds (R.Inside m) (m.apply f args) := by
  intro s hs
  refine (hm.call hf hargs s hs).mapFault fun hrun he => ?_
  exact ⟨he, .call hf hargs hs hrun⟩

/-- The sink takes items that fit, and keeps a property of its state. -/
def Feeds (R : Regime H W) (m : Machine H W) (Q : S → Prop) (sink : Sink H W S) : Prop :=
  ∀ s v, Q s → R.Holds v → Ensures R (fun p => Q p.1) (R.Inside m) (sink s v)

/-- The traversal feeds sinks in this way. -/
def Traverses (R : Regime H W) (m : Machine H W) (traverse : Traversal H W) : Prop :=
  ∀ {S : Type} {Q : S → Prop} {ref : ListRef} {s : S} {sink : Sink H W S}, R.listed ref → Q s →
    Feeds R m Q sink → Ensures R (fun p => Q p.1) (R.Inside m) (traverse ref s sink)

/-- The value is missing or fits. -/
abbrev Regime.Maybe (R : Regime H W) (v : Option (Value H)) : Prop := ∀ w, v = some w → R.Holds w

theorem Regime.maybe_none : R.Maybe none := fun _ h => by cases h

theorem Regime.maybe_some {v : Value H} (h : R.Holds v) : R.Maybe (some v) :=
  fun _ hw => Option.some.inj hw ▸ h

variable {Q : S → Prop} {sink : Sink H W S}

/-- A step that goes on only if the sink asks for more. -/
theorem Feeds.step (h : Feeds R m Q sink) {s : S} {v : Value H} (hs : Q s) (hv : R.Holds v)
    {next : S → Run H W CollectionError (S × Bool)}
    (hnext : ∀ s, Q s → Ensures R (fun p => Q p.1) (R.Inside m) (next s)) :
    Ensures R (fun p => Q p.1) (R.Inside m) (do
      let (s, more) ← sink s v
      if more then next s else pure (s, false)) := by
  refine (h s v hs hv).bind fun p hp => ?_
  obtain ⟨s, more⟩ := p
  cases more with
  | true => exact hnext s hp
  | false => exact .pure hp

theorem Feeds.feed (h : Feeds R m Q sink) {items : List (Value H)} (hitems : R.HoldsAll items)
    {s : S} (hs : Q s) : Ensures R (fun p => Q p.1) (R.Inside m) (Sequence.feed sink items s) := by
  induction items generalizing s with
  | nil => exact .pure hs
  | cons v rest ih =>
    obtain ⟨hv, hrest⟩ := List.forall_mem_cons.1 hitems
    exact h.step hs hv fun s hs => ih hrest hs

theorem Feeds.feedRange (h : Feeds R m Q sink) (count : Nat) (next : Int64) {s : S} (hs : Q s) :
    Ensures R (fun p => Q p.1) (R.Inside m) (Sequence.feedRange sink count next s) := by
  induction count generalizing next s with
  | zero => exact .pure hs
  | succ count ih => exact h.step hs (.int next) fun s hs => ih _ hs

theorem ensures_entryMap {key value : Value H} (hkey : R.Holds key) (hvalue : R.Holds value) :
    Ensures R R.Holds (R.Inside m) (Sequence.entryMap key value : Run H W _ _) := by
  refine ensures_newMap fun i => Regime.HoldsFields.map (fun p hp => ?_) i
  obtain rfl | hp := List.mem_cons.1 hp
  · exact hkey
  · cases List.mem_singleton.1 hp
    exact hvalue

theorem Feeds.feedEntries (h : Feeds R m Q sink) {es : List (String × Value H)}
    (hes : R.HoldsFields es) {s : S} (hs : Q s) :
    Ensures R (fun p => Q p.1) (R.Inside m) (Sequence.feedEntries sink es s) := by
  induction es generalizing s with
  | nil => exact .pure hs
  | cons p rest ih =>
    obtain ⟨hp, hrest⟩ := List.forall_mem_cons.1 hes
    refine (ensures_entryMap (.str p.1) hp).bind fun v hv => ?_
    exact h.step hs hv fun s hs => ih hrest hs

section Stages

variable (hm : Serves R m) (h : Feeds R m Q sink)
include hm h

theorem feeds_acceptStage {f : Function H} (hf : R.Runs f) :
    Feeds R m Q (Sequence.acceptStage m f sink) := by
  intro s v hs hv
  refine (hm.apply hf (Regime.holdsAll_one hv)).bind fun r _ => ?_
  cases r with
  | bool b =>
    cases b with
    | true => exact h s v hs hv
    | false => exact .pure hs
  | _ => exact .fault fun _ => trivial

theorem feeds_mapStage {f : Function H} (hf : R.Runs f) :
    Feeds R m Q (Sequence.mapStage m f sink) := by
  intro s v hs hv
  exact (hm.apply hf (Regime.holdsAll_one hv)).bind fun w hw => h s w hs hw

theorem feeds_combineStage {f : Function H} (hf : R.Runs f) :
    Feeds R m (fun p => R.Maybe p.1 ∧ Q p.2) (Sequence.combineStage m f sink) := by
  intro p v hp hv
  obtain ⟨last, s⟩ := p
  obtain ⟨hlast, hs⟩ := hp
  cases last with
  | none => exact .pure ⟨Regime.maybe_some hv, hs⟩
  | some previous =>
    refine (hm.apply hf (Regime.holdsAll_two (hlast previous rfl) hv)).bind fun w hw => ?_
    exact (h s w hs hw).bind fun q hq => .pure ⟨Regime.maybe_some hv, hq⟩

theorem feeds_iirStage {initial f : Function H} (hinitial : R.Runs initial) (hf : R.Runs f) :
    Feeds R m (fun p => R.Maybe p.1 ∧ Q p.2) (Sequence.iirStage m initial f sink) := by
  intro p v hp hv
  obtain ⟨last, s⟩ := p
  obtain ⟨hlast, hs⟩ := hp
  have hsend (w : Value H) (hw : R.Holds w) :
      Ensures R (fun p => R.Maybe p.1.1 ∧ Q p.1.2) (R.Inside m) (do
        let (s, more) ← sink s w
        pure ((some w, s), more)) :=
    (h s w hs hw).bind fun _ hq => .pure ⟨Regime.maybe_some hw, hq⟩
  cases last with
  | none => exact (hm.apply hinitial (Regime.holdsAll_one hv)).bind hsend
  | some previous =>
    exact (hm.apply hf (Regime.holdsAll_two hv (hlast previous rfl))).bind hsend

theorem feeds_numberStage {f : Function H} (hf : R.Runs f) :
    Feeds R m (fun p => Q p.2) (Sequence.numberStage m f sink) := by
  intro p v hp hv
  refine (hm.apply hf (Regime.holdsAll_two (.int p.1) hv)).bind fun w hw => ?_
  exact (h p.2 w hp hw).bind fun q hq => .pure hq

end Stages

theorem feeds_topStage (h : Feeds R m Q sink) :
    Feeds R m (fun p => Q p.2.2) (Sequence.topStage sink) := by
  intro p v hp hv
  refine (h p.2.2 v hp hv).bind fun q hq => ?_
  obtain ⟨s, more⟩ := q
  cases more with
  | true => exact .pure hq
  | false => exact .pure hq

theorem feeds_metered (ref : ListRef) (h : Feeds R m Q sink) :
    Feeds R m Q (Sequence.metered ref sink) := by
  intro s v hs hv
  refine (ensures_modifyCell ref ?_).bind fun _ _ => h s v hs hv
  exact fun _ hc => ⟨hc.source, hc.items⟩

theorem feeds_recording (h : Feeds R m Q sink) :
    Feeds R m (fun p => R.HoldsAll p.1 ∧ Q p.2) (Sequence.recording sink) := by
  intro p v hp hv
  refine (h p.2 v hp.2 hv).bind fun q hq => .pure ⟨Regime.HoldsAll.cons hv hp.1, hq⟩

theorem feeds_collect : Feeds R m R.HoldsAll (Sequence.collect : Sink H W _) :=
  fun _ _ hs hv => .pure (Regime.HoldsAll.cons hv hs)

/-- Given items are sent one after the other, before the fault that their list ends in. -/
theorem ensures_given {traverse : Traversal H W} {items : List (Value H)}
    {ending : Option CollectionError} (hsource : FitsSource R (.given items ending))
    (h : Feeds R m Q sink) {s : S} (hs : Q s) :
    Ensures R (fun p => Q p.1) (R.Inside m)
      (Sequence.produce m traverse (.given items ending) s sink) := by
  refine (h.feed hsource.1 hs).bind fun p hp => ?_
  obtain ⟨s, complete⟩ := p
  cases complete with
  | false => exact .pure hp
  | true =>
    cases ending with
    | none => exact .pure hp
    | some c =>
      cases c with
      | eval e =>
        obtain ⟨hraw, hends⟩ := hsource.2 _ rfl
        exact .fault fun _ => ⟨hraw, .ending hends⟩
      | _ => exact .fault fun _ => trivial

theorem ensures_produce (hm : Serves R m) {traverse : Traversal H W} (ht : Traverses R m traverse)
    {source : Source H} (hsource : FitsSource R source) (h : Feeds R m Q sink) {s : S} (hs : Q s) :
    Ensures R (fun p => Q p.1) (R.Inside m) (Sequence.produce m traverse source s sink) := by
  cases source with
  | given items ending => exact ensures_given hsource h hs
  | range bound => exact h.feedRange _ _ hs
  | entries d => exact h.feedEntries hsource hs
  | accept ref f => exact ht hsource.1 hs (feeds_acceptStage hm h hsource.2)
  | map ref f => exact ht hsource.1 hs (feeds_mapStage hm h hsource.2)
  | combine ref f =>
    refine (ht hsource.1 (s := (none, s)) ⟨Regime.maybe_none, hs⟩
      (feeds_combineStage hm h hsource.2)).bind fun p hp => .pure hp.2
  | iir ref initial f =>
    refine (ht hsource.1 (s := (none, s)) ⟨Regime.maybe_none, hs⟩
      (feeds_iirStage hm h hsource.2.1 hsource.2.2)).bind fun p hp => .pure hp.2
  | top ref n =>
    simp only [Sequence.produce]
    by_cases hn : n = 0
    · rw [if_pos hn]
      exact .pure hs
    · rw [if_neg hn]
      exact (ht hsource (s := (n, false, s)) hs (feeds_topStage h)).bind fun p hp => .pure hp
  | number ref f =>
    exact (ht hsource.1 (s := (0, s)) hs (feeds_numberStage hm h hsource.2)).bind
      fun p hp => .pure hp

theorem ensures_start (hm : Serves R m) {traverse : Traversal H W} (ht : Traverses R m traverse)
    (ref : ListRef) {source : Source H} (hsource : FitsSource R source) (h : Feeds R m Q sink)
    {s : S} (hs : Q s) :
    Ensures R (fun p => Q p.1) (R.Inside m) (Sequence.start m traverse ref source s sink) := by
  refine (ensures_modifyCell ref ?_).bind fun _ _ => ?_
  · exact fun _ hc => ⟨hc.source, hc.items⟩
  · exact ensures_produce hm ht hsource (feeds_metered ref h) hs

theorem traverses_traverseAt (hm : Serves R m) (depth : Nat) :
    Traverses R m (Sequence.traverseAt m depth) := by
  induction depth with
  | zero => exact fun _ _ _ => .exhausted
  | succ depth ih =>
    intro S Q ref s sink href hs h
    refine (ensures_cell href).bind fun c hc => ?_
    cases hitems : c.items with
    | some items => exact h.feed (hc.items items hitems) hs
    | none =>
      refine (ensures_start hm ih ref hc.source (feeds_recording h) (s := ([], s))
        ⟨fun _ hv => (by cases hv), hs⟩).bind fun p hp => ?_
      obtain ⟨⟨seen, s⟩, complete⟩ := p
      cases complete with
      | false => exact .pure hp.2
      | true =>
        refine (ensures_fill ref fun v hv => hp.1 v (List.mem_reverse.1 hv)).bind fun _ _ => ?_
        exact .pure hp.2

theorem traverses_traverse (hm : Serves R m) : Traverses R m (Sequence.traverse m) :=
  traverses_traverseAt hm m.budget

theorem ensures_items (hm : Serves R m) {ref : ListRef} (href : R.listed ref) :
    Ensures R R.HoldsAll (R.Inside m) (Sequence.items m ref) := by
  refine (ensures_cell href).bind fun c hc => ?_
  cases hitems : c.items with
  | some items => exact .pure (hc.items items hitems)
  | none =>
    refine (ensures_start hm (traverses_traverse hm) ref hc.source feeds_collect
      (s := []) fun _ hv => (by cases hv)).bind fun p hp => ?_
    have hseen : R.HoldsAll p.1.reverse := fun v hv => hp v (List.mem_reverse.1 hv)
    exact (ensures_fill ref hseen).bind fun _ _ => .pure hseen

section

variable {F : Empty → Store H W → Prop}

theorem ensures_textAt (hm : Serves R m) (depth : Nat) {v : Value H} (hv : R.Holds v) :
    Ensures R (fun _ => True) F (Value.textAt m depth v) := by
  induction depth generalizing v with
  | zero =>
    cases v with
    | list ref => exact .exhausted
    | map id d => exact .exhausted
    | _ => exact .pure trivial
  | succ depth ih =>
    cases hv with
    | list href =>
      refine (ensures_items hm href).attempt.bind fun r hr => ?_
      cases r with
      | ok items => exact (Ensures.mapM (hr items rfl) fun _ => ih).bind fun _ _ => .pure trivial
      | error e => exact .pure trivial
    | map hentries =>
      refine (Ensures.mapM (Q := fun _ => True) hentries fun p hp => ?_).bind
        fun _ _ => .pure trivial
      exact (ih hp).bind fun _ _ => .pure trivial
    | _ => exact .pure trivial

theorem ensures_text (hm : Serves R m) {v : Value H} (hv : R.Holds v) :
    Ensures R (fun _ => True) F (Value.text m v) := ensures_textAt hm m.budget hv

theorem ensures_inspect (hm : Serves R m) {v : Value H} (hv : R.Holds v) :
    Ensures R (fun _ => True) F (Value.inspect m v) := by
  cases v with
  | str s => exact .pure trivial
  | float x => exact .pure trivial
  | _ => exact ensures_text hm hv

end

theorem ensures_allEqual {equal : Value H → Value H → Run H W Empty Bool}
    {F : Empty → Store H W → Prop}
    (h : ∀ v w, R.Holds v → R.Holds w → Ensures R (fun _ => True) F (equal v w))
    {vs ws : List (Value H)} (hvs : R.HoldsAll vs) (hws : R.HoldsAll ws) :
    Ensures R (fun _ => True) F (Value.allEqual equal vs ws) := by
  induction vs generalizing ws with
  | nil =>
    cases ws with
    | nil => exact .pure trivial
    | cons w ws => exact .pure trivial
  | cons v vs ih =>
    cases ws with
    | nil => exact .pure trivial
    | cons w ws =>
      obtain ⟨hv, hvs⟩ := List.forall_mem_cons.1 hvs
      obtain ⟨hw, hws⟩ := List.forall_mem_cons.1 hws
      refine (h v w hv hw).bind fun same _ => ?_
      cases same with
      | true => exact ih hvs hws
      | false => exact .pure trivial

theorem ensures_allFound {equal : Value H → Value H → Run H W Empty Bool}
    {F : Empty → Store H W → Prop}
    (h : ∀ v w, R.Holds v → R.Holds w → Ensures R (fun _ => True) F (equal v w))
    {other : Dict (Value H)} (hother : ∀ key v, other.get? key = some v → R.Holds v)
    {es : List (String × Value H)} (hes : R.HoldsFields es) :
    Ensures R (fun _ => True) F (Value.allFound equal other es) := by
  induction es with
  | nil => exact .pure trivial
  | cons p rest ih =>
    obtain ⟨hp, hrest⟩ := List.forall_mem_cons.1 hes
    simp only [Value.allFound]
    cases hget : other.get? p.1 with
    | none => exact .pure trivial
    | some w =>
      refine (h w p.2 (hother _ w hget) hp).bind fun same _ => ?_
      cases same with
      | true => exact ih hrest
      | false => exact .pure trivial

theorem ensures_listsEqual (hm : Serves R m) {equal : Value H → Value H → Run H W Empty Bool}
    (h : ∀ v w, R.Holds v → R.Holds w → Ensures R (fun _ => True) (fun _ _ => True) (equal v w))
    {a b : ListRef} (ha : R.listed a) (hb : R.listed b) :
    Ensures R (fun _ => True) (R.Inside m) (Value.listsEqual m equal a b) := by
  unfold Value.listsEqual
  by_cases hab : a = b
  · simp only [hab, if_true]
    exact .pure trivial
  · simp only [hab, if_false]
    refine (ensures_items hm ha).bind fun vs hvs => (ensures_items hm hb).bind fun ws hws => ?_
    by_cases hlength : vs.length = ws.length
    · rw [if_pos hlength]
      exact (ensures_allEqual h hvs hws).lift
    · rw [if_neg hlength]
      exact .pure trivial

theorem ensures_equalAt (hm : Serves R m) {F : Empty → Store H W → Prop} (depth : Nat)
    {v w : Value H} (hv : R.Holds v) (hw : R.Holds w) :
    Ensures R (fun _ => True) F (Value.equalAt m depth v w) := by
  induction depth generalizing F v w with
  | zero =>
    cases v <;> cases w
    case list.list | map.map => exact .exhausted
    all_goals exact .pure trivial
  | succ depth ih =>
    cases hv with
    | list ha =>
      cases hw with
      | list hb =>
        refine (ensures_listsEqual hm (fun _ _ hv hw => ih hv hw) ha hb).attempt.bind fun r _ => ?_
        cases r <;> exact .pure trivial
      | _ => exact .pure trivial
    | @map i a hentries =>
      cases hw with
      | @map j b _ hfields =>
        simp only [Value.equalAt]
        by_cases hij : i = j
        · rw [if_pos hij]
          exact .pure trivial
        · rw [if_neg hij]
          by_cases hsize : a.size = b.size
          · rw [if_pos hsize]
            exact ensures_allFound (fun _ _ hv hw => ih hv hw) hfields hentries
          · rw [if_neg hsize]
            exact .pure trivial
      | _ => exact .pure trivial
    | _ => cases w <;> exact .pure trivial

theorem ensures_equal (hm : Serves R m) {F : Empty → Store H W → Prop} {v w : Value H}
    (hv : R.Holds v) (hw : R.Holds w) : Ensures R (fun _ => True) F (Value.equal m v w) :=
  ensures_equalAt hm m.budget hv hw

end Faults

end Formula
