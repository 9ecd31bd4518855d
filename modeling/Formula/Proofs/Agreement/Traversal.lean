import Formula.Proofs.Agreement.Runs

/-!
Running lists that agree. Twins run sources that agree, stage by stage; lists whose contents are
known send these contents, and all that happens besides is bookkeeping on the list itself.
-/
namespace Formula
namespace Agreement

variable {H W A B : Type}

/-- The machine with a budget of nested calls. -/
abbrev Setting.machine (S : Setting H W) (n : Nat) : Machine H W := .ofHost S.host n

/-- Called with these budgets, functions that agree treat arguments that agree alike. -/
def Calls (S : Setting H W) (mode : Mode) (n k : Nat) : Prop :=
  ∀ w f g args args', Functions S w f g → args.Forall₂ (Values S w) args' →
    Related S mode (Values S) w (Evaluation.call S.host n f args) (Evaluation.call S.host k g args')

/-- States of two sinks that agree, and both sinks want more or both do not. -/
def Fed (Q : World H → A → B → Prop) (w : World H) (p : A × Bool) (q : B × Bool) : Prop :=
  Q w p.1 q.1 ∧ p.2 = q.2

/-- Two sinks that treat items that agree alike. -/
def Sinks (S : Setting H W) (mode : Mode) (Q : World H → A → B → Prop) (w : World H)
    (sink : Sink H W A) (sink' : Sink H W B) : Prop :=
  ∀ w', w ≤ w' → ∀ a b v v', Q w' a b → Values S w' v v' →
    Related S mode (Fed Q) w' (sink a v) (sink' b v')

variable {S : Setting H W} {mode : Mode} {w w' : World H} {Q : World H → A → B → Prop} {n k : Nat}
  {sink : Sink H W A} {sink' : Sink H W B} {m : Machine H W}

theorem Calls.apply (h : Calls S mode n k) {f g : Function H} {args args' : List (Value H)}
    (hf : Functions S w f g) (hargs : args.Forall₂ (Values S w) args') :
    Related S mode (Values S) w ((S.machine n).apply f args) ((S.machine k).apply g args') :=
  (h w f g args args' hf hargs).mapFault

theorem Sinks.mono (h : Sinks S mode Q w sink sink') (hw : w ≤ w') : Sinks S mode Q w' sink sink' :=
  fun w'' hw' => h w'' (hw.trans hw')

theorem mono_fed (hQ : Mono Q) : Mono (Fed Q) := fun _ _ _ _ hw h => ⟨hQ _ _ _ _ hw h.1, h.2⟩

theorem sendFrom_related (hQ : Mono Q) (hsink : Sinks S mode Q w sink sink')
    {vs vs' : List (Value H)} (hvs : vs.Forall₂ (Values S w) vs') {e e' : Option CollectionError}
    (he : e.isSome = e'.isSome) {a : A} {b : B} (hab : Q w a b) :
    Related S mode (Fed Q) w (Meaning.sendFrom e sink vs a) (Meaning.sendFrom e' sink' vs' b) := by
  induction vs generalizing w vs' a b with
  | nil =>
    cases hvs
    cases e with
    | none =>
      cases e' with
      | none => exact .pure (mono_fed hQ) ⟨hab, rfl⟩
      | some e' => cases he
    | some e =>
      cases e' with
      | none => cases he
      | some e' => exact .fault e e'
  | cons v vs ih =>
    cases hvs with
    | @cons _ v' _ vs' hv hvs =>
      refine (hsink w le_rfl a b v v' hab hv).bind fun w' p q hw hpq => ?_
      obtain ⟨a', more⟩ := p
      obtain ⟨b', more'⟩ := q
      obtain ⟨hab', hmore⟩ := hpq
      cases hmore
      cases more with
      | true => exact ih (hsink.mono hw) (forall₂_mono hw hvs) hab'
      | false => exact .pure (mono_fed hQ) ⟨hab', rfl⟩

/-- Two recordings of what is sent, and the states of the sinks beside them. -/
def Recorded (S : Setting H W) (Q : World H → A → B → Prop) (w : World H)
    (p : List (Value H) × A) (q : List (Value H) × B) : Prop :=
  p.1.Forall₂ (Values S w) q.1 ∧ Q w p.2 q.2

theorem mono_recorded (hQ : Mono Q) : Mono (Recorded S Q) :=
  fun _ _ _ _ hw h => ⟨forall₂_mono hw h.1, hQ _ _ _ _ hw h.2⟩

theorem Sinks.recording (hQ : Mono Q) (h : Sinks S mode Q w sink sink') :
    Sinks S mode (Recorded S Q) w (Sequence.recording sink) (Sequence.recording sink') := by
  rintro w' hw ⟨seen, a⟩ ⟨seen', b⟩ v v' ⟨hseen, hab⟩ hv
  refine (h w' hw a b v v' hab hv).bind fun w'' p q hw' hpq => ?_
  exact .pure (mono_fed (mono_recorded hQ))
    ⟨⟨.cons (hv.mono hw') (forall₂_mono hw' hseen), hpq.1⟩, hpq.2⟩

theorem sinks_collect : Sinks S mode (fun w vs vs' => vs.Forall₂ (Values S w) vs') w
    Sequence.collect Sequence.collect := by
  intro w' hw seen seen' v v' hseen hv
  exact .pure (mono_fed mono_forall₂) ⟨.cons hv hseen, rfl⟩

/-- Bookkeeping on a list of these contents. -/
inductive Keeping (r : ListRef) (vs : List (Value H)) : Run H W CollectionError Unit → Prop where
  | none : Keeping r vs (pure ())
  | count (f : Cell H → Cell H) (hf : ∀ c, (f c).source = c.source ∧ (f c).items = c.items) :
    Keeping r vs (Store.modifyCell r f)
  | fill : Keeping r vs (Store.fill r vs)

theorem Keeping.left {r : ListRef} {vs : List (Value H)} {x : Run H W CollectionError Unit}
    (hx : Keeping r vs x) (hr : w.left r vs) {s t : Store H W} (h : At S w s t) :
    ∃ s', x s = .ok () s' ∧ At S w s' t := by
  cases hx with
  | none => exact ⟨s, rfl, h⟩
  | count f hf => exact ⟨_, rfl, h.countLeft r hf⟩
  | fill => exact ⟨_, rfl, h.fillLeft hr⟩

theorem Keeping.right {q : ListRef} {vs : List (Value H)} {x : Run H W CollectionError Unit}
    (hx : Keeping q vs x) (hq : w.right q vs) {s t : Store H W} (h : At S w s t) :
    ∃ t', x t = .ok () t' ∧ At S w s t' := by
  cases hx with
  | none => exact ⟨t, rfl, h⟩
  | count f hf => exact ⟨_, rfl, h.countRight q hf⟩
  | fill => exact ⟨_, rfl, h.fillRight hq⟩

/-- Bookkeeping in front of each item. -/
def ticking (tick : Run H W CollectionError Unit) (sink : Sink H W A) : Sink H W A := fun a v => do
  tick
  sink a v

/-- A traversal of a list that consists of known items. -/
def sending (bump tick post : Run H W CollectionError Unit) (vs : List (Value H)) (a : A)
    (sink : Sink H W A) : Run H W CollectionError (A × Bool) := do
  bump
  let (a, complete) ← Meaning.sendFrom none (ticking tick sink) vs a
  if complete then post
  pure (a, complete)

theorem recording_ticking (tick : Run H W CollectionError Unit) (sink : Sink H W A) :
    ticking tick (Sequence.recording sink) = Sequence.recording (ticking tick sink) := by
  funext p v
  simp only [ticking, Sequence.recording, bind_assoc]

/-- A source of fixed items sends them. -/
theorem produce_fixed {traverse : Traversal H W} {source : Source H} {vs : List (Value H)}
    (h : Fixed source vs) (a : A) (sink : Sink H W A) :
    Sequence.produce m traverse source a sink = Meaning.sendFrom none sink vs a := by
  cases source with
  | given items ending =>
    cases ending with
    | none =>
      cases h
      exact produce_given m traverse _ none a sink
    | some e => exact h.elim
  | range bound =>
    cases h
    exact produce_range m traverse bound a sink
  | _ => exact h.elim

/-- What a recording run of known items comes to. -/
theorem sendFrom_recorded (sink : Sink H W A) (vs : List (Value H)) (r : ListRef) (a : A) :
    (do
      let ((seen, a), complete) ← Meaning.sendFrom none (Sequence.recording sink) vs ([], a)
      if complete then Store.fill r seen.reverse
      pure (a, complete) : Run H W CollectionError (A × Bool)) =
    (do
      let (a, complete) ← Meaning.sendFrom none sink vs a
      if complete then Store.fill r vs
      pure (a, complete)) := by
  funext s
  have hrecord := Meaning.sendFrom_recording none sink vs [] a s
  cases hs : Meaning.sendFrom none sink vs a s with
  | error e u =>
    rw [hs] at hrecord
    rw [Run.bind_apply_error hs, Run.bind_apply_error hrecord]
  | ok p u =>
    obtain ⟨a', complete⟩ := p
    rw [hs] at hrecord
    obtain ⟨seen, hseen, hrecord⟩ := hrecord
    rw [Run.bind_apply_ok hs, Run.bind_apply_ok hrecord]
    cases complete with
    | false => rfl
    | true =>
      have hall : seen.reverse = vs := by rw [hseen rfl]; simp
      simp only [hall]

theorem traverseAt_holds {s : Store H W} {r : ListRef} {c : Cell H} {vs : List (Value H)}
    (hc : s.lists[r.number]? = some c) (hv : Holds c vs) (depth : Nat) (a : A) (sink : Sink H W A) :
    ∃ bump tick post, Keeping r vs bump ∧ Keeping r vs tick ∧ Keeping r vs post ∧
      Sequence.traverseAt m (depth + 1) r a sink s = sending bump tick post vs a sink s := by
  have hcell : (Store.cell r : Run H W CollectionError (Cell H)) s = .ok c s := by
    simp [Store.cell, hc]
  obtain hitems | ⟨hnone, hfixed⟩ := hv
  · refine ⟨pure (), pure (), pure (), .none, .none, .none, ?_⟩
    have htick : ticking (pure ()) sink = sink := by
      funext a v
      simp only [ticking, pure_bind]
    unfold Sequence.traverseAt
    rw [Run.bind_apply_ok hcell, hitems]
    simp only [sending, htick, Sequence.feed_eq, pure_bind, ite_self]
    exact (congrFun (bind_pure _) s).symm
  · refine ⟨_, _, _, .count (fun c => { c with runs := c.runs + 1 }) fun _ => ⟨rfl, rfl⟩,
      .count (fun c => { c with sent := c.sent + 1 }) fun _ => ⟨rfl, rfl⟩, .fill, ?_⟩
    unfold Sequence.traverseAt
    rw [Run.bind_apply_ok hcell, hnone]
    simp only [Sequence.start, produce_fixed hfixed, bind_assoc]
    change (do
      Store.modifyCell r fun c => { c with runs := c.runs + 1 }
      let ((seen, a), complete) ← Meaning.sendFrom none (ticking _ (Sequence.recording sink)) vs
        ([], a)
      if complete then Store.fill r seen.reverse
      pure (a, complete) : Run H W CollectionError (A × Bool)) s = _
    rw [recording_ticking]
    simp only [sendFrom_recorded]
    rfl

/-- Two lists of known contents send items that agree. -/
theorem sending_related (hQ : Mono Q) (hsink : Sinks S mode Q w sink sink') {r q : ListRef}
    {vs vs' : List (Value H)} (hr : w.left r vs) (hq : w.right q vs')
    (hvs : vs.Forall₂ (Values S w) vs') {bump tick post bump' tick' post' : Run H W CollectionError Unit}
    (hbump : Keeping r vs bump) (htick : Keeping r vs tick) (hpost : Keeping r vs post)
    (hbump' : Keeping q vs' bump') (htick' : Keeping q vs' tick') (hpost' : Keeping q vs' post')
    {a : A} {b : B} (hab : Q w a b) :
    Related S mode (Fed Q) w (sending bump tick post vs a sink)
      (sending bump' tick' post' vs' b sink') := by
  -- both sides do their bookkeeping on stores of which the same world stays true
  have keeping {x y : Run H W CollectionError Unit} (hx : Keeping r vs x) (hy : Keeping q vs' y) :
      Related S mode (fun _ _ _ => True) w x y := by
    intro w' hw s t hst
    obtain ⟨s', hs, hst⟩ := hx.left (World.le_left hw hr) hst
    obtain ⟨t', ht, hst⟩ := hy.right (World.le_right hw hq) hst
    rw [hs, ht]
    exact .ok trivial hst
  have hticking : Sinks S mode Q w (ticking tick sink) (ticking tick' sink') := by
    intro w' hw a b v v' hab hv
    refine ((keeping htick htick').mono hw).bind fun w'' _ _ hw' _ => ?_
    exact hsink w'' (hw.trans hw') a b v v' (hQ _ _ _ _ hw' hab) (hv.mono hw')
  refine (keeping hbump hbump').bind fun w₁ _ _ hw₁ _ => ?_
  refine (sendFrom_related hQ (hticking.mono hw₁) (forall₂_mono hw₁ hvs) rfl
    (hQ _ _ _ _ hw₁ hab)).bind fun w₂ p q hw₂ hpq => ?_
  obtain ⟨a', complete⟩ := p
  obtain ⟨b', complete'⟩ := q
  obtain ⟨hab', hcomplete⟩ := hpq
  cases hcomplete
  cases complete with
  | false => exact .pure (mono_fed hQ) ⟨hab', rfl⟩
  | true =>
    refine ((keeping hpost hpost').mono (hw₁.trans hw₂)).bind fun w₃ _ _ hw₃ _ => ?_
    exact .pure (mono_fed hQ) ⟨hQ _ _ _ _ hw₃ hab', rfl⟩

/-- Two states of a stage that remembers an item beside the states of the sinks. -/
def Remembered (S : Setting H W) (Q : World H → A → B → Prop) (w : World H)
    (p : Option (Value H) × A) (q : Option (Value H) × B) : Prop :=
  Found S w p.1 q.1 ∧ Q w p.2 q.2

theorem mono_found : Mono (Found S) := by
  intro w w' a b hw h
  match a, b, h with
  | none, none, _ => trivial
  | some v, some v', h => exact Agree.mono hw h

theorem mono_remembered (hQ : Mono Q) : Mono (Remembered S Q) :=
  fun _ _ _ _ hw h => ⟨mono_found _ _ _ _ hw h.1, hQ _ _ _ _ hw h.2⟩

theorem Sinks.accept (hQ : Mono Q) (hcalls : Calls S mode n k) {f g : Function H}
    (hf : Functions S w f g) (h : Sinks S mode Q w sink sink') :
    Sinks S mode Q w (Sequence.acceptStage (S.machine n) f sink)
      (Sequence.acceptStage (S.machine k) g sink') := by
  intro w' hw a b v v' hab hv
  refine (hcalls.apply (hf.mono hw) (.cons hv .nil)).bind fun w'' u u' hw' hu => ?_
  have hab' := hQ _ _ _ _ hw' hab
  cases hu with
  | bool c =>
    cases c with
    | true => exact h w'' (hw.trans hw') a b v v' hab' (hv.mono hw')
    | false => exact .pure (mono_fed hQ) ⟨hab', rfl⟩
  | _ => exact .fault _ _

theorem Sinks.map (hQ : Mono Q) (hcalls : Calls S mode n k) {f g : Function H}
    (hf : Functions S w f g) (h : Sinks S mode Q w sink sink') :
    Sinks S mode Q w (Sequence.mapStage (S.machine n) f sink)
      (Sequence.mapStage (S.machine k) g sink') := by
  intro w' hw a b v v' hab hv
  refine (hcalls.apply (hf.mono hw) (.cons hv .nil)).bind fun w'' u u' hw' hu => ?_
  exact h w'' (hw.trans hw') a b u u' (hQ _ _ _ _ hw' hab) hu

theorem Sinks.combine (hQ : Mono Q) (hcalls : Calls S mode n k) {f g : Function H}
    (hf : Functions S w f g) (h : Sinks S mode Q w sink sink') :
    Sinks S mode (Remembered S Q) w (Sequence.combineStage (S.machine n) f sink)
      (Sequence.combineStage (S.machine k) g sink') := by
  rintro w' hw ⟨last, a⟩ ⟨last', b⟩ v v' ⟨hlast, hab⟩ hv
  match last, last', hlast with
  | none, none, _ => exact .pure (mono_fed (mono_remembered hQ)) ⟨⟨hv, hab⟩, rfl⟩
  | some u, some u', hu =>
    refine (hcalls.apply (hf.mono hw) (.cons hu (.cons hv .nil))).bind fun w₁ x x' hw₁ hx => ?_
    refine (h w₁ (hw.trans hw₁) a b x x' (hQ _ _ _ _ hw₁ hab) hx).bind fun w₂ p q hw₂ hpq => ?_
    exact .pure (mono_fed (mono_remembered hQ)) ⟨⟨hv.mono (hw₁.trans hw₂), hpq.1⟩, hpq.2⟩

theorem Sinks.iir (hQ : Mono Q) (hcalls : Calls S mode n k) {i j f g : Function H}
    (hi : Functions S w i j) (hf : Functions S w f g) (h : Sinks S mode Q w sink sink') :
    Sinks S mode (Remembered S Q) w (Sequence.iirStage (S.machine n) i f sink)
      (Sequence.iirStage (S.machine k) j g sink') := by
  rintro w' hw ⟨last, a⟩ ⟨last', b⟩ v v' ⟨hlast, hab⟩ hv
  have rest (w₁ : World H) (x x' : Value H) (hw₁ : w' ≤ w₁) (hx : Values S w₁ x x') :
      Related S mode (Fed (Remembered S Q)) w₁
        (do let (a, more) ← sink a x; pure ((some x, a), more))
        (do let (b, more) ← sink' b x'; pure ((some x', b), more)) := by
    refine (h w₁ (hw.trans hw₁) a b x x' (hQ _ _ _ _ hw₁ hab) hx).bind fun w₂ p q hw₂ hpq => ?_
    exact .pure (mono_fed (mono_remembered hQ)) ⟨⟨hx.mono hw₂, hpq.1⟩, hpq.2⟩
  match last, last', hlast with
  | none, none, _ => exact (hcalls.apply (hi.mono hw) (.cons hv .nil)).bind rest
  | some u, some u', hu => exact (hcalls.apply (hf.mono hw) (.cons hv (.cons hu .nil))).bind rest

/-- States of a stage that counts, beside the states of the sinks. -/
def Counted {C : Type} (Q : World H → A → B → Prop) (w : World H) (p : C × A) (q : C × B) : Prop :=
  p.1 = q.1 ∧ Q w p.2 q.2

theorem mono_counted {C : Type} (hQ : Mono Q) : Mono (Counted (C := C) Q) :=
  fun _ _ _ _ hw h => ⟨h.1, hQ _ _ _ _ hw h.2⟩

theorem Sinks.top (hQ : Mono Q) (h : Sinks S mode Q w sink sink') :
    Sinks S mode (Counted (Counted Q)) w (Sequence.topStage sink) (Sequence.topStage sink') := by
  rintro w' hw ⟨remaining, stopped, a⟩ ⟨remaining', stopped', b⟩ v v' ⟨hremaining, _, hab⟩ hv
  cases hremaining
  refine (h w' hw a b v v' hab hv).bind fun w'' p q hw' hpq => ?_
  obtain ⟨a', more⟩ := p
  obtain ⟨b', more'⟩ := q
  obtain ⟨hab', hmore⟩ := hpq
  cases hmore
  cases more with
  | true => exact .pure (mono_fed (mono_counted (mono_counted hQ))) ⟨⟨rfl, rfl, hab'⟩, rfl⟩
  | false => exact .pure (mono_fed (mono_counted (mono_counted hQ))) ⟨⟨rfl, rfl, hab'⟩, rfl⟩

theorem Sinks.number (hQ : Mono Q) (hcalls : Calls S mode n k) {f g : Function H}
    (hf : Functions S w f g) (h : Sinks S mode Q w sink sink') :
    Sinks S mode (Counted Q) w (Sequence.numberStage (S.machine n) f sink)
      (Sequence.numberStage (S.machine k) g sink') := by
  rintro w' hw ⟨index, a⟩ ⟨index', b⟩ v v' ⟨hindex, hab⟩ hv
  cases hindex
  refine (hcalls.apply (hf.mono hw) (.cons (.int index) (.cons hv .nil))).bind
    fun w₁ x x' hw₁ hx => ?_
  refine (h w₁ (hw.trans hw₁) a b x x' (hQ _ _ _ _ hw₁ hab) hx).bind fun w₂ p q hw₂ hpq => ?_
  exact .pure (mono_fed (mono_counted hQ)) ⟨⟨rfl, hpq.1⟩, hpq.2⟩

theorem Sinks.metered (r q : ListRef) (h : Sinks S mode Q w sink sink') :
    Sinks S mode Q w (Sequence.metered r sink) (Sequence.metered q sink') := by
  intro w' hw a b v v' hab hv w'' hw' s t hst
  exact h w' hw a b v v' hab hv w'' hw' _ _ (hst.count r q (fun _ => ⟨rfl, rfl⟩) fun _ => ⟨rfl, rfl⟩)

/-- Traversals of lists that agree into sinks that agree, followed so deep. -/
def Traverses (S : Setting H W) (mode : Mode) (n k depth depth' : Nat) : Prop :=
  ∀ {A B : Type} {Q : World H → A → B → Prop} (_ : Mono Q) {w : World H} {sink : Sink H W A}
    {sink' : Sink H W B} (_ : Sinks S mode Q w sink sink') {r q : ListRef}
    (_ : Values S w (.list r) (.list q)) {a : A} {b : B} (_ : Q w a b),
    Related S mode (Fed Q) w (Sequence.traverseAt (S.machine n) depth r a sink)
      (Sequence.traverseAt (S.machine k) depth' q b sink')

theorem feedEntries_related (hQ : Mono Q) (hsink : Sinks S mode Q w sink sink')
    {es es' : List (String × Value H)} (hes : Fields S w es es') {a : A} {b : B} (hab : Q w a b) :
    Related S mode (Fed Q) w (Sequence.feedEntries sink es a) (Sequence.feedEntries sink' es' b) := by
  obtain ⟨z, rfl, rfl, hz⟩ := hes
  induction z generalizing w a b with
  | nil => exact .pure (mono_fed hQ) ⟨hab, rfl⟩
  | cons p z ih =>
    obtain ⟨key, v, v'⟩ := p
    obtain ⟨hv, hz⟩ := List.forall_mem_cons.1 hz
    have hmap : Related S mode (Values S) w (Sequence.entryMap (.str key) v : Run H W _ _)
        (Sequence.entryMap (.str key) v') :=
      newMap_related fun i j => Fields.map (.cons (.str key) (.cons hv .nil)) i j
    refine hmap.bind fun w₁ u u' hw₁ hu => ?_
    refine (hsink w₁ hw₁ a b u u' (hQ _ _ _ _ hw₁ hab) hu).bind fun w₂ p q hw₂ hpq => ?_
    obtain ⟨a', more⟩ := p
    obtain ⟨b', more'⟩ := q
    obtain ⟨hab', hmore⟩ := hpq
    cases hmore
    have hw := hw₁.trans hw₂
    cases more with
    | true => exact ih (hsink.mono hw) hab' fun p hp => (hz p hp).mono hw
    | false => exact .pure (mono_fed hQ) ⟨hab', rfl⟩

theorem produce_related {depth depth' : Nat} (hcalls : Calls S mode n k)
    (htraverse : Traverses S mode n k depth depth') {source source' : Source H}
    (hsource : Sources S w source source') (hQ : Mono Q) (hsink : Sinks S mode Q w sink sink')
    {a : A} {b : B} (hab : Q w a b) :
    Related S mode (Fed Q) w
      (Sequence.produce (S.machine n) (Sequence.traverseAt (S.machine n) depth) source a sink)
      (Sequence.produce (S.machine k) (Sequence.traverseAt (S.machine k) depth') source' b sink') := by
  have hstart : Remembered S Q w (none, a) (none, b) := ⟨trivial, hab⟩
  cases hsource with
  | @failing vs vs' e e' hvs =>
    have hends : (some e).isSome = (some e').isSome := rfl
    rw [produce_given, produce_given]
    exact sendFrom_related hQ hsink hvs hends hab
  | entries h =>
    cases h with
    | map z hentries _ =>
      refine feedEntries_related hQ hsink ⟨z.entries, ?_, ?_, hentries⟩ hab
      · exact Dict.entries_mapValues Prod.fst z
      · exact Dict.entries_mapValues Prod.snd z
  | accept hr hf => exact htraverse hQ (hsink.accept hQ hcalls hf) hr hab
  | map hr hf => exact htraverse hQ (hsink.map hQ hcalls hf) hr hab
  | combine hr hf =>
    refine (htraverse (mono_remembered hQ) (hsink.combine hQ hcalls hf) hr hstart).bind
      fun w' p q hw hpq => ?_
    exact .pure (mono_fed hQ) ⟨hpq.1.2, hpq.2⟩
  | iir hr hi hf =>
    refine (htraverse (mono_remembered hQ) (hsink.iir hQ hcalls hi hf) hr hstart).bind
      fun w' p q hw hpq => ?_
    exact .pure (mono_fed hQ) ⟨hpq.1.2, hpq.2⟩
  | @top r q count hr =>
    unfold Sequence.produce
    by_cases hcount : count = 0
    · simp only [hcount, if_true]
      exact .pure (mono_fed hQ) ⟨hab, rfl⟩
    · simp only [hcount, if_false]
      refine (htraverse (mono_counted (mono_counted hQ)) (hsink.top hQ) hr
        ⟨rfl, rfl, hab⟩).bind fun w' p q hw hpq => ?_
      obtain ⟨⟨remaining, stopped, a'⟩, complete⟩ := p
      obtain ⟨⟨remaining', stopped', b'⟩, complete'⟩ := q
      obtain ⟨⟨hremaining, hstopped, hab'⟩, hcomplete⟩ := hpq
      cases hstopped
      exact .pure (mono_fed hQ) ⟨hab', rfl⟩
  | number hr hf =>
    refine (htraverse (mono_counted hQ) (hsink.number hQ hcalls hf) hr ⟨rfl, hab⟩).bind
      fun w' p q hw hpq => ?_
    exact .pure (mono_fed hQ) ⟨hpq.1.2, hpq.2⟩

/-- Twins that wait start their sources together. -/
theorem start_related {depth depth' : Nat} (hcalls : Calls S mode n k)
    (htraverse : Traverses S mode n k depth depth') (r q : ListRef) {source source' : Source H}
    (hsource : Sources S w source source') (hQ : Mono Q) (hsink : Sinks S mode Q w sink sink')
    {a : A} {b : B} (hab : Q w a b) :
    Related S mode (Fed Q) w
      (Sequence.start (S.machine n) (Sequence.traverseAt (S.machine n) depth) r source a sink)
      (Sequence.start (S.machine k) (Sequence.traverseAt (S.machine k) depth') q source' b sink') := by
  intro w' hw s t hst
  exact produce_related hcalls htraverse hsource hQ (hsink.metered r q) hab w' hw _ _
    (hst.count r q (fun _ => ⟨rfl, rfl⟩) fun _ => ⟨rfl, rfl⟩)

theorem fillTwins_related {r q : ListRef} (hrq : w.twin r q) {vs vs' : List (Value H)}
    (hvs : vs.Forall₂ (Values S w) vs') :
    Related S mode (fun _ _ _ => True) w (Store.fill r vs : Run H W CollectionError Unit)
      (Store.fill q vs' : Run H W CollectionError Unit) :=
  fun _ hw _ _ hst => .ok trivial (hst.fillTwins (World.le_twin hw hrq) (forall₂_mono hw hvs))

theorem forall₂_reverse {vs vs' : List (Value H)} (h : vs.Forall₂ (Values S w) vs') :
    vs.reverse.Forall₂ (Values S w) vs'.reverse := List.rel_reverse h

/-- The cells of two lists that agree. -/
theorem Agree.cells {r q : ListRef} (h : Values S w (.list r) (.list q)) {s t : Store H W}
    (hst : At S w s t) :
    ∃ c c', s.lists[r.number]? = some c ∧ t.lists[q.number]? = some c' ∧
      ((∃ vs vs', w.left r vs ∧ w.right q vs' ∧ Holds c vs ∧ Holds c' vs' ∧
          vs.Forall₂ (Values S w) vs') ∨
        (w.twin r q ∧ Twins S w c c')) := by
  cases h with
  | list z hleft hright hz =>
    obtain ⟨c, hc, hv⟩ := hst.left r _ hleft
    obtain ⟨c', hc', hv'⟩ := hst.right q _ hright
    exact ⟨c, c', hc, hc', .inl ⟨_, _, hleft, hright, hv, hv', forall₂_iff.2 ⟨z, rfl, rfl, hz⟩⟩⟩
  | twin h =>
    obtain ⟨c, c', hc, hc', hcc⟩ := hst.twins r q h
    exact ⟨c, c', hc, hc', .inr ⟨h, hcc⟩⟩

theorem cell_apply {s : Store H W} {r : ListRef} {c : Cell H} (hc : s.lists[r.number]? = some c) :
    (Store.cell r : Run H W CollectionError (Cell H)) s = .ok c s := by
  simp [Store.cell, hc]

theorem traverseAt_related (hcalls : Calls S mode n k) {depth depth' : Nat}
    (hready : mode.Ready depth depth') : Traverses S mode n k depth depth' := by
  induction depth generalizing depth' with
  | zero =>
    obtain ⟨rfl, -⟩ | ⟨rfl, rfl⟩ | ⟨d, d', hd, -, -⟩ := hready.cases
    · intro A B Q _ w sink sink' _ r q _ a b _
      exact .exhausted_left
    · intro A B Q _ w sink sink' _ r q _ a b _
      exact .exhausted_right
    · cases hd
  | succ depth ih =>
    obtain ⟨-, hd⟩ | ⟨rfl, rfl⟩ | ⟨d, d', hd, rfl, hready⟩ := hready.cases
    · cases hd
    · intro A B Q _ w sink sink' _ r q _ a b _
      exact .exhausted_right
    · cases hd
      intro A B Q hQ w sink sink' hsink r q hrq a b hab w' hw s t hst
      obtain ⟨c, c', hc, hc', hcases⟩ := (hrq.mono hw).cells hst
      replace hsink := hsink.mono hw
      replace hab := hQ _ _ _ _ hw hab
      obtain ⟨vs, vs', hleft, hright, hv, hv', hvs⟩ | ⟨htwin, hcc⟩ := hcases
      · obtain ⟨bump, tick, post, hbump, htick, hpost, hs⟩ :=
          traverseAt_holds (m := S.machine n) hc hv depth a sink
        obtain ⟨bump', tick', post', hbump', htick', hpost', ht⟩ :=
          traverseAt_holds (m := S.machine k) hc' hv' d' b sink'
        rw [hs, ht]
        exact sending_related hQ hsink hleft hright hvs hbump htick hpost hbump' htick' hpost' hab
          w' le_rfl s t hst
      · unfold Sequence.traverseAt
        rw [Run.bind_apply_ok (cell_apply hc), Run.bind_apply_ok (cell_apply hc')]
        cases hcc with
        | full hitems hitems' hvs =>
          rw [hitems, hitems']
          simp only [Sequence.feed_eq]
          exact sendFrom_related hQ hsink hvs rfl hab w' le_rfl s t hst
        | waiting hitems hitems' hsource =>
          rw [hitems, hitems']
          refine ((start_related hcalls (ih hready) r q hsource (mono_recorded hQ)
            (hsink.recording hQ) (a := ([], a)) (b := ([], b)) ⟨.nil, hab⟩).bind
              fun w₁ p p' hw₁ hp => ?_) w' le_rfl s t hst
          obtain ⟨⟨seen, a'⟩, complete⟩ := p
          obtain ⟨⟨seen', b'⟩, complete'⟩ := p'
          obtain ⟨⟨hseen, hab'⟩, hcomplete⟩ := hp
          cases hcomplete
          cases complete with
          | false => exact .pure (mono_fed hQ) ⟨hab', rfl⟩
          | true =>
            refine (fillTwins_related (World.le_twin hw₁ htwin) (forall₂_reverse hseen)).bind
              fun w₂ _ _ hw₂ _ => ?_
            exact .pure (mono_fed hQ) ⟨hQ _ _ _ _ hw₂ hab', rfl⟩

/-- The store after bookkeeping on one list. -/
inductive Kept (r : ListRef) (vs : List (Value H)) : Store H W → Store H W → Prop where
  | refl (s : Store H W) : Kept r vs s s
  | step {x : Run H W CollectionError Unit} {s s' s'' : Store H W} (hx : Keeping r vs x)
      (hs : x s = .ok () s') (h : Kept r vs s' s'') : Kept r vs s s''

theorem Kept.left {r : ListRef} {vs : List (Value H)} {s s' t : Store H W} (h : Kept r vs s s')
    (hr : w.left r vs) (hst : At S w s t) : At S w s' t := by
  induction h with
  | refl => exact hst
  | step hx hs _ ih =>
    obtain ⟨s', hs', hst'⟩ := hx.left hr hst
    rw [hs] at hs'
    cases hs'
    exact ih hst'

theorem Kept.right {q : ListRef} {vs : List (Value H)} {s t t' : Store H W} (h : Kept q vs t t')
    (hq : w.right q vs) (hst : At S w s t) : At S w s t' := by
  induction h with
  | refl => exact hst
  | step hx ht _ ih =>
    obtain ⟨t', ht', hst'⟩ := hx.right hq hst
    rw [ht] at ht'
    cases ht'
    exact ih hst'

theorem kept_trans {r : ListRef} {vs : List (Value H)} {s s' s'' : Store H W} (h : Kept r vs s s')
    (h' : Kept r vs s' s'') : Kept r vs s s'' := by
  induction h with
  | refl => exact h'
  | step hx hs _ ih => exact .step hx hs (ih h')

theorem collect_kept (r : ListRef) (all : List (Value H)) {f : Cell H → Cell H}
    (hf : ∀ c, (f c).source = c.source ∧ (f c).items = c.items) (vs seen : List (Value H))
    (s : Store H W) :
    ∃ s', Meaning.sendFrom none (ticking (Store.modifyCell r f) Sequence.collect) vs seen s =
      .ok (vs.reverse ++ seen, true) s' ∧ Kept r all s s' := by
  induction vs generalizing seen s with
  | nil => exact ⟨s, rfl, .refl s⟩
  | cons v vs ih =>
    obtain ⟨s', hs', hkept⟩ := ih (v :: seen) _
    refine ⟨s', ?_, .step (.count f hf) rfl hkept⟩
    rw [List.reverse_cons, List.append_assoc]
    exact hs'

theorem items_holds {s : Store H W} {r : ListRef} {c : Cell H} {vs : List (Value H)}
    (hc : s.lists[r.number]? = some c) (hv : Holds c vs) :
    ∃ s', Sequence.items m r s = .ok vs s' ∧ Kept r vs s s' := by
  unfold Sequence.items
  rw [Run.bind_apply_ok (cell_apply hc)]
  obtain hitems | ⟨hnone, hfixed⟩ := hv
  · rw [hitems]
    exact ⟨s, rfl, .refl s⟩
  · rw [hnone]
    obtain ⟨s', hs', hkept⟩ := collect_kept r vs (f := fun c => { c with sent := c.sent + 1 })
      (fun _ => ⟨rfl, rfl⟩) vs [] { s with lists := s.lists.modify r.number fun c =>
        { c with runs := c.runs + 1 } }
    have hstart : Sequence.start m (Sequence.traverse m) r c.source [] Sequence.collect s =
        .ok (vs.reverse ++ [], true) s' := by
      simp only [Sequence.start, produce_fixed hfixed]
      exact hs'
    have hall : (vs.reverse ++ []).reverse = vs := by simp
    refine ⟨_, ?_, .step (.count (fun c => { c with runs := c.runs + 1 }) fun _ => ⟨rfl, rfl⟩) rfl
      (kept_trans hkept (.step .fill rfl (.refl _)))⟩
    refine (Run.bind_apply_ok hstart).trans ?_
    simp only [hall]
    rfl

theorem items_related (hcalls : Calls S mode n k) (hready : mode.Ready n k) {r q : ListRef}
    (hrq : Values S w (.list r) (.list q)) :
    Related S mode (fun w vs vs' => vs.Forall₂ (Values S w) vs') w
      (Sequence.items (S.machine n) r) (Sequence.items (S.machine k) q) := by
  intro w' hw s t hst
  obtain ⟨c, c', hc, hc', hcases⟩ := (hrq.mono hw).cells hst
  obtain ⟨vs, vs', hleft, hright, hv, hv', hvs⟩ | ⟨htwin, hcc⟩ := hcases
  · obtain ⟨s', hs', hkept⟩ := items_holds (m := S.machine n) hc hv
    obtain ⟨t', ht', hkept'⟩ := items_holds (m := S.machine k) hc' hv'
    rw [hs', ht']
    exact .ok hvs (hkept'.right hright (hkept.left hleft hst))
  · unfold Sequence.items
    rw [Run.bind_apply_ok (cell_apply hc), Run.bind_apply_ok (cell_apply hc')]
    cases hcc with
    | full hitems hitems' hvs =>
      rw [hitems, hitems']
      exact .ok hvs hst
    | waiting hitems hitems' hsource =>
      rw [hitems, hitems']
      have htraverse : Traverses S mode n k n k := traverseAt_related hcalls hready
      refine ((start_related hcalls htraverse r q hsource mono_forall₂ sinks_collect
        .nil).bind fun w₁ p p' hw₁ hp => ?_) w' le_rfl s t hst
      have hseen := forall₂_reverse hp.1
      refine (fillTwins_related (World.le_twin hw₁ htwin) hseen).bind fun w₂ _ _ hw₂ _ => ?_
      exact .pure mono_forall₂ (forall₂_mono hw₂ hseen)

theorem found_getElem? {vs vs' : List (Value H)} (h : vs.Forall₂ (Values S w) vs') (i : Nat) :
    Found S w vs[i]? vs'[i]? := by
  induction h generalizing i with
  | nil => trivial
  | cons hv _ ih =>
    cases i with
    | zero => exact hv
    | succ i => simpa using ih i

theorem get_related (hcalls : Calls S mode n k) (hready : mode.Ready n k) {r q : ListRef}
    (hrq : Values S w (.list r) (.list q)) (i : Int64) :
    Related S mode (Values S) w (Sequence.get (S.machine n) r i) (Sequence.get (S.machine k) q i) := by
  refine (items_related hcalls hready hrq).bind fun w' vs vs' hw hvs => ?_
  by_cases hi : i < 0
  · simp only [hi, if_true]
    exact .fault _ _
  · simp only [hi, if_false]
    have hfound := found_getElem? hvs i.toInt.toNat
    generalize vs[i.toInt.toNat]? = found, vs'[i.toInt.toNat]? = found' at hfound ⊢
    match found, found', hfound with
    | none, none, _ => exact .fault _ _
    | some v, some v', hv => exact .pure mono_values hv

/-- Texts may differ where they report faults, so nothing is said about them. -/
abbrev Any {α β : Type} (_ : World H) (_ : α) (_ : β) : Prop := True

theorem mono_any {α β : Type} : Mono (Any : World H → α → β → Prop) := fun _ _ _ _ _ _ => trivial

theorem mapM_related {ε δ α β γ κ : Type} {P : World H → α → β → Prop} (hP : Mono P)
    {f : α → Run H W ε γ} {g : β → Run H W δ κ} {xs : List α} {ys : List β}
    (h : xs.Forall₂ (P w) ys)
    (hfg : ∀ w' x y, w ≤ w' → P w' x y → Related S mode Any w' (f x) (g y)) :
    Related S mode Any w (xs.mapM f) (ys.mapM g) := by
  induction xs generalizing w ys with
  | nil =>
    cases h
    exact .pure mono_any trivial
  | cons x xs ih =>
    cases h with
    | @cons _ y _ ys hxy h =>
      rw [List.mapM_cons, List.mapM_cons]
      refine (hfg w x y le_rfl hxy).bind fun w₁ _ _ hw₁ _ => ?_
      have hrest := h.imp fun a b hab => hP _ _ a b hw₁ hab
      refine (ih hrest fun w' x y hw' hxy => hfg w' x y (hw₁.trans hw') hxy).bind
        fun _ _ _ _ _ => ?_
      exact .pure mono_any trivial

theorem textAt_related (hcalls : Calls S mode n k) (hready : mode.Ready n k) {depth depth' : Nat}
    (hdepth : mode.Ready depth depth') {v v' : Value H} (hv : Values S w v v') :
    Related S mode Any w (Value.textAt (S.machine n) depth v)
      (Value.textAt (S.machine k) depth' v') := by
  induction depth generalizing depth' w v v' with
  | zero =>
    cases hv with
    | list | twin | map =>
      obtain ⟨rfl, -⟩ | ⟨rfl, rfl⟩ | ⟨d, d', hd, -, -⟩ := hdepth.cases
      · exact .exhausted_left
      · exact .exhausted_right
      · cases hd
    | _ =>
      simp only [Value.textAt]
      exact .pure mono_any trivial
  | succ depth ih =>
    have hlist {r q : ListRef} (hrq : Values S w (.list r) (.list q)) :
        Related S mode Any w (Value.textAt (S.machine n) (depth + 1) (.list r))
          (Value.textAt (S.machine k) depth' (.list q)) := by
      obtain ⟨-, hd⟩ | ⟨rfl, rfl⟩ | ⟨d, d', hd, rfl, hdepth⟩ := hdepth.cases
      · cases hd
      · exact .exhausted_right
      · cases hd
        simp only [Value.textAt]
        refine (items_related hcalls hready hrq).attempt.bind fun w' a b hw hab => ?_
        match a, b, hab with
        | .ok vs, .ok vs', hvs =>
          refine (mapM_related mono_values hvs fun w'' v v' _ hv => ih hdepth hv).bind
            fun _ _ _ _ _ => ?_
          exact .pure mono_any trivial
        | .error _, .error _, _ => exact .pure mono_any trivial
    cases hv with
    | list z hleft hright hz => exact hlist (.list z hleft hright hz)
    | twin h => exact hlist (.twin h)
    | map z hentries _ =>
      obtain ⟨-, hd⟩ | ⟨rfl, rfl⟩ | ⟨d, d', hd, rfl, hdepth⟩ := hdepth.cases
      · cases hd
      · exact .exhausted_right
      · cases hd
        simp only [Value.textAt, Dict.entries_mapValues]
        have hvalues : (z.entries.mapValues Prod.fst).Forall₂
            (fun p q : String × Value H => Values S w p.2 q.2) (z.entries.mapValues Prod.snd) := by
          simpa [Assoc.mapValues, List.forall₂_map_left_iff, List.forall₂_map_right_iff,
            List.forall₂_same] using fun key v v' hp => hentries (key, v, v') hp
        have hmono : Mono fun w (p q : String × Value H) => Values S w p.2 q.2 :=
          fun _ _ _ _ hw h => h.mono hw
        refine (mapM_related hmono hvalues fun w' p q _ hpq => ?_).bind fun _ _ _ _ _ => ?_
        · exact (ih hdepth hpq).bind fun _ _ _ _ _ => .pure mono_any trivial
        · exact .pure mono_any trivial
    | _ =>
      simp only [Value.textAt]
      exact .pure mono_any trivial

theorem inspect_related (hcalls : Calls S mode n k) (hready : mode.Ready n k) {v v' : Value H}
    (hv : Values S w v v') :
    Related S mode Any w (Value.inspect (S.machine n) v) (Value.inspect (S.machine k) v') := by
  have htext : Related S mode Any w (Value.text (S.machine n) v) (Value.text (S.machine k) v') :=
    textAt_related hcalls hready hready hv
  cases hv with
  | float | str => exact .pure mono_any trivial
  | _ => exact htext

end Agreement

end Formula
