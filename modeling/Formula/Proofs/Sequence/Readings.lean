import Formula.Proofs.Sequence.Courses
import Formula.Proofs.Sequence.Memo
import Mathlib.Data.List.Forall2

/-!
What lists in a store stand for. A reading says which values stand for which data, and gives some
lists a course of data. What a value stands for may depend on the store, so that two lists that were
made of the same items stand for the same, and callbacks may make new lists and maps; only as far
as their results stand for a function of what their arguments stand for are they pure.

A sink implements a consumer if it does with values what the consumer does with what they stand for.
The stages of derived lists turn implementations of one consumer into implementations of another.
-/
namespace Formula

variable {H W D α β γ δ : Type}

theorem ListRef.eq_of_number {r q : ListRef} (h : r.number = q.number) : r = q := by
  cases r
  cases q
  exact congrArg _ h

/-- What values stand for in the stores that come up, and the lists whose course is known. -/
structure Reading (H W D : Type) where
  admits : Store H W → Prop
  lists : ListRef → Option (Source H × Course D)
  stands : Store H W → Value H → D → Prop

namespace Reading

variable (R : Reading H W D)

/-- A list of this course has not been run to its end yet, or holds items that stand for all of
it. -/
def Holds (s : Store H W) (μ : Course D) (c : Cell H) : Prop :=
  c.items = none ∨
    μ.ending = none ∧ ∃ vs, c.items = some vs ∧ vs.Forall₂ (R.stands s) μ.items

/-- Every known list has its source, whether or not it holds its items already. -/
structure Valid (s : Store H W) : Prop where
  admitted : R.admits s
  known : ∀ ref source μ, R.lists ref = some (source, μ) →
    ∃ c, s.lists[ref.number]? = some c ∧ c.source = source ∧ R.Holds s μ c

/-- Values go on standing for what they stood for. -/
structure Later (s s' : Store H W) : Prop where
  valid : R.Valid s'
  reads : ∀ v d, R.stands s v d → R.stands s' v d

/-- Nothing happens to some lists, which are not known. -/
structure Quiet (own : ListRef → Prop) (s s' : Store H W) : Prop extends R.Later s s' where
  own : ∀ ref, own ref → s'.lists[ref.number]? = s.lists[ref.number]?

/-- A known list may be run, and may come to hold its items. -/
def Settles (s : Store H W) (μ : Course D) (c c' : Cell H) : Prop :=
  c'.source = c.source ∧ (c'.items = c.items ∨ c.items = none ∧ R.Holds s μ c')

/-- What values stand for does not depend on whether known lists have been run. -/
structure Lawful (own : ListRef → Prop) : Prop where
  foreign : ∀ ref, own ref → R.lists ref = none
  settle : ∀ {s ref source μ c} {f : Cell H → Cell H}, R.Valid s →
    R.lists ref = some (source, μ) → s.lists[ref.number]? = some c → R.Settles s μ c (f c) →
    R.admits { s with lists := s.lists.modify ref.number f } ∧
      ∀ v d, R.stands s v d → R.stands { s with lists := s.lists.modify ref.number f } v d

variable {R} {own : ListRef → Prop} {s s' s'' : Store H W} {μ : Course D}

theorem Later.refl (h : R.Valid s) : R.Later s s := ⟨h, fun _ _ hv => hv⟩

theorem Later.trans (h : R.Later s s') (h' : R.Later s' s'') : R.Later s s'' :=
  ⟨h'.valid, fun v d hv => h'.reads v d (h.reads v d hv)⟩

theorem Later.reads_all (h : R.Later s s') {vs : List (Value H)} {ds : List D}
    (hvs : vs.Forall₂ (R.stands s) ds) : vs.Forall₂ (R.stands s') ds :=
  hvs.imp fun v d => h.reads v d

theorem Quiet.refl (h : R.Valid s) : R.Quiet own s s := ⟨.refl h, fun _ _ => rfl⟩

theorem Quiet.trans (h : R.Quiet own s s') (h' : R.Quiet own s' s'') : R.Quiet own s s'' :=
  ⟨h.toLater.trans h'.toLater, fun ref hown => (h'.own ref hown).trans (h.own ref hown)⟩

theorem Holds.later {c : Cell H} (h : R.Holds s μ c)
    (hreads : ∀ v d, R.stands s v d → R.stands s' v d) : R.Holds s' μ c := by
  obtain hnone | ⟨hending, vs, hvs, hstands⟩ := h
  · exact .inl hnone
  · exact .inr ⟨hending, vs, hvs, hstands.imp fun v d => hreads v d⟩

/-- Running a known list is quiet. -/
theorem Lawful.quiet (hR : R.Lawful own) (hs : R.Valid s) {ref : ListRef} {source : Source H}
    (hknown : R.lists ref = some (source, μ)) {c : Cell H} {f : Cell H → Cell H}
    (hc : s.lists[ref.number]? = some c) (hf : R.Settles s μ c (f c)) :
    R.Quiet own s { s with lists := s.lists.modify ref.number f } := by
  obtain ⟨hadmits, hreads⟩ := hR.settle hs hknown hc hf
  refine ⟨⟨⟨hadmits, fun ref' source' μ' hknown' => ?_⟩, hreads⟩, fun ref' hown => ?_⟩
  · obtain ⟨c', hc', hsource', hholds'⟩ := hs.known ref' source' μ' hknown'
    by_cases hr : ref.number = ref'.number
    · obtain rfl := ListRef.eq_of_number hr
      rw [hknown] at hknown'
      cases hknown'
      rw [hc] at hc'
      cases hc'
      refine ⟨f c, getElem?_modify_self hc, hf.1.trans hsource', ?_⟩
      obtain hsame | ⟨-, hfull⟩ := hf.2
      · refine Holds.later ?_ hreads
        rw [Holds, hsame]
        exact hholds'
      · exact hfull.later hreads
    · exact ⟨c', by rw [getElem?_modify_other hr]; exact hc', hsource', hholds'.later hreads⟩
  · refine getElem?_modify_other fun hr => ?_
    obtain rfl := ListRef.eq_of_number hr
    cases hknown.symm.trans (hR.foreign ref hown)

/-- A computation has ended in a value or a fault, as the data say, in a store like this. -/
def Gives (after : Store H W → Prop) (rel : Store H W → α → β → Prop) :
    EStateM.Result (Stop CollectionError) (Store H W) α → Except CollectionError β → Prop
  | .ok a s, .ok b => after s ∧ rel s a b
  | .error (.fault e) s, .error e' => e = e' ∧ after s
  | _, _ => False

variable {after after' : Store H W → Prop} {rel : Store H W → α → β → Prop}
  {rel' : Store H W → γ → δ → Prop}

theorem Gives.pure {a : α} {b : β} (hs : after s) (h : rel s a b) :
    Gives after rel ((pure a : Run H W CollectionError α) s) (.ok b) := ⟨hs, h⟩

theorem Gives.fault {e : CollectionError} (hs : after s) :
    Gives after rel ((Run.fault e : Run H W CollectionError α) s) (.error e) := ⟨rfl, hs⟩

/-- There are two ways to end. -/
theorem Gives.ends {r : EStateM.Result (Stop CollectionError) (Store H W) α}
    {q : Except CollectionError β} (h : Gives after rel r q) :
    (∃ a b s, r = .ok a s ∧ q = .ok b ∧ after s ∧ rel s a b) ∨
      ∃ e s, r = .error (.fault e) s ∧ q = .error e ∧ after s := by
  match r, q, h with
  | .ok a s, .ok b, ⟨hs, hrel⟩ => exact .inl ⟨a, b, s, rfl, rfl, hs, hrel⟩
  | .error (.fault e) s, .error _, ⟨rfl, hs⟩ => exact .inr ⟨e, s, rfl, rfl, hs⟩

theorem Gives.bind {x : Run H W CollectionError α} {f : α → Run H W CollectionError γ}
    {r : Except CollectionError β} {g : β → Except CollectionError δ}
    (hx : Gives after rel (x s) r) (hmono : ∀ s, after s → after' s)
    (hf : ∀ a b s', r = .ok b → after s' → rel s' a b → Gives after' rel' (f a s') (g b)) :
    Gives after' rel' ((x >>= f) s) (r >>= g) := by
  obtain ⟨a, b, s', hs, rfl, h, hrel⟩ | ⟨e, s', hs, rfl, h⟩ := hx.ends
  · rw [Run.bind_apply_ok hs]
    exact hf a b s' rfl h hrel
  · rw [Run.bind_apply_error hs]
    exact ⟨rfl, hmono s' h⟩

theorem Gives.imp {rel' : Store H W → α → β → Prop}
    {r : EStateM.Result (Stop CollectionError) (Store H W) α} {q : Except CollectionError β}
    (h : Gives after rel r q) (hmono : ∀ s, after s → after' s)
    (hrel : ∀ a b s, q = .ok b → after s → rel s a b → rel' s a b) : Gives after' rel' r q := by
  obtain ⟨a, b, s, rfl, rfl, hs, h⟩ | ⟨e, s, rfl, rfl, hs⟩ := h.ends
  · exact ⟨hmono s hs, hrel a b s rfl hs h⟩
  · exact ⟨rfl, hmono s hs⟩

theorem Gives.mono {r : EStateM.Result (Stop CollectionError) (Store H W) α}
    {q : Except CollectionError β} (h : Gives after rel r q) (hmono : ∀ s, after s → after' s) :
    Gives after' rel r q :=
  h.imp hmono fun _ _ _ _ _ hrel => hrel

theorem Gives.of_ok {r : EStateM.Result (Stop CollectionError) (Store H W) α} {b : β}
    (h : Gives after rel r (.ok b)) : ∃ a s, r = .ok a s ∧ after s ∧ rel s a b := by
  obtain ⟨a, _, s, hr, hb, h⟩ | ⟨_, _, _, hb, _⟩ := h.ends
  · cases hb
    exact ⟨a, s, hr, h⟩
  · cases hb

theorem Gives.of_error {r : EStateM.Result (Stop CollectionError) (Store H W) α}
    {e : CollectionError} (h : Gives after rel r (.error e : Except CollectionError β)) :
    ∃ s, r = .error (.fault e) s ∧ after s := by
  obtain ⟨_, _, _, _, he, _⟩ | ⟨_, s, hr, he, hs⟩ := h.ends
  · cases he
  · cases he
    exact ⟨s, hr, hs⟩

section

variable (m : Machine H W) (R : Reading H W D) (own : ListRef → Prop) (f : Function H)

/-- The callback is this function of what its argument stands for. -/
def Pure (g : D → Except CollectionError D) : Prop :=
  ∀ s v d, R.Valid s → R.stands s v d → Gives (R.Quiet own s) R.stands (m.apply f [v] s) (g d)

/-- The callback is this function of what its two arguments stand for. -/
def PurePair (g : D → D → Except CollectionError D) : Prop :=
  ∀ s v w d e, R.Valid s → R.stands s v d → R.stands s w e →
    Gives (R.Quiet own s) R.stands (m.apply f [v, w] s) (g d e)

/-- The callback is this function of an index and what the item stands for. -/
def PureIndexed (g : Int64 → D → Except CollectionError D) : Prop :=
  ∀ s i v d, R.Valid s → R.stands s v d →
    Gives (R.Quiet own s) R.stands (m.apply f [.int i, v] s) (g i d)

/-- The callback returns this verdict on what its argument stands for, or something that is no
bool. -/
def Judges (p : D → Except CollectionError (Option Bool)) : Prop :=
  ∀ s v d, R.Valid s → R.stands s v d →
    Gives (R.Quiet own s) (fun _ w b => w.bool? = b) (m.apply f [v] s) (p d)

end

/-- Both in the same state, and asking for more or not. -/
def Both {S A : Type} (Rel : Store H W → S → A → Prop) (s : Store H W) (p : S × Bool)
    (q : A × Bool) : Prop := Rel s p.1 q.1 ∧ p.2 = q.2

/-- The sink does with values what the consumer does with what they stand for. Steps `Q` of others
leave its state alone, and its own steps are steps `T`. -/
structure Implements (R : Reading H W D) (Q T : Store H W → Store H W → Prop) {S A : Type}
    (Rel : Store H W → S → A → Prop) (sink : Sink H W S) (step : Consumer D A) : Prop where
  stable : ∀ {s s' z a}, Q s s' → Rel s z a → Rel s' z a
  runs : ∀ {s z a v d}, R.Valid s → Rel s z a → R.stands s v d →
    Gives (T s) (Both Rel) (sink z v s) (step a d)

/-- What callbacks do leaves sinks alone and may be part of their steps. -/
structure Fits (R : Reading H W D) (own : ListRef → Prop) (Q T : Store H W → Store H W → Prop) :
    Prop where
  other : ∀ {s s'}, R.Quiet own s s' → Q s s'
  part : ∀ {s s'}, R.Quiet own s s' → T s s'
  trans : ∀ {s s' s''}, T s s' → T s' s'' → T s s''
  later : ∀ {s s'}, Q s s' → R.Later s s'
  reads : ∀ {s s'}, T s s' → R.Later s s'

section

variable {Q T : Store H W → Store H W → Prop} {S A : Type}
  {Rel : Store H W → S → A → Prop} {sink : Sink H W S} {step : Consumer D A}
  {m : Machine H W} {f initial : Function H}

/-- A callback before a step of the sink. -/
theorem Implements.behind (h : Implements R Q T Rel sink step) (hfit : Fits R own Q T) {v : Value H}
    {d : D} {z : S} {a : A} (hq : R.Quiet own s s') (hrel : Rel s z a) (hv : R.stands s' v d) :
    Gives (T s) (Both Rel) (sink z v s') (step a d) :=
  (h.runs hq.valid (h.stable (hfit.other hq) hrel) hv).mono fun _ => hfit.trans (hfit.part hq)

theorem Implements.map (h : Implements R Q T Rel sink step) (hfit : Fits R own Q T)
    {g : D → Except CollectionError D} (hf : Pure m R own f g) :
    Implements R Q T Rel (Sequence.mapStage m f sink) (Course.mapStep g step) := by
  refine ⟨h.stable, fun hs hrel hv => ?_⟩
  refine (hf _ _ _ hs hv).bind (fun _ => hfit.part) fun w e s' _ hq hw => ?_
  exact h.behind hfit hq hrel hw

theorem Implements.accept (h : Implements R Q T Rel sink step) (hfit : Fits R own Q T)
    {p : D → Except CollectionError (Option Bool)} (hf : Judges m R own f p) :
    Implements R Q T Rel (Sequence.acceptStage m f sink) (Course.acceptStep p step) := by
  refine ⟨h.stable, fun {s z a v d} hs hrel hv => ?_⟩
  refine (hf _ _ _ hs hv).bind (fun _ => hfit.part) fun w b s' _ hq hw => ?_
  subst hw
  match w with
  | .bool true => exact h.behind hfit hq hrel (hq.reads v d hv)
  | .bool false => exact .pure (hfit.part hq) ⟨h.stable (hfit.other hq) hrel, rfl⟩
  | .int _ | .float _ | .str _ | .list _ | .map _ _ | .closure _ => exact .fault (hfit.part hq)

/-- The remembered value stands for the remembered datum. -/
def Remembers (R : Reading H W D) (Rel : Store H W → S → A → Prop) (s : Store H W)
    (p : Option (Value H) × S) (q : Option D × A) : Prop :=
  Option.Rel (R.stands s) p.1 q.1 ∧ Rel s p.2 q.2

theorem Remembers.stable (h : Implements R Q T Rel sink step) (hfit : Fits R own Q T)
    {p : Option (Value H) × S} {q : Option D × A} (hq : Q s s') (hr : Remembers R Rel s p q) :
    Remembers R Rel s' p q := by
  obtain ⟨last, z⟩ := p
  obtain ⟨last', a⟩ := q
  obtain ⟨hlast, hrel⟩ := hr
  refine ⟨?_, h.stable hq hrel⟩
  cases hlast with
  | some hv => exact .some ((hfit.later hq).reads _ _ hv)
  | none => exact .none

theorem Implements.combine (h : Implements R Q T Rel sink step) (hfit : Fits R own Q T)
    {g : D → D → Except CollectionError D} (hf : PurePair m R own f g) :
    Implements R Q T (Remembers R Rel) (Sequence.combineStage m f sink)
      (Course.combineStep g step) := by
  refine ⟨fun hq => Remembers.stable h hfit hq, fun {s z a v d} hs hr hv => ?_⟩
  obtain ⟨last, z⟩ := z
  obtain ⟨last', a⟩ := a
  obtain ⟨hlast, hrel⟩ := hr
  cases hlast with
  | none => exact .pure (hfit.part (.refl hs)) ⟨⟨.some hv, hrel⟩, rfl⟩
  | some hp =>
    refine (hf _ _ _ _ _ hs hp hv).bind (fun _ => hfit.part) fun w e s' _ hq hw => ?_
    refine (h.behind hfit hq hrel hw).bind (fun _ ht => ht) fun x y s'' _ ht hxy => ?_
    exact .pure ht ⟨⟨.some ((hfit.reads ht).reads v d hv), hxy.1⟩, hxy.2⟩

theorem Implements.iir (h : Implements R Q T Rel sink step) (hfit : Fits R own Q T)
    {i : D → Except CollectionError D} {g : D → D → Except CollectionError D}
    (hi : Pure m R own initial i) (hf : PurePair m R own f g) :
    Implements R Q T (Remembers R Rel) (Sequence.iirStage m initial f sink)
      (Course.iirStep i g step) := by
  refine ⟨fun hq => Remembers.stable h hfit hq, fun {s z a v d} hs hr hv => ?_⟩
  obtain ⟨last, z⟩ := z
  obtain ⟨last', a⟩ := a
  obtain ⟨hlast, hrel⟩ := hr
  -- with the first item and with all others, what is sent is remembered afterwards
  have hrest {w : Value H} {e : D} {s' : Store H W} (hq : R.Quiet own s s') (hw : R.stands s' w e) :
      Gives (T s) (Both (Remembers R Rel))
        ((do
          let r ← sink z w
          pure ((some w, r.1), r.2) : Run H W CollectionError ((Option (Value H) × S) × Bool)) s')
        (do
          let r ← step a e
          .ok ((some e, r.1), r.2)) := by
    have hstep := h.runs hq.valid (h.stable (hfit.other hq) hrel) hw
    refine hstep.bind (fun _ => hfit.trans (hfit.part hq)) fun x y s'' _ ht hxy => ?_
    have hw' := (hfit.reads ht).reads w e hw
    exact .pure (hfit.trans (hfit.part hq) ht) ⟨⟨.some hw', hxy.1⟩, hxy.2⟩
  cases hlast with
  | none =>
    exact (hi _ _ _ hs hv).bind (fun _ => hfit.part) fun w e s' _ hq hw => hrest hq hw
  | some hp =>
    exact (hf _ _ _ _ _ hs hv hp).bind (fun _ => hfit.part) fun w e s' _ hq hw => hrest hq hw

theorem Implements.number (h : Implements R Q T Rel sink step) (hfit : Fits R own Q T)
    {g : Int64 → D → Except CollectionError D} (hf : PureIndexed m R own f g) :
    Implements R Q T (fun s (p : Int64 × S) (q : Int64 × A) => p.1 = q.1 ∧ Rel s p.2 q.2)
      (Sequence.numberStage m f sink) (Course.numberStep g step) := by
  refine ⟨fun hq hr => ⟨hr.1, h.stable hq hr.2⟩, fun {s z a v d} hs hr hv => ?_⟩
  obtain ⟨index, z⟩ := z
  obtain ⟨index', a⟩ := a
  obtain ⟨rfl, hrel⟩ := hr
  refine (hf _ _ _ _ hs hv).bind (fun _ => hfit.part) fun w e s' _ hq hw => ?_
  refine (h.behind hfit hq hrel hw).bind (fun _ ht => ht) fun x y s'' _ ht hxy => ?_
  exact .pure ht ⟨⟨rfl, hxy.1⟩, hxy.2⟩

theorem Implements.top (h : Implements R Q T Rel sink step) :
    Implements R Q T (fun s (p : Nat × Bool × S) (q : Nat × Bool × A) =>
        p.1 = q.1 ∧ p.2.1 = q.2.1 ∧ Rel s p.2.2 q.2.2)
      (Sequence.topStage sink) (Course.topStep step) := by
  refine ⟨fun hq hr => ⟨hr.1, hr.2.1, h.stable hq hr.2.2⟩, fun {s z a v d} hs hr hv => ?_⟩
  obtain ⟨remaining, stopped, z⟩ := z
  obtain ⟨remaining', stopped', a⟩ := a
  obtain ⟨rfl, rfl, hrel⟩ := hr
  refine (h.runs hs hrel hv).bind (fun _ ht => ht) fun x y s' _ ht hxy => ?_
  obtain ⟨z', more⟩ := x
  obtain ⟨a', more'⟩ := y
  obtain ⟨hrel', rfl⟩ := hxy
  cases more with
  | true => exact .pure ht ⟨⟨rfl, rfl, hrel'⟩, rfl⟩
  | false => exact .pure ht ⟨⟨rfl, rfl, hrel'⟩, rfl⟩

/-- The store when the number of items that a list has sent is one higher. -/
def counted (ref : ListRef) (s : Store H W) : Store H W :=
  { s with lists := s.lists.modify ref.number fun c => { c with sent := c.sent + 1 } }

theorem Implements.metered {Q' T' : Store H W → Store H W → Prop}
    (h : Implements R Q T Rel sink step) (hfit : Fits R own Q' T') {ref : ListRef}
    (hQ : ∀ {s s'}, Q' s s' → Q s s') (hT : ∀ {s s'}, T s s' → T' s s')
    (hcount : ∀ {s}, R.Valid s → Q s (counted ref s) ∧ T' s (counted ref s)) :
    Implements R Q' T' Rel (Sequence.metered ref sink) step := by
  refine ⟨fun hq => h.stable (hQ hq), fun {s z a v d} hs hrel hv => ?_⟩
  obtain ⟨hq, ht⟩ := hcount hs
  have hlater := hfit.reads ht
  exact (h.runs hlater.valid (h.stable hq hrel) (hlater.reads v d hv)).mono fun _ ht' =>
    hfit.trans ht (hT ht')

/-- The recorded values stand for the recorded data. -/
def Records (R : Reading H W D) (Rel : Store H W → S → A → Prop) (s : Store H W)
    (p : List (Value H) × S) (q : List D × A) : Prop :=
  p.1.Forall₂ (R.stands s) q.1 ∧ Rel s p.2 q.2

theorem Implements.recording (h : Implements R Q T Rel sink step) (hfit : Fits R own Q T) :
    Implements R Q T (Records R Rel) (Sequence.recording sink) (Course.recordStep step) := by
  refine ⟨fun hq hr => ⟨(hfit.later hq).reads_all hr.1, h.stable hq hr.2⟩,
    fun {s z a v d} hs hr hv => ?_⟩
  obtain ⟨seen, z⟩ := z
  obtain ⟨seen', a⟩ := a
  refine (h.runs hs hr.2 hv).bind (fun _ ht => ht) fun x y s' _ ht hxy => ?_
  have hseen := (hfit.reads ht).reads_all (.cons hv hr.1)
  exact .pure ht ⟨⟨hseen, hxy.1⟩, hxy.2⟩

theorem implements_collect (hfit : Fits R own Q T) :
    Implements R Q T (fun s vs ds => vs.Forall₂ (R.stands s) ds) Sequence.collect
      Course.collectStep :=
  ⟨fun hq hr => (hfit.later hq).reads_all hr,
    fun hs hr hv => .pure (hfit.part (.refl hs)) ⟨.cons hv hr, rfl⟩⟩

end

/-- Data that are values of a certain form. -/
def embedded (lists : ListRef → Option (Source H × Course D)) (embed : D → Value H) :
    Reading H W D where
  admits _ := True
  lists := lists
  stands _ v d := v = embed d

section

variable {lists : ListRef → Option (Source H × Course D)} {embed : D → Value H}
  {m : Machine H W} {f : Function H}

theorem embedded_lawful (hown : ∀ ref, own ref → lists ref = none) :
    (embedded lists embed : Reading H W D).Lawful own :=
  ⟨hown, fun _ _ _ _ => ⟨trivial, fun _ _ hv => hv⟩⟩

theorem eq_map_of_embedded {vs : List (Value H)} {ds : List D}
    (h : vs.Forall₂ ((embedded lists embed).stands s) ds) : vs = ds.map embed := by
  induction h with
  | nil => rfl
  | cons hv _ ih => exact congrArg₂ List.cons hv ih

theorem gives_embedded (hs : (embedded lists embed).Valid s) (r : Except CollectionError D) :
    Gives ((embedded lists embed).Quiet own s) (embedded lists embed).stands
      ((Run.ofExcept (embed <$> r) : Run H W CollectionError (Value H)) s) r := by
  cases r with
  | ok d => exact .pure (.refl hs) rfl
  | error e => exact .fault (.refl hs)

theorem embedded_pure {g : D → Except CollectionError D}
    (h : ∀ s d, m.apply f [embed d] s = Run.ofExcept (embed <$> g d) s) :
    Pure m (embedded lists embed) own f g := by
  rintro s _ d hs rfl
  rw [h]
  exact gives_embedded hs (g d)

theorem embedded_purePair {g : D → D → Except CollectionError D}
    (h : ∀ s d e, m.apply f [embed d, embed e] s = Run.ofExcept (embed <$> g d e) s) :
    PurePair m (embedded lists embed) own f g := by
  rintro s _ _ d e hs rfl rfl
  rw [h]
  exact gives_embedded hs (g d e)

theorem embedded_pureIndexed {g : Int64 → D → Except CollectionError D}
    (h : ∀ s i d, m.apply f [.int i, embed d] s = Run.ofExcept (embed <$> g i d) s) :
    PureIndexed m (embedded lists embed) own f g := by
  rintro s i _ d hs rfl
  rw [h]
  exact gives_embedded hs (g i d)

theorem embedded_judges {p : D → Bool}
    (h : ∀ s d, m.apply f [embed d] s = .ok (.bool (p d)) s) :
    Judges m (embedded lists embed) own f fun d => .ok (some (p d)) := by
  rintro s _ d hs rfl
  rw [h]
  exact ⟨.refl hs, rfl⟩

end

end Reading

end Formula
