import Formula.Proofs.Sequence.Meaning
import Formula.Sequence.Ops

/-!
Running a list cannot be told from going through its meaning. The only state that the runs of a
list share is its cache; it is filled at the end of a complete traversal and at no other time,
by this traversal or by one inside of it, and always with the same items.
-/
namespace Formula

variable {H W S : Type} {V : Catalog H} {m : Machine H W}

namespace Meaning

/-- The end of a complete traversal, from which on the list holds its items. -/
def finish (μ : Meaning H) (ref : ListRef) : Run H W CollectionError Unit :=
  match μ.ending with
  | none => Store.fill ref μ.items
  | some e => Run.fault e

/-- Traverses the sequence that a list means. -/
def traverse (μ : Meaning H) (ref : ListRef) (s : S) (sink : Sink H W S) :
    Run H W CollectionError (S × Bool) := do
  let (s, complete) ← μ.send sink s
  if complete then Store.fill ref μ.items
  pure (s, complete)

/-- All items of the sequence. -/
def all (μ : Meaning H) (ref : ListRef) : Run H W CollectionError (List (Value H)) := do
  μ.finish ref
  pure μ.items

theorem sendFrom_complete {ending : Option CollectionError} {sink : Sink H W S}
    {items : List (Value H)} {s s' : S} {u u' : Store H W}
    (h : sendFrom ending sink items s u = .ok (s', true) u') : ending = none := by
  induction items generalizing s u with
  | nil =>
    cases ending with
    | none => rfl
    | some e => cases h
  | cons v rest ih =>
    obtain ⟨⟨s₁, more⟩, u₁, -, h⟩ := Run.bind_eq_ok.1 h
    cases more with
    | true => exact ih h
    | false => cases h

/-- Beside another sink, a complete run records all items. -/
theorem sendFrom_recording (ending : Option CollectionError) (sink : Sink H W S)
    (items seen : List (Value H)) (s : S) (u : Store H W) :
    match sendFrom ending sink items s u with
    | .ok (s', complete) u' => ∃ seen', (complete = true → seen' = items.reverse ++ seen) ∧
        sendFrom ending (Sequence.recording sink) items (seen, s) u =
          .ok ((seen', s'), complete) u'
    | .error e u' => sendFrom ending (Sequence.recording sink) items (seen, s) u = .error e u' := by
  induction items generalizing seen s u with
  | nil =>
    cases ending with
    | none => exact ⟨seen, fun _ => rfl, rfl⟩
    | some e => rfl
  | cons v rest ih =>
    cases hv : sink s v u with
    | error e u' =>
      have h₁ : sendFrom ending sink (v :: rest) s u = .error e u' := Run.bind_apply_error hv
      have h₂ : Sequence.recording sink (seen, s) v u = .error e u' := Run.bind_apply_error hv
      rw [h₁]
      exact Run.bind_apply_error h₂
    | ok p u' =>
      obtain ⟨s', more⟩ := p
      have h₁ : sendFrom ending sink (v :: rest) s u =
          (if more then sendFrom ending sink rest s' else pure (s', false)) u' :=
        Run.bind_apply_ok hv
      have h₂ : Sequence.recording sink (seen, s) v u = .ok ((v :: seen, s'), more) u' :=
        Run.bind_apply_ok hv
      have h₃ : sendFrom ending (Sequence.recording sink) (v :: rest) (seen, s) u =
          (if more then sendFrom ending (Sequence.recording sink) rest (v :: seen, s')
            else pure ((v :: seen, s'), false)) u' := Run.bind_apply_ok h₂
      rw [h₁, h₃]
      cases more with
      | false => exact ⟨v :: seen, fun h => (by cases h), rfl⟩
      | true => simpa using ih (v :: seen) s' u'

theorem sendFrom_collect (ending : Option CollectionError) (items seen : List (Value H)) :
    sendFrom ending (Sequence.collect : Sink H W _) items seen =
      match ending with
      | none => pure (items.reverse ++ seen, true)
      | some e => Run.fault e := by
  induction items generalizing seen with
  | nil => cases ending <;> rfl
  | cons v rest ih =>
    have hstep : sendFrom ending (Sequence.collect : Sink H W _) (v :: rest) seen =
        sendFrom ending Sequence.collect rest (v :: seen) := rfl
    rw [hstep, ih]
    simp

theorem send_collect_ok {μ : Meaning H} {p : List (Value H) × Bool} {u u' : Store H W}
    (h : μ.send Sequence.collect [] u = .ok p u') :
    μ.ending = none ∧ p = (μ.items.reverse, true) := by
  rw [send, sendFrom_collect] at h
  cases hending : μ.ending with
  | none =>
    rw [hending, List.append_nil] at h
    cases h
    exact ⟨rfl, rfl⟩
  | some e =>
    rw [hending] at h
    cases h

/-- All items are what a run into a list collects. -/
theorem all_eq (μ : Meaning H) (ref : ListRef) :
    μ.all ref = (do
      let (seen, _) ← μ.send Sequence.collect []
      Store.fill ref seen.reverse
      pure seen.reverse : Run H W CollectionError (List (Value H))) := by
  rw [send, sendFrom_collect, all, finish]
  cases μ.ending with
  | none => simp
  | some e => rfl

end Meaning

theorem Sequence.feed_eq (sink : Sink H W S) (items : List (Value H)) (s : S) :
    feed sink items s = Meaning.sendFrom none sink items s := by
  induction items generalizing s with
  | nil => rfl
  | cons v rest ih => simp only [feed, Meaning.sendFrom, ih]

theorem sendFrom_ending (ending : Option CollectionError) (sink : Sink H W S)
    (items : List (Value H)) (s : S) :
    (do
      let (s, complete) ← Meaning.sendFrom none sink items s
      match complete, ending with
      | true, some e => Run.fault e
      | _, _ => pure (s, complete) : Run H W CollectionError (S × Bool)) =
      Meaning.sendFrom ending sink items s := by
  induction items generalizing s with
  | nil => cases ending <;> rfl
  | cons v rest ih =>
    simp only [Meaning.sendFrom, bind_assoc]
    congr 1
    funext p
    obtain ⟨s', more⟩ := p
    cases more with
    | true => exact ih s'
    | false => rfl

/-- Consecutive integers. -/
def rangeItems : Nat → Int64 → List (Value H)
  | 0, _ => []
  | count + 1, next => .int next :: rangeItems count (next + 1)

theorem feedRange_eq (sink : Sink H W S) (count : Nat) (next : Int64) (s : S) :
    Sequence.feedRange sink count next s = Meaning.sendFrom none sink (rangeItems count next) s := by
  induction count generalizing next s with
  | zero => rfl
  | succ count ih => simp only [Sequence.feedRange, rangeItems, Meaning.sendFrom, ih]

/-- Sources of given items send them. -/
theorem produce_given (m : Machine H W) (traverse : Traversal H W) (items : List (Value H))
    (ending : Option CollectionError) (s : S) (sink : Sink H W S) :
    Sequence.produce m traverse (.given items ending) s sink =
      Meaning.sendFrom ending sink items s := by
  rw [← sendFrom_ending, ← Sequence.feed_eq]
  rfl

theorem produce_range (m : Machine H W) (traverse : Traversal H W) (bound : Int64) (s : S)
    (sink : Sink H W S) :
    Sequence.produce m traverse (.range bound) s sink =
      Meaning.sendFrom none sink (rangeItems bound.toInt.toNat 0) s :=
  feedRange_eq sink _ _ s

theorem agree_fill {ref : ListRef} {source : Source H} {μ : Meaning H} {c c' : Cell H}
    (hending : μ.ending = none) (h : V.Agree ref source μ c c') :
    V.Agree ref source μ { c with items := some (c.items.getD μ.items) }
      { c' with items := some (c'.items.getD μ.items) } := by
  have hfull : ∀ {a : Cell H}, μ.Holds a → a.items.getD μ.items = μ.items := by
    rintro a (ha | ⟨-, ha⟩)
    · rw [ha]; rfl
    · rw [ha]; rfl
  refine ⟨h.left, h.right, ?_, ?_, fun _ => ?_⟩
  · exact .inr ⟨hending, congrArg some (hfull h.holds)⟩
  · exact .inr ⟨hending, congrArg some (hfull h.holds')⟩
  · exact congrArg some ((hfull h.holds').trans (hfull h.holds).symm)

theorem fill_keeps {c : Cell H} {items : List (Value H)} (h : c.items.isSome = true) :
    ({ c with items := some (c.items.getD items) } : Cell H).items = c.items ∧
      ({ c with items := some (c.items.getD items) } : Cell H).runs = c.runs := by
  obtain ⟨old, hold⟩ := Option.isSome_iff_exists.1 h
  exact ⟨by simp [hold], rfl⟩

theorem fill_same {ref : ListRef} {source : Source H} {μ : Meaning H}
    (hV : V.lists ref = some (source, μ)) (hending : μ.ending = none) :
    Same V (Store.fill ref μ.items : Run H W CollectionError Unit) (Store.fill ref μ.items) := by
  intro s₀ t₀ s t h
  refine ⟨rfl, h.modifyCell hV (fun c c' _ _ hcc => agree_fill hending hcc) ?_ ?_⟩
  · exact fun c _ hsome => fill_keeps hsome
  · exact fun c _ hsome => fill_keeps hsome

/-- Where the first list holds its items, the second one may come to hold them. -/
theorem Linked.fillRight {s₀ t₀ s t : Store H W} (h : Linked V s₀ t₀ s t) {ref : ListRef}
    {source : Source H} {μ : Meaning H} (hV : V.lists ref = some (source, μ))
    (hending : μ.ending = none)
    (hfull : ∀ c, s.lists[ref.number]? = some c → c.items = some μ.items) :
    Linked V s₀ t₀ s { t with lists := t.lists.modify ref.number fun c =>
      { c with items := some (c.items.getD μ.items) } } := by
  have hid : { s with lists := s.lists.modify ref.number id } = s := by rw [modify_eq_self]
  rw [← hid]
  refine h.modifyCell hV (fun c c' hc _ hcc => ?_) (fun _ _ _ => ⟨rfl, rfl⟩)
    (fun c _ hsome => fill_keeps hsome)
  have hfilled := agree_fill hending hcc
  refine ⟨hcc.left, hcc.right, hcc.holds, hfilled.holds', fun hw => ?_⟩
  have hitems := hfilled.watched hw
  rw [hfull c hc] at hitems
  exact hitems.trans (hfull c hc).symm

theorem metered_same {ref : ListRef} {source : Source H} {μ : Meaning H}
    (hV : V.lists ref = some (source, μ)) {sink sink' : Sink H W S}
    (h : ∀ s v, Same V (sink s v) (sink' s v)) (s : S) (v : Value H) :
    Same V (Sequence.metered ref sink s v) (sink' s v) := by
  intro s₀ t₀
  refine Run.Relates.left (a := ()) (fun s t hst => ?_) (h s v s₀ t₀)
  refine ⟨_, rfl, hst.countLeft hV ?_ ?_ ?_⟩
  · exact fun _ => rfl
  · exact fun _ => rfl
  · exact fun _ _ _ => rfl

theorem recording_same {sink sink' : Sink H W S} (h : ∀ s v, Same V (sink s v) (sink' s v))
    (s : List (Value H) × S) (v : Value H) :
    Same V (Sequence.recording sink s v) (Sequence.recording sink' s v) :=
  (h s.2 v).bind fun _ => .pure _

/-- Starting the source of a list that holds no items yet. -/
theorem start_same {depth : Nat} {ref : ListRef} {source : Source H} {μ : Meaning H}
    (hV : V.lists ref = some (source, μ)) (hsends : Sends m V depth source μ)
    {sink sink' : Sink H W S} (h : ∀ s v, Same V (sink s v) (sink' s v)) (z : S)
    {s₀ t₀ s t : Store H W} (hst : Linked V s₀ t₀ s t)
    (hempty : ∀ c, s.lists[ref.number]? = some c → c.items = none) :
    Run.Matches (Linked V s₀ t₀)
      (Sequence.start m (Sequence.traverseAt m depth) ref source z sink s) (μ.send sink' z t) := by
  have hcount := hst.countLeft hV (f := fun c => { c with runs := c.runs + 1 }) (fun _ => rfl)
    (fun _ => rfl) (fun c hc hsome => by rw [hempty c hc] at hsome; cases hsome)
  exact hsends (metered_same hV h) z s₀ t₀ _ _ hcount

/-- A list that holds its items sends them; what it means ends without a fault. -/
theorem traverse_full {ref : ListRef} {source : Source H} {μ : Meaning H}
    (hV : V.lists ref = some (source, μ)) (hending : μ.ending = none) {sink sink' : Sink H W S}
    (h : ∀ s v, Same V (sink s v) (sink' s v)) (z : S) {s₀ t₀ s t : Store H W}
    (hst : Linked V s₀ t₀ s t) {c : Cell H} (hc : s.lists[ref.number]? = some c)
    (hitems : c.items = some μ.items) :
    Run.Matches (Linked V s₀ t₀) (Sequence.feed sink μ.items z s) (μ.traverse ref z sink' t) := by
  have hsend := (Meaning.sendFrom_same h none μ.items z).apply hst
  rw [Sequence.feed_eq]
  unfold Meaning.traverse Meaning.send
  rw [hending]
  match hs : Meaning.sendFrom none sink μ.items z s, ht : Meaning.sendFrom none sink' μ.items z t with
  | .error e s', .error f t' =>
    rw [hs, ht] at hsend
    rw [Run.bind_apply_error ht]
    exact ⟨hsend.1, hsend.2.1⟩
  | .ok (a, complete) s', .ok q t' =>
    rw [hs, ht] at hsend
    obtain ⟨rfl, hlinked, hlater⟩ := hsend
    rw [Run.bind_apply_ok ht]
    cases complete with
    | false => exact ⟨rfl, hlinked⟩
    | true =>
      refine ⟨rfl, hlinked.fillRight hV hending fun c₁ hc₁ => ?_⟩
      obtain ⟨c₂, hc₂, hkept, -⟩ := hlater.later ref source μ hV c hc (by rw [hitems]; rfl)
      rw [hc₁] at hc₂
      cases hc₂
      rw [hkept, hitems]
  | .ok p s', .error f t' => rw [hs, ht] at hsend; exact hsend.elim
  | .error e s', .ok q t' => rw [hs, ht] at hsend; exact hsend.elim

/-- A list that holds no items runs its source and keeps what it sent if that was all. -/
theorem traverse_empty {depth : Nat} {ref : ListRef} {source : Source H} {μ : Meaning H}
    (hV : V.lists ref = some (source, μ)) (hsends : Sends m V depth source μ)
    {sink sink' : Sink H W S} (h : ∀ s v, Same V (sink s v) (sink' s v)) (z : S)
    {s₀ t₀ s t : Store H W} (hst : Linked V s₀ t₀ s t)
    (hempty : ∀ c, s.lists[ref.number]? = some c → c.items = none) :
    Run.Matches (Linked V s₀ t₀)
      ((do
        let ((seen, s), complete) ← Sequence.start m (Sequence.traverseAt m depth) ref source
          ([], z) (Sequence.recording sink)
        if complete then Store.fill ref seen.reverse
        pure (s, complete) : Run H W CollectionError (S × Bool)) s) (μ.traverse ref z sink' t) := by
  have hstart := start_same hV hsends (recording_same h) ([], z) hst hempty
  have hrecord := Meaning.sendFrom_recording μ.ending sink' μ.items [] z t
  unfold Meaning.traverse
  unfold Meaning.send at hstart ⊢
  cases ht : Meaning.sendFrom μ.ending sink' μ.items z t with
  | error e t' =>
    rw [ht] at hrecord
    rw [hrecord] at hstart
    rw [Run.bind_apply_error ht]
    cases hs : Sequence.start m (Sequence.traverseAt m depth) ref source ([], z)
      (Sequence.recording sink) s with
    | ok p s' => rw [hs] at hstart; exact hstart.elim
    | error f s' =>
      rw [hs] at hstart
      rw [Run.bind_apply_error hs]
      exact hstart
  | ok q t' =>
    obtain ⟨a, complete⟩ := q
    rw [ht] at hrecord
    obtain ⟨seen, hseen, hrecord⟩ := hrecord
    rw [hrecord] at hstart
    rw [Run.bind_apply_ok ht]
    cases hs : Sequence.start m (Sequence.traverseAt m depth) ref source ([], z)
      (Sequence.recording sink) s with
    | error f s' => rw [hs] at hstart; exact hstart.elim
    | ok p s' =>
      rw [hs] at hstart
      obtain ⟨rfl, hlinked⟩ := hstart
      rw [Run.bind_apply_ok hs]
      cases complete with
      | false => exact ⟨rfl, hlinked⟩
      | true =>
        have hall : seen.reverse = μ.items := by rw [hseen rfl]; simp
        have hending : μ.ending = none := Meaning.sendFrom_complete ht
        simp only [hall, if_true]
        exact (fill_same hV hending).bind (fun _ => .pure (a, true)) s₀ t₀ s' t' hlinked

theorem traverseAt_same {depth : Nat} {ref : ListRef} {source : Source H} {μ : Meaning H}
    (hV : V.lists ref = some (source, μ)) (hsends : Sends m V depth source μ)
    {sink sink' : Sink H W S} (h : ∀ s v, Same V (sink s v) (sink' s v)) (z : S) :
    Same V (Sequence.traverseAt m (depth + 1) ref z sink) (μ.traverse ref z sink') := by
  intro s₀ t₀ s t hst
  obtain ⟨c, c', hc, hc', hcc⟩ := hst.similar.known ref source μ hV
  have hcell : (Store.cell ref : Run H W CollectionError (Cell H)) s = .ok c s := by
    simp [Store.cell, hc]
  unfold Sequence.traverseAt
  rw [Run.bind_apply_ok hcell, hcc.left]
  obtain hempty | ⟨hending, hfull⟩ := hcc.holds
  · rw [hempty]
    refine traverse_empty hV hsends h z hst fun c₁ hc₁ => ?_
    rw [hc] at hc₁
    cases hc₁
    exact hempty
  · rw [hfull]
    exact traverse_full hV hending h z hst hc hfull

/-- The sources of all known lists do what their meanings say, as deep as lists are followed. -/
def Determined (m : Machine H W) (V : Catalog H) : Prop :=
  ∀ ref source μ, V.lists ref = some (source, μ) → ∀ depth, m.budget ≤ depth + 1 →
    Sends m V depth source μ

theorem traverse_same (hbudget : 0 < m.budget) (hD : Determined m V) {ref : ListRef}
    {source : Source H} {μ : Meaning H} (hV : V.lists ref = some (source, μ))
    {sink sink' : Sink H W S} (h : ∀ s v, Same V (sink s v) (sink' s v)) (z : S) :
    Same V (Sequence.traverse m ref z sink) (μ.traverse ref z sink') := by
  obtain ⟨n, hn⟩ : ∃ n, m.budget = n + 1 := ⟨m.budget - 1, by omega⟩
  unfold Sequence.traverse
  rw [hn]
  exact traverseAt_same hV (hD ref source μ hV n (by omega)) h z

theorem items_same (hD : Determined m V) {ref : ListRef} {source : Source H} {μ : Meaning H}
    (hV : V.lists ref = some (source, μ)) : Same V (Sequence.items m ref) (μ.all ref) := by
  intro s₀ t₀ s t hst
  obtain ⟨c, c', hc, hc', hcc⟩ := hst.similar.known ref source μ hV
  have hcell : (Store.cell ref : Run H W CollectionError (Cell H)) s = .ok c s := by
    simp [Store.cell, hc]
  unfold Sequence.items
  rw [Run.bind_apply_ok hcell, hcc.left]
  obtain hempty | ⟨hending, hfull⟩ := hcc.holds
  · have hnone : ∀ c₁, s.lists[ref.number]? = some c₁ → c₁.items = none := by
      intro c₁ hc₁
      rw [hc] at hc₁
      cases hc₁
      exact hempty
    have hstart : Run.Matches (Linked V s₀ t₀)
        (Sequence.start m (Sequence.traverse m) ref source [] Sequence.collect s)
        (μ.send Sequence.collect [] t) :=
      start_same hV (hD ref source μ hV m.budget (by omega)) (fun _ _ => .pure _) [] hst hnone
    rw [hempty, Meaning.all_eq]
    refine hstart.bind fun p s' t' hp hlinked => ?_
    obtain ⟨hending, rfl⟩ := Meaning.send_collect_ok hp
    have hall : (μ.items.reverse, true).1.reverse = μ.items := by simp
    simp only [hall]
    exact (fill_same hV hending).bind (fun _ => .pure μ.items) s₀ t₀ s' t' hlinked
  · rw [hfull]
    have hfill := hst.fillRight hV hending fun c₁ hc₁ => by
      rw [hc] at hc₁
      cases hc₁
      exact hfull
    simp only [Meaning.all, Meaning.finish, hending]
    exact ⟨rfl, hfill⟩

end Formula
