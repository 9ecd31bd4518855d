import Formula.Error

/-!
Finite sequences that end, or break off with a fault, and the operations on them as plain functions:
each operation goes through the whole sequence at once. A consumer of a sequence is a step function
that may ask for more, have enough, or fail. The lemmas say that feeding the result of an operation
to a consumer is feeding the given sequence to another consumer, which remembers what the operation
has to remember; nothing here knows of lists in a store.
-/
namespace Formula

variable {D A : Type}

/-- Some items, and the fault that comes instead of an end. -/
structure Course (D : Type) where
  items : List D
  ending : Option CollectionError
  deriving DecidableEq

/-- Takes one item; the flag asks for more. -/
abbrev Consumer (D A : Type) := A → D → Except CollectionError (A × Bool)

namespace Course

/-- Results one after the other, up to the first failure. -/
def cut (ending : Option CollectionError) : List (Except CollectionError D) → Course D
  | [] => ⟨[], ending⟩
  | .ok d :: rest => ⟨d :: (cut ending rest).items, (cut ending rest).ending⟩
  | .error e :: _ => ⟨[], some e⟩

/-- The image of each item. -/
def map (f : D → Except CollectionError D) (μ : Course D) : Course D :=
  cut μ.ending (μ.items.map f)

/-- What a verdict on an item adds to the accepted ones; only a bool is a verdict. -/
def verdict (d : D) : Except CollectionError (Option Bool) → Option (Except CollectionError D)
  | .ok (some true) => some (.ok d)
  | .ok (some false) => none
  | .ok none => some (.error (.notABool "accept"))
  | .error e => some (.error e)

/-- The items that a predicate accepts. -/
def accept (p : D → Except CollectionError (Option Bool)) (μ : Course D) : Course D :=
  cut μ.ending (μ.items.filterMap fun d => verdict d (p d))

/-- The image of each pair of neighbours. -/
def combine (f : D → D → Except CollectionError D) (μ : Course D) : Course D :=
  cut μ.ending (List.zipWith f μ.items μ.items.tail)

/-- Each result is made of an item and the result before. -/
def scan (f : D → D → Except CollectionError D) : Except CollectionError D → List D →
    List (Except CollectionError D)
  | last, [] => [last]
  | .error e, _ :: _ => [.error e]
  | .ok last, d :: rest => .ok last :: scan f (f d last) rest

/-- A recursive filter: the first item through `initial`, every other one with the result before. -/
def iir (initial : D → Except CollectionError D) (f : D → D → Except CollectionError D)
    (μ : Course D) : Course D :=
  match μ.items with
  | [] => μ
  | d :: rest => cut μ.ending (scan f (initial d) rest)

/-- The image of each item with its index. -/
def number (f : Int64 → D → Except CollectionError D) (μ : Course D) : Course D :=
  cut μ.ending (μ.items.mapIdx fun i d => f (Int64.ofNat i) d)

/-- The first items; if there are so many, whatever comes behind them does not matter. -/
def top (n : Nat) (μ : Course D) : Course D :=
  if n ≤ μ.items.length then ⟨μ.items.take n, none⟩ else μ

/-- The end of a course that nobody has stopped. -/
def finish (ending : Option CollectionError) (a : A) : Except CollectionError (A × Bool) :=
  match ending with
  | none => .ok (a, true)
  | some e => .error e

/-- Feeds the items to a consumer until it has enough; the flag says that it never had. -/
def feedFrom (ending : Option CollectionError) (step : Consumer D A) : List D → A →
    Except CollectionError (A × Bool)
  | [], a => finish ending a
  | d :: rest, a => do
    let (a, more) ← step a d
    if more then feedFrom ending step rest a else .ok (a, false)

def feed (μ : Course D) (step : Consumer D A) (a : A) : Except CollectionError (A × Bool) :=
  feedFrom μ.ending step μ.items a

/-- All items, or the fault. -/
def all (μ : Course D) : Except CollectionError (List D) :=
  match μ.ending with
  | none => .ok μ.items
  | some e => .error e

section

variable {ending : Option CollectionError} {step : Consumer D A} {a : A}

@[simp] theorem feed_cut_nil : (cut ending []).feed step a = finish ending a := rfl

@[simp] theorem feed_cut_ok {d : D} {rest : List (Except CollectionError D)} :
    (cut ending (.ok d :: rest)).feed step a = (do
      let (a, more) ← step a d
      if more then (cut ending rest).feed step a else .ok (a, false)) := rfl

end

def mapStep (f : D → Except CollectionError D) (step : Consumer D A) : Consumer D A :=
  fun a d => do step a (← f d)

def acceptStep (p : D → Except CollectionError (Option Bool)) (step : Consumer D A) :
    Consumer D A := fun a d => do
  match ← p d with
  | some true => step a d
  | some false => .ok (a, true)
  | none => .error (.notABool "accept")

/-- Remembers the item before. -/
def combineStep (f : D → D → Except CollectionError D) (step : Consumer D A) :
    Consumer D (Option D × A) := fun (last, a) d =>
  match last with
  | none => .ok ((some d, a), true)
  | some previous => do
    let (a, more) ← step a (← f previous d)
    .ok ((some d, a), more)

/-- Remembers the result before. -/
def iirStep (initial : D → Except CollectionError D) (f : D → D → Except CollectionError D)
    (step : Consumer D A) : Consumer D (Option D × A) := fun (last, a) d => do
  let next ← match last with
    | none => initial d
    | some previous => f d previous
  let (a, more) ← step a next
  .ok ((some next, a), more)

/-- Remembers the index of the next item. -/
def numberStep (f : Int64 → D → Except CollectionError D) (step : Consumer D A) :
    Consumer D (Int64 × A) := fun (index, a) d => do
  let (a, more) ← step a (← f index d)
  .ok ((index + 1, a), more)

/-- Remembers how many items are still wanted and whether the consumer had enough. -/
def topStep (step : Consumer D A) : Consumer D (Nat × Bool × A) := fun (remaining, _, a) d => do
  let (a, more) ← step a d
  if more then .ok ((remaining - 1, false, a), 1 < remaining)
  else .ok ((remaining, true, a), false)

/-- Forgets what an operation has remembered. -/
def forget {M : Type} (r : (M × A) × Bool) : A × Bool := (r.1.2, r.2)

section

variable {ending : Option CollectionError} {step : Consumer D A} {a : A}

@[simp] theorem feedFrom_nil : feedFrom ending step [] a = finish ending a := rfl

@[simp] theorem feedFrom_cons {d : D} {rest : List D} :
    feedFrom ending step (d :: rest) a = (do
      let (a, more) ← step a d
      if more then feedFrom ending step rest a else .ok (a, false)) := rfl

@[simp] theorem forget_finish {M : Type} (m : M) :
    forget <$> finish ending (m, a) = finish ending a := by
  cases ending <;> rfl

end

theorem feed_map (f : D → Except CollectionError D) (μ : Course D) (step : Consumer D A) (a : A) :
    (μ.map f).feed step a = μ.feed (mapStep f step) a := by
  obtain ⟨items, ending⟩ := μ
  change (cut ending (items.map f)).feed step a = feedFrom ending (mapStep f step) items a
  induction items generalizing a with
  | nil => rfl
  | cons d rest ih =>
    rw [List.map_cons, feedFrom_cons, mapStep]
    cases f d with
    | error e => rfl
    | ok e =>
      refine bind_congr fun (a', more) => ?_
      cases more with
      | false => rfl
      | true => exact ih a'

theorem feed_accept (p : D → Except CollectionError (Option Bool)) (μ : Course D)
    (step : Consumer D A) (a : A) : (μ.accept p).feed step a = μ.feed (acceptStep p step) a := by
  obtain ⟨items, ending⟩ := μ
  change (cut ending (items.filterMap fun d => verdict d (p d))).feed step a =
    feedFrom ending (acceptStep p step) items a
  induction items generalizing a with
  | nil => rfl
  | cons d rest ih =>
    rw [List.filterMap_cons, feedFrom_cons, acceptStep]
    match p d with
    | .error e => rfl
    | .ok none => rfl
    | .ok (some false) => exact ih a
    | .ok (some true) =>
      refine bind_congr fun (a', more) => ?_
      cases more with
      | false => rfl
      | true => exact ih a'

/-- From the second item on, each one has an item before. -/
theorem feed_combine_from (f : D → D → Except CollectionError D)
    (ending : Option CollectionError) (step : Consumer D A) (previous : D) (items : List D)
    (a : A) :
    (cut ending (List.zipWith f (previous :: items) items)).feed step a =
      forget <$> feedFrom ending (combineStep f step) items (some previous, a) := by
  induction items generalizing previous a with
  | nil => simp
  | cons d rest ih =>
    rw [List.zipWith_cons_cons, feedFrom_cons, combineStep]
    cases f previous d with
    | error e => rfl
    | ok e =>
      simp only [feed_cut_ok, map_bind, bind_assoc]
      refine bind_congr fun (a', more) => ?_
      cases more with
      | false => rfl
      | true => exact ih d a'

theorem feed_combine (f : D → D → Except CollectionError D) (μ : Course D) (step : Consumer D A)
    (a : A) : (μ.combine f).feed step a = forget <$> μ.feed (combineStep f step) (none, a) := by
  obtain ⟨items, ending⟩ := μ
  cases items with
  | nil => exact (forget_finish none).symm
  | cons d rest => exact feed_combine_from f ending step d rest a

/-- The result that comes next, and everything behind it. -/
theorem feed_scan (initial : D → Except CollectionError D) (f : D → D → Except CollectionError D)
    (ending : Option CollectionError) (step : Consumer D A) (next : Except CollectionError D)
    (items : List D) (a : A) :
    (cut ending (scan f next items)).feed step a = (do
      let last ← next
      let (a, more) ← step a last
      if more then forget <$> feedFrom ending (iirStep initial f step) items (some last, a)
      else .ok (a, false)) := by
  induction items generalizing next a with
  | nil =>
    cases next with
    | error e => rfl
    | ok last =>
      refine bind_congr fun (a', more) => ?_
      cases more with
      | false => rfl
      | true => exact (forget_finish _).symm
  | cons d rest ih =>
    cases next with
    | error e => rfl
    | ok last =>
      refine bind_congr fun (a', more) => ?_
      cases more with
      | false => rfl
      | true =>
        refine (ih (f d last) a').trans ?_
        simp only [if_true, feedFrom_cons, iirStep, map_bind, bind_assoc]
        refine bind_congr fun next => bind_congr fun (b, more) => ?_
        cases more <;> rfl

theorem feed_iir (initial : D → Except CollectionError D) (f : D → D → Except CollectionError D)
    (μ : Course D) (step : Consumer D A) (a : A) :
    (μ.iir initial f).feed step a = forget <$> μ.feed (iirStep initial f step) (none, a) := by
  obtain ⟨items, ending⟩ := μ
  cases items with
  | nil => exact (forget_finish none).symm
  | cons d rest =>
    refine (feed_scan initial f ending step (initial d) rest a).trans ?_
    simp only [feed, feedFrom_cons, iirStep, map_bind, bind_assoc]
    refine bind_congr fun next => bind_congr fun (b, more) => ?_
    cases more <;> rfl

/-- The items from the index `k` on. -/
theorem feed_number_from (f : Int64 → D → Except CollectionError D)
    (ending : Option CollectionError) (step : Consumer D A) (k : Nat) (items : List D) (a : A) :
    (cut ending (items.mapIdx fun i d => f (Int64.ofNat (k + i)) d)).feed step a =
      forget <$> feedFrom ending (numberStep f step) items (Int64.ofNat k, a) := by
  induction items generalizing k a with
  | nil => exact (forget_finish _).symm
  | cons d rest ih =>
    have hshift : (fun i d => f (Int64.ofNat (k + (i + 1))) d) =
        fun i (d : D) => f (Int64.ofNat (k + 1 + i)) d := by
      funext i d
      rw [Nat.add_right_comm, Nat.add_assoc]
    rw [List.mapIdx_cons, hshift, feedFrom_cons, numberStep, Nat.add_zero]
    cases f (Int64.ofNat k) d with
    | error e => rfl
    | ok e =>
      simp only [feed_cut_ok, map_bind, bind_assoc]
      refine bind_congr fun (a', more) => ?_
      cases more with
      | false => rfl
      | true =>
        refine (ih (k + 1) a').trans ?_
        rw [Int64.ofNat_add]
        rfl

theorem feed_number (f : Int64 → D → Except CollectionError D) (μ : Course D)
    (step : Consumer D A) (a : A) :
    (μ.number f).feed step a = forget <$> μ.feed (numberStep f step) (0, a) := by
  have h := feed_number_from f μ.ending step 0 μ.items a
  simp only [Nat.zero_add] at h
  exact h

/-- Forgets how many items were still wanted. A course that was cut off is complete unless its
consumer had enough. -/
def uncut (r : (Nat × Bool × A) × Bool) : A × Bool := (r.1.2.2, !r.1.2.1)

theorem top_cons (n : Nat) (d : D) (rest : List D) (ending : Option CollectionError) :
    top (n + 1) ⟨d :: rest, ending⟩ =
      ⟨d :: (top n ⟨rest, ending⟩).items, (top n ⟨rest, ending⟩).ending⟩ := by
  by_cases h : n ≤ rest.length
  · simp [top, h]
  · simp [top, h]

theorem feed_top (n : Nat) (μ : Course D) (step : Consumer D A) (a : A) :
    (μ.top n).feed step a =
      if n = 0 then .ok (a, true) else uncut <$> μ.feed (topStep step) (n, false, a) := by
  obtain ⟨items, ending⟩ := μ
  induction items generalizing n a with
  | nil =>
    cases n with
    | zero => rfl
    | succ n => cases ending <;> rfl
  | cons d rest ih =>
    cases n with
    | zero => rfl
    | succ n =>
      rw [top_cons, if_neg (Nat.succ_ne_zero n)]
      simp only [feed, feedFrom_cons, topStep, map_bind, bind_assoc]
      refine bind_congr fun (a', more) => ?_
      cases more with
      | false => rfl
      | true =>
        refine (ih n a').trans ?_
        cases n with
        | zero => rfl
        | succ n => simp [feed, bind, Except.bind]

/-- Remembers all items, last one first. -/
def recordStep (step : Consumer D A) : Consumer D (List D × A) := fun (seen, a) d => do
  let (a, more) ← step a d
  .ok ((d :: seen, a), more)

/-- Only remembers all items. -/
def collectStep : Consumer D (List D) := fun seen d => .ok (d :: seen, true)

theorem recordStep_ok {step : Consumer D A} {p q : List D × A} {d : D} {more : Bool}
    (h : recordStep step p d = .ok (q, more)) : q.1 = d :: p.1 := by
  obtain ⟨seen, a⟩ := p
  simp only [recordStep] at h
  cases hs : step a d with
  | error e =>
    rw [hs] at h
    cases h
  | ok r =>
    rw [hs] at h
    cases h
    rfl

theorem feed_record (ending : Option CollectionError) (step : Consumer D A) (items seen : List D)
    (a : A) :
    forget <$> feedFrom ending (recordStep step) items (seen, a) =
      feedFrom ending step items a := by
  induction items generalizing seen a with
  | nil => exact forget_finish _
  | cons d rest ih =>
    simp only [feedFrom_cons, recordStep, map_bind, bind_assoc]
    refine bind_congr fun (a', more) => ?_
    cases more with
    | false => rfl
    | true => exact ih (d :: seen) a'

theorem feed_record_complete {ending : Option CollectionError} {step : Consumer D A}
    {items seen seen' : List D} {a a' : A}
    (h : feedFrom ending (recordStep step) items (seen, a) = .ok ((seen', a'), true)) :
    ending = none ∧ seen' = items.reverse ++ seen := by
  induction items generalizing seen a with
  | nil =>
    cases ending with
    | none => cases h; exact ⟨rfl, rfl⟩
    | some e => cases h
  | cons d rest ih =>
    simp only [feedFrom_cons, recordStep] at h
    cases hs : step a d with
    | error e =>
      rw [hs] at h
      cases h
    | ok r =>
      obtain ⟨b, more⟩ := r
      rw [hs] at h
      cases more with
      | false => cases h
      | true =>
        obtain ⟨hending, rfl⟩ := ih h
        exact ⟨hending, by simp⟩

theorem feed_collect (ending : Option CollectionError) (items seen : List D) :
    feedFrom ending collectStep items seen = finish ending (items.reverse ++ seen) := by
  induction items generalizing seen with
  | nil => rfl
  | cons d rest ih =>
    refine (ih (d :: seen)).trans ?_
    rw [List.reverse_cons, List.append_assoc]
    rfl

/-- All items are what is collected. -/
theorem all_eq (μ : Course D) :
    μ.all = (do
      let (seen, _) ← μ.feed collectStep []
      .ok seen.reverse) := by
  rw [feed, feed_collect, all]
  cases μ.ending with
  | none => simp [finish, bind, Except.bind]
  | some e => rfl

theorem feed_collect_ok {μ : Course D} {seen : List D} {complete : Bool}
    (h : μ.feed collectStep [] = .ok (seen, complete)) :
    μ.ending = none ∧ seen = μ.items.reverse := by
  rw [feed, feed_collect, List.append_nil] at h
  cases hending : μ.ending with
  | none =>
    rw [hending] at h
    cases h
    exact ⟨rfl, rfl⟩
  | some e =>
    rw [hending] at h
    cases h

end Course

end Formula
