import Formula.Proofs.Sequence.Derived
import Formula.Proofs.Sequence.Groups

/-!
Grouping is a partition that keeps the order. The keys of a list come from a callback, as texts or as
integers; the first item without a key ends the grouping with its fault. If all items have keys, the
result is a list of maps, one for each key in the order in which the keys came first, with the list of
those items that have this key, in the order of the given list.
-/
namespace Formula

namespace Sequence

variable {H W : Type}

/-- A list that was made with these items. -/
def heldCell (vs : List (Value H)) : Cell H := { source := .given vs none, items := some vs }

/-- Lists that there were are still there, as they were. -/
def Extends (s s' : Store H W) : Prop :=
  ∀ (i : Nat) (c : Cell H), s.lists[i]? = some c → s'.lists[i]? = some c

theorem Extends.refl (s : Store H W) : Extends s s := fun _ _ h => h

theorem Extends.trans {s s' s'' : Store H W} (h : Extends s s') (h' : Extends s' s'') :
    Extends s s'' :=
  fun i c hc => h' i c (h i c hc)

/-- The map of a key and the list of its members. -/
def IsGroup (s : Store H W) (key : GroupKey) (vs : List (Value H)) (map : Value H) : Prop :=
  ∃ (id : Identity) (group : ListRef),
    map = .map id (.ofList [("key", key.value), ("value", .list group)]) ∧
    s.lists[group.number]? = some (heldCell vs)

theorem IsGroup.extends {s s' : Store H W} {key : GroupKey} {vs : List (Value H)} {map : Value H}
    (h : IsGroup s key vs map) (hs : Extends s s') : IsGroup s' key vs map := by
  obtain ⟨id, group, hmap, hgroup⟩ := h
  exact ⟨id, group, hmap, hs _ _ hgroup⟩

/-- The integer that a value is as a key. -/
def keyNumber? : Value H → Option Int64
  | .int n => some n
  | .float x => if x.isFinite then some (Double.truncate x) else none
  | _ => none

/-- The key of a callback's outcome; only what is an integer is a key. -/
def numberKey : Except CollectionError (Option Int64) → Except CollectionError GroupKey
  | .ok (some n) => .ok (.int n)
  | .ok none => .error (.invalidType "groupByInt" "an int as key")
  | .error e => .error e

/-- The text of what a callback returns. -/
def nameOf (m : Machine H W) (f : Function H) (v : Value H) : Run H W CollectionError String := do
  (Value.text m (← m.apply f [v])).lift

/-- The integer that a callback returns as a key. -/
def numberOf (m : Machine H W) (f : Function H) (v : Value H) :
    Run H W CollectionError GroupKey := do
  let refused := Run.fault (.invalidType "groupByInt" "an int as key")
  match ← m.apply f [v] with
  | .int n => return .int n
  | .float x => if x.isFinite then return .int (Double.truncate x) else refused
  | _ => refused

end Sequence

namespace Course

variable {D : Type}

open Sequence (GroupKey)

/-- Writes down each item with its key. -/
def keyStep (key : D → Except CollectionError GroupKey) : Consumer D (List (GroupKey × D)) :=
  fun seen d => do
    let k ← key d
    .ok (seen ++ [(k, d)], true)

variable {key : D → Except CollectionError GroupKey} {ending : Option CollectionError}

end Course

namespace Reading

open Sequence

variable {H W D : Type} {R : Reading H W D} {own : ListRef → Prop} {m : Machine H W}
  {Q T : Store H W → Store H W → Prop} {s : Store H W} {μ : Course D}

section

variable (m : Machine H W) (R : Reading H W D) (own : ListRef → Prop)

/-- The keys of values are this function of what the values stand for. -/
def Keys (keyOf : Value H → Run H W CollectionError GroupKey)
    (key : D → Except CollectionError GroupKey) : Prop :=
  ∀ s v d, R.Valid s → R.stands s v d → Gives (R.Quiet own s) (fun _ => Eq) (keyOf v s) (key d)

/-- The text of what the callback returns is this function of what its argument stands for. -/
def Names (f : Function H) (name : D → Except CollectionError String) : Prop :=
  ∀ s v d, R.Valid s → R.stands s v d →
    Gives (R.Quiet own s) (fun _ => Eq) (nameOf m f v s) (name d)

/-- What the callback returns is this integer as a key, or nothing that could be a key. -/
def Numbers (f : Function H) (number : D → Except CollectionError (Option Int64)) : Prop :=
  ∀ s v d, R.Valid s → R.stands s v d →
    Gives (R.Quiet own s) (fun _ w n => keyNumber? w = n) (m.apply f [v] s) (number d)

end

theorem Names.keys {f : Function H} {name : D → Except CollectionError String}
    (h : Names m R own f name) :
    Keys R own (fun v => .str <$> nameOf m f v) fun d => .str <$> name d := by
  intro s v d hs hv
  simp only [map_eq_pure_bind]
  refine (h s v d hs hv).bind (fun _ h => h) fun a b s' _ hq hab => ?_
  subst hab
  exact .pure hq rfl

theorem Numbers.keys {f : Function H} {number : D → Except CollectionError (Option Int64)}
    (h : Numbers m R own f number) :
    Keys R own (numberOf m f) fun d => numberKey (number d) := by
  intro s v d hs hv
  have hkey : numberKey (number d) = number d >>= fun n => numberKey (.ok n) := by
    cases number d <;> rfl
  simp only [hkey]
  refine (h s v d hs hv).bind (fun _ h => h) fun w n s' _ hq hw => ?_
  subst hw
  cases w with
  | int n => exact .pure hq rfl
  | float x =>
    simp only [keyNumber?]
    cases x.isFinite with
    | true => exact .pure hq rfl
    | false => exact .fault hq
  | _ => exact .fault hq

/-- The groups sort values that stand for the data seen so far, with the same keys. -/
def Collected (R : Reading H W D) (s : Store H W) (g : Groups H) (seen : List (GroupKey × D)) :
    Prop :=
  ∃ kvs, kvs.Forall₂ (fun p q => p.1 = q.1 ∧ R.stands s p.2 q.2) seen ∧ g.Sorts kvs

variable {keyOf : Value H → Run H W CollectionError GroupKey}
  {key : D → Except CollectionError GroupKey} {ref : ListRef}

/-- One item more. -/
theorem Keys.implements (h : Keys R own keyOf key) (hfit : Fits R own Q T) :
    Implements R Q T (Collected R) (fun g v => do return (g.add (← keyOf v) v, true))
      (Course.keyStep key) := by
  have hstable {s s' : Store H W} {g : Groups H} {seen : List (GroupKey × D)} (hl : R.Later s s')
      (hc : Collected R s g seen) : Collected R s' g seen := by
    obtain ⟨kvs, hkvs, hsorts⟩ := hc
    exact ⟨kvs, hkvs.imp fun p q hpq => ⟨hpq.1, hl.reads _ _ hpq.2⟩, hsorts⟩
  refine ⟨fun hq => hstable (hfit.later hq), fun {s g seen v d} hs hc hv => ?_⟩
  refine (h s v d hs hv).bind (fun _ => hfit.part) fun k k' s' _ hq hk => ?_
  subst hk
  obtain ⟨kvs, hkvs, hsorts⟩ := hstable hq.toLater hc
  have hall : (kvs ++ [(k, v)]).Forall₂ (fun p q => p.1 = q.1 ∧ R.stands s' p.2 q.2)
      (seen ++ [(k, d)]) :=
    List.rel_append hkvs (.cons ⟨rfl, hq.reads v d hv⟩ .nil)
  exact .pure (hfit.part hq) ⟨⟨_, hall, hsorts.add k v⟩, rfl⟩

/-- All items. -/
theorem Keys.groups (h : Keys R own keyOf key)
    (hfollows : Follows R (R.Quiet own) R.Later (traverse m ref) μ) (hs : R.Valid s) :
    Gives (R.Later s) (Collected R) (groups m ref keyOf s)
      (Prod.fst <$> μ.feed (Course.keyStep key) []) := by
  have hrun := hfollows.feeds (h.implements fits_later) (z := {}) (a := []) hs
    ⟨[], .nil, Groups.sorts_empty⟩
  rw [map_eq_pure_bind]
  exact hrun.bind (fun _ h => h) fun p q s' _ hl hpq => .pure hl hpq.1

namespace Remainders

def machine : Machine Empty Unit := Machine.ofHost ⟨fun h => h.elim, fun h => h.elim⟩ 4

/-- The closure `x -> x % 3`. -/
def byRemainder : Function Empty :=
  .mk (.made 0) { name := "byRemainder", arity := .fixed 1, isPure := true }
    (.code ["x"] (.binary .unknown (.binary .rem) (.var .unknown "x" none) (.const (.int 3))) [])

/-- The closure `x -> 6 / x`, whose results are floats. -/
def byQuotient : Function Empty :=
  .mk (.made 1) { name := "byQuotient", arity := .fixed 1, isPure := true }
    (.code ["x"] (.binary .unknown (.binary .div) (.const (.int 6)) (.var .unknown "x" none)) [])

def reading (ds : List Int64) : Reading Empty Unit Int64 :=
  embedded (fun ref => if ref = ⟨0⟩ then some (.given (ds.map .int) none, ⟨ds, none⟩) else none) .int

def store (ds : List Int64) : Store Empty Unit where
  lists := #[{ source := .given (ds.map .int) none }]
  world := ()

variable {ds : List Int64} {own : ListRef → Prop}

theorem valid : (reading ds).Valid (store ds) := by
  refine ⟨trivial, fun ref source μ hknown => ?_⟩
  by_cases href : ref = ⟨0⟩
  · subst href
    cases hknown
    exact ⟨_, rfl, rfl, .inl rfl⟩
  · have hnone : (reading ds).lists ref = none := if_neg href
    rw [hnone] at hknown
    cases hknown

theorem denotes : Denotes machine (reading ds) own 0 (.given (ds.map .int) none) ⟨ds, none⟩ :=
  .given fun _ _ => by
    rw [List.forall₂_map_left_iff]
    exact List.forall₂_same.2 fun _ _ => rfl

theorem names : Names machine (reading ds) own byRemainder fun d =>
    .ok (toString (d % 3).toInt) := by
  rintro s _ d hs rfl
  exact ⟨.refl hs, rfl⟩

theorem numbers : Numbers machine (reading ds) own byQuotient fun d =>
    .ok (keyNumber? (.float (Double.ofInt64 6 / Double.ofInt64 d) : Value Empty)) := by
  rintro s _ d hs rfl
  exact ⟨.refl hs, rfl⟩

end Remainders

end Reading

end Formula
