import Formula.Proofs.Sequence.Memo

/-!
Programs on lists: any sequence of operations, with sinks that may themselves use the lists that
are being traversed. `Program.run` carries a program out on the store, `Program.eager` on the
sequences that the lists mean, where a list is remembered as soon as it was gone through once.
-/
namespace Formula

variable {H W S : Type} {V : Catalog H} {m : Machine H W}

namespace Meaning

def size (μ : Meaning H) (ref : ListRef) : Run H W CollectionError Nat := do
  return (← μ.all ref).length

def get (μ : Meaning H) (ref : ListRef) (index : Int64) : Run H W CollectionError (Value H) := do
  let items ← μ.all ref
  match if index < 0 then none else items[index.toInt.toNat]? with
  | some v => pure v
  | none => Run.fault (.indexOutOfBounds index.toInt items.length)

/-- The first item, whatever comes behind it. -/
def first (μ : Meaning H) (ref : ListRef) : Run H W CollectionError (Value H) :=
  match μ.items with
  | v :: _ => pure v
  | [] => do
    μ.finish ref
    Run.fault (.noItems "first")

def reduce (m : Machine H W) (μ : Meaning H) (ref : ListRef) (f : Function H) :
    Run H W CollectionError (Value H) :=
  match μ.items with
  | v :: rest => do
    let result ← rest.foldlM (fun acc v => m.apply f [acc, v]) v
    μ.finish ref
    pure result
  | [] => do
    μ.finish ref
    Run.fault (.noItems "reduce")

def visit (m : Machine H W) (μ : Meaning H) (ref : ListRef) (visitor : Value H) (f : Function H) :
    Run H W CollectionError (Value H) := do
  let result ← μ.items.foldlM (fun current v => m.apply f [current, v]) visitor
  μ.finish ref
  pure result

/-- The index of the first item equal to a value, counted from `index`. -/
def search (m : Machine H W) (μ : Meaning H) (ref : ListRef) (wanted : Value H) :
    Int64 → List (Value H) → Run H W CollectionError Int64
  | _, [] => do
    μ.finish ref
    pure (-1)
  | index, v :: rest => do
    if ← (Value.equal m v wanted).lift then pure index else search m μ ref wanted (index + 1) rest

def indexOf (m : Machine H W) (μ : Meaning H) (ref : ListRef) (wanted : Value H) :
    Run H W CollectionError Int64 :=
  search m μ ref wanted 0 μ.items

theorem sendFrom_fold (ending : Option CollectionError) (step : S → Value H → Run H W CollectionError S)
    (items : List (Value H)) (s : S) :
    sendFrom ending (fun s v => do return (← step s v, true)) items s = (do
      let result ← items.foldlM step s
      match ending with
      | none => pure (result, true)
      | some e => Run.fault e : Run H W CollectionError (S × Bool)) := by
  induction items generalizing s with
  | nil => cases ending <;> rfl
  | cons v rest ih =>
    simp only [sendFrom, bind_assoc, pure_bind, if_true, List.foldlM_cons]
    congr 1
    funext s'
    exact ih s'

/-- A traversal that never stops is a fold. -/
theorem traverse_fold (μ : Meaning H) (ref : ListRef) (step : S → Value H → Run H W CollectionError S)
    (s : S) :
    μ.traverse ref s (fun s v => do return (← step s v, true)) = (do
      let result ← μ.items.foldlM step s
      μ.finish ref
      pure (result, true) : Run H W CollectionError (S × Bool)) := by
  rw [traverse, send, sendFrom_fold, finish]
  cases μ.ending with
  | none => simp
  | some e =>
    simp only [bind_assoc]
    rfl

theorem first_eq (μ : Meaning H) (ref : ListRef) :
    μ.first ref = (do
      let (found, _) ← μ.traverse ref none fun _ v => pure (some v, false)
      match found with
      | some v => pure v
      | none => Run.fault (.noItems "first") : Run H W CollectionError (Value H)) := by
  unfold first traverse send finish
  cases μ.items with
  | nil =>
    cases μ.ending with
    | none => simp [sendFrom]
    | some e => rfl
  | cons v rest => simp [sendFrom]

/-- One step of reducing. -/
def reduceStep (m : Machine H W) (f : Function H) :
    Option (Value H) → Value H → Run H W CollectionError (Option (Value H))
  | none, v => pure (some v)
  | some acc, v => do return some (← m.apply f [acc, v])

theorem foldlM_reduceStep (m : Machine H W) (f : Function H) (items : List (Value H))
    (acc : Value H) :
    items.foldlM (reduceStep m f) (some acc) =
      some <$> items.foldlM (fun acc v => m.apply f [acc, v]) acc := by
  induction items generalizing acc with
  | nil => rfl
  | cons v rest ih =>
    simp only [List.foldlM_cons, reduceStep, bind_assoc, pure_bind, map_bind]
    congr 1
    funext r
    exact ih r

theorem reduce_eq (m : Machine H W) (μ : Meaning H) (ref : ListRef) (f : Function H) :
    reduce m μ ref f = (do
      let (result, _) ← μ.traverse ref none fun s v => do return (← reduceStep m f s v, true)
      match result with
      | some v => pure v
      | none => Run.fault (.noItems "reduce") : Run H W CollectionError (Value H)) := by
  rw [traverse_fold, reduce]
  cases μ.items with
  | nil => simp
  | cons v rest =>
    have hstep : (v :: rest).foldlM (reduceStep m f) none = rest.foldlM (reduceStep m f) (some v) :=
      rfl
    rw [hstep, foldlM_reduceStep]
    simp

theorem visit_eq (m : Machine H W) (μ : Meaning H) (ref : ListRef) (visitor : Value H)
    (f : Function H) :
    visit m μ ref visitor f = (do
      let (visitor, _) ← μ.traverse ref visitor fun s v => do return (← m.apply f [s, v], true)
      pure visitor : Run H W CollectionError (Value H)) := by
  rw [traverse_fold, visit]
  simp

/-- The sink that looks for a value. -/
def searchSink (m : Machine H W) (wanted : Value H) : Sink H W (Int64 × Bool) :=
  fun (index, _) v => do
    if ← (Value.equal m v wanted).lift then pure ((index, true), false)
    else pure ((index + 1, false), true)

theorem search_eq (m : Machine H W) (μ : Meaning H) (ref : ListRef) (wanted : Value H)
    (index : Int64) (items : List (Value H)) :
    search m μ ref wanted index items = (do
      let (p, complete) ← sendFrom μ.ending (searchSink m wanted) items (index, false)
      if complete then Store.fill ref μ.items
      pure (if p.2 then p.1 else -1) : Run H W CollectionError Int64) := by
  induction items generalizing index with
  | nil =>
    unfold search sendFrom finish
    cases μ.ending with
    | none => simp
    | some e => rfl
  | cons v rest ih =>
    simp only [search, sendFrom, searchSink, bind_assoc]
    congr 1
    funext found
    cases found with
    | true => simp
    | false => simpa [searchSink] using ih (index + 1)

theorem indexOf_eq (m : Machine H W) (μ : Meaning H) (ref : ListRef) (wanted : Value H) :
    indexOf m μ ref wanted = (do
      let (p, _) ← μ.traverse ref (0, false) (searchSink m wanted)
      pure (if p.2 then p.1 else -1) : Run H W CollectionError Int64) := by
  rw [indexOf, search_eq, traverse]
  simp only [send, bind_assoc]
  congr 1
  funext q
  obtain ⟨p, complete⟩ := q
  cases complete <;> simp

end Meaning

section Operations

variable {ref : ListRef} {source : Source H} {μ : Meaning H}

theorem size_same (hD : Determined m V) (hV : V.lists ref = some (source, μ)) :
    Same V (Sequence.size m ref) (μ.size ref) :=
  (items_same hD hV).bind fun _ => .pure _

theorem get_same (hD : Determined m V) (hV : V.lists ref = some (source, μ)) (index : Int64) :
    Same V (Sequence.get m ref index) (μ.get ref index) := by
  refine (items_same hD hV).bind fun items => ?_
  cases (if index < 0 then none else items[index.toInt.toNat]?) with
  | none => exact .fault _
  | some v => exact .pure v

theorem first_same (hbudget : 0 < m.budget) (hD : Determined m V)
    (hV : V.lists ref = some (source, μ)) : Same V (Sequence.first m ref) (μ.first ref) := by
  rw [Meaning.first_eq]
  refine (traverse_same hbudget hD hV (fun _ _ => .pure _) none).bind fun p => ?_
  obtain ⟨found, complete⟩ := p
  cases found with
  | none => exact .fault _
  | some v => exact .pure v

theorem reduce_same (hbudget : 0 < m.budget) (hD : Determined m V)
    (hV : V.lists ref = some (source, μ)) {f : Function H}
    (hf : ∀ args, Same V (m.apply f args) (m.apply f args)) :
    Same V (Sequence.reduce m ref f) (Meaning.reduce m μ ref f) := by
  rw [Meaning.reduce_eq]
  refine (traverse_same hbudget hD hV (fun s v => ?_) none).bind fun p => ?_
  · cases s with
    | none => exact .pure _
    | some acc =>
      simp only [Meaning.reduceStep, bind_assoc, pure_bind]
      exact (hf [acc, v]).bind fun _ => .pure _
  · obtain ⟨result, complete⟩ := p
    cases result with
    | none => exact .fault _
    | some v => exact .pure v

theorem visit_same (hbudget : 0 < m.budget) (hD : Determined m V)
    (hV : V.lists ref = some (source, μ)) {f : Function H}
    (hf : ∀ args, Same V (m.apply f args) (m.apply f args)) (visitor : Value H) :
    Same V (Sequence.visit m ref visitor f) (Meaning.visit m μ ref visitor f) := by
  rw [Meaning.visit_eq]
  refine (traverse_same hbudget hD hV (fun s v => ?_) visitor).bind fun _ => .pure _
  exact (hf [s, v]).bind fun _ => .pure _

theorem indexOf_same (hbudget : 0 < m.budget) (hD : Determined m V)
    (hV : V.lists ref = some (source, μ)) {wanted : Value H}
    (hw : ∀ v, Same V ((Value.equal m v wanted).lift : Run H W CollectionError Bool)
      (Value.equal m v wanted).lift) :
    Same V (Sequence.indexOf m ref wanted) (Meaning.indexOf m μ ref wanted) := by
  rw [Meaning.indexOf_eq]
  refine (traverse_same hbudget hD hV (fun s v => ?_) (0, false)).bind fun _ => .pure _
  refine (hw v).bind fun found => ?_
  cases found with
  | true => exact .pure _
  | false => exact .pure _

end Operations

/-- A list whose meaning is known. -/
structure Known (V : Catalog H) where
  ref : ListRef
  source : Source H
  meaning : Meaning H
  known : V.lists ref = some (source, meaning)

/-- A program that uses the known lists. What else it does must not depend on counters and
unwatched caches; functions and comparisons are used by the operations of the lists. -/
inductive Program (m : Machine H W) (V : Catalog H) : Type → Type 1 where
  | ret {α : Type} (a : α) : Program m V α
  | fail {α : Type} (e : CollectionError) : Program m V α
  | other {α : Type} (x : Run H W CollectionError α) (hx : Same V x x) : Program m V α
  | andThen {α β : Type} (p : Program m V α) (k : α → Program m V β) : Program m V β
  | attempt {α : Type} (p : Program m V α) : Program m V (Except CollectionError α)
  | iterate {S : Type} (l : Known V) (z : S) (sink : S → Value H → Program m V (S × Bool)) :
    Program m V (S × Bool)
  | items (l : Known V) : Program m V (List (Value H))
  | size (l : Known V) : Program m V Nat
  | get (l : Known V) (index : Int64) : Program m V (Value H)
  | first (l : Known V) : Program m V (Value H)
  | reduce (l : Known V) (f : Function H)
      (hf : ∀ args, Same V (m.apply f args) (m.apply f args)) : Program m V (Value H)
  | visit (l : Known V) (visitor : Value H) (f : Function H)
      (hf : ∀ args, Same V (m.apply f args) (m.apply f args)) : Program m V (Value H)
  | indexOf (l : Known V) (wanted : Value H)
      (hw : ∀ v, Same V ((Value.equal m v wanted).lift : Run H W CollectionError Bool)
        (Value.equal m v wanted).lift) : Program m V Int64

namespace Program

/-- Carries the program out on the lists of the store. -/
def run {α : Type} : Program m V α → Run H W CollectionError α
  | .ret a => pure a
  | .fail e => Run.fault e
  | .other x _ => x
  | .andThen p k => p.run >>= fun a => (k a).run
  | .attempt p => p.run.attempt
  | .iterate l z sink => Sequence.traverse m l.ref z fun s v => (sink s v).run
  | .items l => Sequence.items m l.ref
  | .size l => Sequence.size m l.ref
  | .get l index => Sequence.get m l.ref index
  | .first l => Sequence.first m l.ref
  | .reduce l f _ => Sequence.reduce m l.ref f
  | .visit l visitor f _ => Sequence.visit m l.ref visitor f
  | .indexOf l wanted _ => Sequence.indexOf m l.ref wanted

/-- Carries the program out on the sequences that the lists mean. -/
def eager {α : Type} : Program m V α → Run H W CollectionError α
  | .ret a => pure a
  | .fail e => Run.fault e
  | .other x _ => x
  | .andThen p k => p.eager >>= fun a => (k a).eager
  | .attempt p => p.eager.attempt
  | .iterate l z sink => l.meaning.traverse l.ref z fun s v => (sink s v).eager
  | .items l => l.meaning.all l.ref
  | .size l => l.meaning.size l.ref
  | .get l index => l.meaning.get l.ref index
  | .first l => l.meaning.first l.ref
  | .reduce l f _ => Meaning.reduce m l.meaning l.ref f
  | .visit l visitor f _ => Meaning.visit m l.meaning l.ref visitor f
  | .indexOf l wanted _ => Meaning.indexOf m l.meaning l.ref wanted

theorem run_same (hbudget : 0 < m.budget) (hD : Determined m V) {α : Type} (p : Program m V α) :
    Same V p.run p.eager := by
  induction p with
  | ret a => exact .pure a
  | fail e => exact .fault e
  | other x hx => exact hx
  | andThen p k ihp ihk => exact ihp.bind ihk
  | attempt p ih => exact ih.attempt
  | iterate l z sink ih => exact traverse_same hbudget hD l.known ih z
  | items l => exact items_same hD l.known
  | size l => exact size_same hD l.known
  | get l index => exact get_same hD l.known index
  | first l => exact first_same hbudget hD l.known
  | reduce l f hf => exact reduce_same hbudget hD l.known hf
  | visit l visitor f hf => exact visit_same hbudget hD l.known hf visitor
  | indexOf l wanted hw => exact indexOf_same hbudget hD l.known hw

end Program

end Formula
