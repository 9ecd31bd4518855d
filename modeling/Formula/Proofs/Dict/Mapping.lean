import Formula.Dict
import Formula.Proofs.Scope

/-!
Changing the values of a dictionary and nothing else. Where a dictionary keeps a key does not
depend on the values, so building, reading and listing commute with the change, whatever the
storage. The values themselves are among those it was built from.
-/
namespace Formula

variable {V U : Type}

namespace Assoc

def mapValues (f : V → U) (l : Assoc V) : Assoc U := l.map fun p => (p.1, f p.2)

theorem get?_mapValues (f : V → U) (l : Assoc V) (key : String) :
    (l.mapValues f).get? key = (l.get? key).map f := by
  induction l with
  | nil => rfl
  | cons p rest ih =>
    obtain ⟨k, v⟩ := p
    by_cases hk : k = key
    · simp [mapValues, get?, hk]
    · simpa [mapValues, get?, hk] using ih

end Assoc

namespace Dict

def mapValues (f : V → U) : Dict V → Dict U
  | .plain entries => .plain (Assoc.mapValues f entries)
  | .indexed entries index => .indexed (entries.map fun p => (p.1, f p.2)) index
  | .layer key value below size depth => .layer key (f value) (below.mapValues f) size depth

theorem get?_mapValues (f : V → U) (d : Dict V) (key : String) :
    (d.mapValues f).get? key = (d.get? key).map f := by
  induction d with
  | plain entries => exact Assoc.get?_mapValues f entries key
  | indexed entries index =>
    cases hi : index[key]? with
    | none => simp [mapValues, get?, hi]
    | some i =>
      cases he : entries[i]? with
      | none => simp [mapValues, get?, hi, he]
      | some entry => simp [mapValues, get?, hi, he]
  | layer k v below size depth ih =>
    by_cases hk : k = key
    · simp [mapValues, get?, hk]
    · simpa [mapValues, get?, hk] using ih

namespace Builder

def mapValues (f : V → U) (b : Builder V) : Builder U :=
  ⟨b.entries.map fun p => (p.1, f p.2), b.index⟩

theorem add_mapValues (f : V → U) (b : Builder V) (key : String) (value : V) :
    (b.mapValues f).add key (f value) = (b.add key value).mapValues f := by
  cases hi : b.index[key]? with
  | none => simp [mapValues, add, hi]
  | some i => simp [mapValues, add, hi, Array.map_setIfInBounds]

theorem addAll_mapValues (f : V → U) (b : Builder V) (pairs : List (String × V)) :
    (b.mapValues f).addAll (Assoc.mapValues f pairs) = (b.addAll pairs).mapValues f := by
  induction pairs generalizing b with
  | nil => rfl
  | cons p rest ih =>
    have hstep := ih (b.add p.1 p.2)
    rw [← add_mapValues] at hstep
    exact hstep

theorem ofList_mapValues (f : V → U) (pairs : List (String × V)) :
    ofList (Assoc.mapValues f pairs) = (ofList pairs).mapValues f := by
  have hempty : mapValues f ({} : Builder V) = {} := by simp [mapValues]
  rw [ofList, ← hempty]
  exact addAll_mapValues f {} pairs

theorem ofEntries_mapValues (f : V → U) (es : Array (String × V)) :
    ofEntries (es.map fun p => (p.1, f p.2)) = (ofEntries es).mapValues f := by
  have hkeys : (es.map fun p => (p.1, f p.2)).toList.zipIdx.map (fun p => (p.1.1, p.2)) =
      es.toList.zipIdx.map fun p => (p.1.1, p.2) := by
    simp [List.zipIdx_map, Function.comp_def]
  simp only [ofEntries, mapValues, hkeys]

theorem add_all {P : V → Prop} {b : Builder V} (hb : ∀ p ∈ b.entries, P p.2) (key : String)
    {value : V} (hv : P value) : ∀ p ∈ (b.add key value).entries, P p.2 := by
  intro p hp
  unfold add at hp
  cases hi : b.index[key]? with
  | none =>
    simp only [hi] at hp
    obtain hp | rfl := Array.mem_push.1 hp
    · exact hb p hp
    · exact hv
  | some i =>
    simp only [hi] at hp
    obtain hp | rfl := Array.mem_or_eq_of_mem_setIfInBounds hp
    · exact hb p hp
    · exact hv

theorem ofList_all {P : V → Prop} {pairs : List (String × V)} (h : ∀ p ∈ pairs, P p.2) :
    ∀ p ∈ (ofList pairs).entries, P p.2 := by
  have fold (b : Builder V) (hb : ∀ p ∈ b.entries, P p.2) :
      ∀ p ∈ (pairs.foldl (fun b p => b.add p.1 p.2) b).entries, P p.2 := by
    induction pairs generalizing b with
    | nil => exact hb
    | cons q rest ih =>
      obtain ⟨hq, hrest⟩ := List.forall_mem_cons.1 h
      exact ih hrest _ (add_all hb q.1 hq)
  exact fold {} fun p hp => by simp at hp

end Builder

theorem base_mapValues (f : V → U) (d : Dict V) :
    (d.mapValues f).base = d.base.map fun p => (p.1, f p.2) := by
  induction d with
  | plain entries => simp [mapValues, base, Assoc.mapValues]
  | indexed es index => rfl
  | layer k v below size depth ih => exact ih

theorem changes_mapValues (f : V → U) (d : Dict V) :
    (d.mapValues f).changes = Assoc.mapValues f d.changes := by
  induction d with
  | plain entries => rfl
  | indexed es index => rfl
  | layer k v below size depth ih => simp [mapValues, changes, ih, Assoc.mapValues]

theorem entries_mapValues (f : V → U) (d : Dict V) :
    (d.mapValues f).entries = d.entries.mapValues f := by
  have hbuilder : (d.mapValues f).builder = d.builder.mapValues f := by
    rw [builder, base_mapValues, changes_mapValues, Builder.ofEntries_mapValues]
    exact Builder.addAll_mapValues f _ d.changes
  have hchanges : (d.mapValues f).changes.isEmpty = d.changes.isEmpty := by
    rw [changes_mapValues]
    exact List.isEmpty_map
  unfold entries
  rw [hbuilder, hchanges, base_mapValues]
  by_cases h : d.changes.isEmpty = true <;> simp [h, Builder.mapValues, Assoc.mapValues]

theorem ofList_mapValues (f : V → U) (pairs : List (String × V)) :
    ofList (Assoc.mapValues f pairs) = (ofList pairs).mapValues f := by
  have hsize : (Builder.ofList (Assoc.mapValues f pairs)).entries.size =
      (Builder.ofList pairs).entries.size := by
    rw [Builder.ofList_mapValues]
    simp [Builder.mapValues]
  unfold ofList
  simp only [hsize]
  rw [Builder.ofList_mapValues]
  by_cases hmany : indexThreshold < (Builder.ofList pairs).entries.size
  · simp only [hmany, if_true]
    rfl
  · simp [hmany, Builder.mapValues, mapValues, Assoc.mapValues]

/-- Whatever a dictionary of pairs lists or finds is the value of one of the pairs. -/
theorem ofList_all {P : V → Prop} {pairs : List (String × V)} (h : ∀ p ∈ pairs, P p.2) :
    (∀ p ∈ (ofList pairs).entries, P p.2) ∧ ∀ key v, (ofList pairs).get? key = some v → P v := by
  have hbuilder := Builder.ofList_all h
  unfold ofList
  by_cases hmany : indexThreshold < (Builder.ofList pairs).entries.size
  · simp only [hmany, if_true]
    refine ⟨fun p hp => hbuilder p (Array.mem_toList_iff.1 hp), fun key v hv => ?_⟩
    simp only [get?, Option.bind_eq_bind, Option.bind_eq_some_iff] at hv
    obtain ⟨i, -, entry, hentry, hv⟩ := hv
    cases hv
    exact hbuilder entry (Array.mem_of_getElem? hentry)
  · simp only [hmany, if_false]
    have hentries : ∀ p ∈ (Builder.ofList pairs).entries.toList, P p.2 :=
      fun p hp => hbuilder p (Array.mem_toList_iff.1 hp)
    exact ⟨hentries, fun key v hv => hentries (key, v) (Assoc.mem_of_get? hv)⟩

end Dict

end Formula
