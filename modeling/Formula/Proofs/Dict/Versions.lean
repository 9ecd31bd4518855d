import Formula.Dict
import Formula.Proofs.Scope
import Mathlib.Data.List.Induction
import Mathlib.Data.List.Nodup

/-!
Dictionaries against association lists. A dictionary answers from three kinds of storage: a
plain list, a list with the positions of its keys, a layer over another dictionary. What is
listed, found and counted in each of them is what the association list has to say that was
built by the same settings; and a dictionary that others were made from stays as it was.
-/
namespace Formula

variable {V : Type}

namespace Assoc

theorem keys_upsert (l : Assoc V) (key : String) (value : V) :
    (l.upsert key value).keys = if key ∈ l.keys then l.keys else l.keys ++ [key] := by
  induction l with
  | nil => rfl
  | cons p rest ih =>
    obtain ⟨k, v⟩ := p
    by_cases hk : k = key
    · simp [upsert, keys, hk]
    · have hk' : key ≠ k := Ne.symm hk
      simp only [keys] at ih
      by_cases hmem : key ∈ rest.map Prod.fst <;> simp [upsert, keys, hk, hk', ih, hmem]

theorem upsert_of_not_mem {l : Assoc V} {key : String} (h : key ∉ l.keys) (value : V) :
    l.upsert key value = l ++ [(key, value)] := by
  induction l with
  | nil => rfl
  | cons p rest ih =>
    obtain ⟨k, v⟩ := p
    have hk : k ≠ key := by
      rintro rfl
      exact h List.mem_cons_self
    have hrest : key ∉ keys rest := fun hmem => h (List.mem_cons_of_mem _ hmem)
    simp [upsert, hk, ih hrest]

theorem upsert_eq_set {l : Assoc V} (hnodup : l.keys.Nodup) {key : String} {i : Nat}
    (hi : l.keys[i]? = some key) (value : V) : l.upsert key value = l.set i (key, value) := by
  induction l generalizing i with
  | nil => simp [keys] at hi
  | cons p rest ih =>
    obtain ⟨k, v⟩ := p
    obtain ⟨hk, hrest⟩ := List.nodup_cons.1 hnodup
    cases i with
    | zero =>
      have hkey : k = key := by simpa [keys] using hi
      simp [upsert, hkey]
    | succ i =>
      have htail : (keys rest)[i]? = some key := by simpa [keys] using hi
      have hne : k ≠ key := by
        rintro rfl
        exact hk (List.mem_of_getElem? htail)
      simp [upsert, hne, ih hrest htail]

theorem isSome_get? (l : Assoc V) (key : String) : (l.get? key).isSome ↔ key ∈ l.keys := by
  induction l with
  | nil => simp [keys]
  | cons p rest ih =>
    obtain ⟨k, v⟩ := p
    by_cases hk : k = key
    · simp [get?, keys, hk]
    · have hk' : key ≠ k := Ne.symm hk
      simp only [keys] at ih
      simp [get?, keys, hk, hk', ih]

/-- Where keys are distinct, an entry is what is found under its key. -/
theorem get?_eq_some_iff {l : Assoc V} (h : l.keys.Nodup) (key : String) (value : V) :
    l.get? key = some value ↔ (key, value) ∈ l := by
  constructor
  · exact mem_of_get?
  · intro hmem
    induction l with
    | nil => cases hmem
    | cons p rest ih =>
      obtain ⟨k, v⟩ := p
      obtain ⟨hk, hrest⟩ := List.nodup_cons.1 h
      obtain heq | hmem := List.mem_cons.1 hmem
      · cases heq
        simp [get?]
      · have hne : k ≠ key := by
          rintro rfl
          exact hk (List.mem_map.2 ⟨(k, value), hmem, rfl⟩)
        simpa [get?, hne] using ih hrest hmem

theorem length_upsert (l : Assoc V) (key : String) (value : V) :
    (l.upsert key value).length = if l.contains key then l.length else l.length + 1 := by
  have hlength (l : Assoc V) : l.length = l.keys.length := by simp [keys]
  rw [hlength (l.upsert key value), keys_upsert, hlength l]
  by_cases hmem : key ∈ l.keys
  · have hsome : l.contains key = true := (isSome_get? l key).2 hmem
    rw [if_pos hmem, if_pos hsome]
  · have hnone : ¬ l.contains key = true := mt (isSome_get? l key).1 hmem
    rw [if_neg hmem, if_neg hnone, List.length_append, List.length_singleton]

theorem ofList_append (pairs : List (String × V)) (key : String) (value : V) :
    ofList (pairs ++ [(key, value)]) = (ofList pairs).upsert key value := by
  simp [ofList, List.foldl_append]

/-- Distinct entries, set one after the other, are the list they come from. -/
theorem ofList_of_nodup {l : Assoc V} (h : l.keys.Nodup) : ofList l = l := by
  induction l using List.reverseRecOn with
  | nil => rfl
  | append_singleton rest p ih =>
    have hkeys : ((keys rest).concat p.1).Nodup := by simpa [keys] using h
    obtain ⟨hp, hrest⟩ := (List.nodup_concat _ _).1 hkeys
    rw [ofList_append, ih hrest, upsert_of_not_mem hp]

end Assoc

namespace Dict

namespace Builder

/-- The index holds the position of every key, and of nothing else. -/
def Indexed (b : Builder V) : Prop :=
  ∀ (key : String) (i : Nat),
    b.index[key]? = some i ↔ (Assoc.keys b.entries.toList)[i]? = some key

theorem Indexed.nodup {b : Builder V} (h : b.Indexed) : (Assoc.keys b.entries.toList).Nodup := by
  rw [List.nodup_iff_getElem?_ne_getElem?]
  intro i j hij hj heq
  have hkey := List.getElem?_eq_getElem hj
  have hindex := (h _ j).2 hkey
  rw [(h _ i).2 (heq.trans hkey)] at hindex
  cases hindex
  omega

theorem Indexed.getElem?_eq_none {b : Builder V} (h : b.Indexed) {key : String} :
    b.index[key]? = none ↔ key ∉ Assoc.keys b.entries.toList := by
  rw [List.mem_iff_getElem?, Option.eq_none_iff_forall_ne_some]
  simp only [ne_eq, h key, not_exists]

theorem indexed_empty : Indexed ({} : Builder V) := by
  intro key i
  simp [Assoc.keys]

theorem indexed_ofEntries {es : Array (String × V)} (h : (Assoc.keys es.toList).Nodup) :
    (ofEntries es).Indexed := by
  intro key i
  have hpairs : (es.toList.zipIdx.map fun p => (p.1.1, p.2)) = (Assoc.keys es.toList).zipIdx := by
    rw [Assoc.keys, List.zipIdx_map]
    rfl
  have hdistinct : (Assoc.keys es.toList).zipIdx.Pairwise fun a b => (a.1 == b.1) = false := by
    have hfst : ((Assoc.keys es.toList).zipIdx.map Prod.fst).Nodup := by
      rw [List.zipIdx_map_fst]
      exact h
    exact (List.pairwise_map.1 hfst).imp fun hne => by simpa using hne
  -- a key that is at some position is recorded there
  have hrecorded (j : Nat) (hj : (Assoc.keys es.toList)[j]? = some key) :
      (ofEntries es).index[key]? = some j := by
    simp only [ofEntries, hpairs]
    exact Std.HashMap.getElem?_ofList_of_mem (beq_self_eq_true key) hdistinct
      (List.mk_mem_zipIdx_iff_getElem?.2 hj)
  constructor
  · intro hindex
    have hmem : key ∈ Assoc.keys es.toList := by
      by_contra hnot
      have hnone : (ofEntries es).index[key]? = none := by
        simp only [ofEntries, hpairs]
        refine Std.HashMap.getElem?_ofList_of_contains_eq_false ?_
        rw [List.zipIdx_map_fst]
        simpa using hnot
      rw [hnone] at hindex
      cases hindex
    obtain ⟨j, hj⟩ := List.mem_iff_getElem?.1 hmem
    rw [hrecorded j hj] at hindex
    cases hindex
    exact hj
  · exact hrecorded i

/-- Setting a key at its recorded position, or else at the end, sets it in the list. -/
theorem Indexed.toList_add {b : Builder V} (h : b.Indexed) (key : String) (value : V) :
    (b.add key value).entries.toList = Assoc.upsert b.entries.toList key value := by
  cases hi : b.index[key]? with
  | none =>
    have hmem := h.getElem?_eq_none.1 hi
    simp [add, hi, Assoc.upsert_of_not_mem hmem]
  | some i =>
    have hat := (h key i).1 hi
    simp [add, hi, Assoc.upsert_eq_set h.nodup hat]

theorem Indexed.add {b : Builder V} (h : b.Indexed) (key : String) (value : V) :
    (b.add key value).Indexed := by
  intro other j
  rw [h.toList_add, Assoc.keys_upsert]
  cases hi : b.index[key]? with
  | none =>
    have hmem := h.getElem?_eq_none.1 hi
    have hsize : b.entries.size = (Assoc.keys b.entries.toList).length := by simp [Assoc.keys]
    have hold : (Assoc.keys b.entries.toList)[j]? ≠ some key :=
      fun hj => hmem (List.mem_of_getElem? hj)
    have hfound := h other j
    simp only [Builder.add, hi, if_neg hmem, Std.HashMap.getElem?_insert, hsize]
    -- the new position is the one after the last
    by_cases hother : key = other <;> grind
  | some i =>
    have hmem : key ∈ Assoc.keys b.entries.toList := List.mem_of_getElem? ((h key i).1 hi)
    simp only [Builder.add, hi, if_pos hmem]
    exact h other j

theorem Indexed.addAll {b : Builder V} (h : b.Indexed) (pairs : List (String × V)) :
    (b.addAll pairs).Indexed ∧ (b.addAll pairs).entries.toList =
      pairs.foldl (fun l p => Assoc.upsert l p.1 p.2) b.entries.toList := by
  induction pairs generalizing b with
  | nil => exact ⟨h, rfl⟩
  | cons p rest ih =>
    have hrest := ih (h.add p.1 p.2)
    rw [h.toList_add] at hrest
    exact hrest

end Builder

/-- Keys are distinct, the index is right, and a layer knows how many entries and layers there
are. -/
def Sound : Dict V → Prop
  | .plain es => (Assoc.keys es).Nodup
  | .indexed es index => Builder.Indexed ⟨es, index⟩
  | .layer key value below size depth =>
    below.Sound ∧ size = (below.entries.upsert key value).length ∧ depth = below.depth + 1 ∧
      depth ≤ maxDepth

theorem entries_eq_builder (d : Dict V) : d.entries = d.builder.entries.toList := by
  unfold entries
  by_cases h : d.changes = []
  · simp [h, builder, Builder.addAll, Builder.ofEntries]
  · simp [h]

theorem Sound.nodup_base {d : Dict V} (h : d.Sound) : (Assoc.keys d.base.toList).Nodup := by
  induction d with
  | plain es => exact h
  | indexed es index => exact Builder.Indexed.nodup h
  | layer key value below size depth ih => exact ih h.1

theorem Sound.indexed_builder {d : Dict V} (h : d.Sound) : d.builder.Indexed :=
  ((Builder.indexed_ofEntries h.nodup_base).addAll d.changes).1

theorem Sound.nodup_keys {d : Dict V} (h : d.Sound) : d.keys.Nodup := by
  rw [keys, entries_eq_builder]
  exact h.indexed_builder.nodup

/-- A layer sets its key in what is listed below it. -/
theorem Sound.entries_layer {below : Dict V} (h : below.Sound) (key : String) (value : V)
    (size depth : Nat) :
    (layer key value below size depth).entries = below.entries.upsert key value := by
  have hbuilder : (layer key value below size depth).builder = below.builder.add key value := by
    simp [builder, changes, base, Builder.addAll, List.foldl_append]
  rw [entries_eq_builder, hbuilder, entries_eq_builder, h.indexed_builder.toList_add]

theorem Sound.get?_eq {d : Dict V} (h : d.Sound) (key : String) :
    d.get? key = d.entries.get? key := by
  induction d with
  | plain es => rfl
  | indexed es index =>
    have hentries : (indexed es index).entries = es.toList := rfl
    rw [hentries]
    cases hi : index[key]? with
    | none =>
      have hmem : key ∉ Assoc.keys es.toList := (Builder.Indexed.getElem?_eq_none h).1 hi
      have hnone := mt (Assoc.isSome_get? es.toList key).1 hmem
      simp only [Option.not_isSome_iff_eq_none] at hnone
      simp [get?, hi, hnone]
    | some i =>
      have hat : (Assoc.keys es.toList)[i]? = some key := (h key i).1 hi
      rw [Assoc.keys, List.getElem?_map] at hat
      obtain ⟨entry, hentry, rfl⟩ := Option.map_eq_some_iff.1 hat
      have hmem : (entry.1, entry.2) ∈ es.toList := List.mem_of_getElem? hentry
      rw [(Assoc.get?_eq_some_iff (Builder.Indexed.nodup h) _ _).2 hmem]
      simp only [Array.getElem?_toList] at hentry
      simp [get?, hi, hentry]
  | layer k v below size depth ih =>
    rw [h.1.entries_layer, Assoc.get?_upsert, get?, ih h.1]

theorem Sound.size_eq {d : Dict V} (h : d.Sound) : d.size = d.entries.length := by
  cases d with
  | plain es => rfl
  | indexed es index => rfl
  | layer key value below size depth =>
    rw [h.1.entries_layer]
    exact h.2.1

theorem Sound.depth_eq {d : Dict V} (h : d.Sound) : d.depth = d.changes.length := by
  induction d with
  | plain es => rfl
  | indexed es index => rfl
  | layer key value below size depth ih =>
    have hdepth : depth = below.depth + 1 := h.2.2.1
    have hbelow := ih h.1
    simp only [Dict.depth, changes, List.length_append, List.length_singleton]
    omega

theorem Sound.depth_le {d : Dict V} (h : d.Sound) : d.depth ≤ maxDepth := by
  cases d with
  | plain es => exact Nat.zero_le _
  | indexed es index => exact Nat.zero_le _
  | layer key value below size depth => exact h.2.2.2

/-- What the builder has at the end is right about its keys, and lists what the association list
lists. -/
theorem Builder.indexed_ofList (pairs : List (String × V)) :
    (Builder.ofList pairs).Indexed ∧ (Builder.ofList pairs).entries.toList = Assoc.ofList pairs :=
  Builder.indexed_empty.addAll pairs

/-- The dictionary of some pairs is in order, and lists what the association list lists. -/
theorem sound_ofList (pairs : List (String × V)) :
    (ofList pairs).Sound ∧ (ofList pairs).entries = Assoc.ofList pairs := by
  obtain ⟨hindexed, hentries⟩ := Builder.indexed_ofList pairs
  unfold ofList
  by_cases hmany : indexThreshold < (Builder.ofList pairs).entries.size
  · simp only [hmany, if_true]
    exact ⟨hindexed, hentries⟩
  · simp only [hmany, if_false]
    exact ⟨hindexed.nodup, by simpa [entries, changes, base] using hentries⟩

/-- A dictionary of few keys keeps no index. -/
theorem ofList_eq_plain {pairs : List (String × V)}
    (h : (Assoc.ofList pairs).length ≤ indexThreshold) :
    ofList pairs = .plain (Assoc.ofList pairs) := by
  have hentries := (Builder.indexed_ofList pairs).2
  have hfew : ¬ indexThreshold < (Builder.ofList pairs).entries.size := by
    rw [← Array.length_toList, hentries]
    exact Nat.not_lt.2 h
  simp only [ofList, hfew, if_false, hentries]

/-- Setting a key keeps a dictionary in order and sets the key in its list, as a layer or, where
there are too many layers, in a new list. -/
theorem Sound.put {d : Dict V} (h : d.Sound) (key : String) (value : V) :
    (d.put key value).Sound ∧ (d.put key value).entries = d.entries.upsert key value := by
  unfold Dict.put
  by_cases hdeep : maxDepth ≤ d.depth
  · rw [if_pos hdeep]
    have hflat : Assoc.ofList (d.entries ++ [(key, value)]) = d.entries.upsert key value := by
      rw [Assoc.ofList_append, Assoc.ofList_of_nodup h.nodup_keys]
    have hnew := sound_ofList (d.entries ++ [(key, value)])
    rw [hflat] at hnew
    exact hnew
  · rw [if_neg hdeep]
    have hcontains : d.contains key = d.entries.contains key := by
      rw [contains, Assoc.contains, h.get?_eq]
    refine ⟨⟨h, ?_, rfl, by omega⟩, h.entries_layer key value _ _⟩
    rw [Assoc.length_upsert, hcontains, h.size_eq]

/-- How one more dictionary comes about: from pairs, or by setting a key of an earlier one. -/
inductive Making (V : Type) where
  | ofPairs (pairs : List (String × V))
  | put (version : Nat) (key : String) (value : V)

namespace Making

variable {D E : Type}

/-- What comes about, given what was there before and how dictionaries of a kind are made. -/
def result (new : List (String × V) → D) (set : D → String → V → D) (made : List D) :
    Making V → Option D
  | .ofPairs pairs => some (new pairs)
  | .put version key value => made[version]?.map fun d => set d key value

/-- All that was made, the oldest first. -/
def all (new : List (String × V) → D) (set : D → String → V → D) (steps : List (Making V)) :
    List D :=
  steps.foldl (fun made step => made ++ (step.result new set made).toList) []

variable {new : List (String × V) → D} {set : D → String → V → D}

theorem all_append (steps : List (Making V)) (step : Making V) :
    all new set (steps ++ [step]) =
      all new set steps ++ (step.result new set (all new set steps)).toList := by
  simp [all, List.foldl_append]

theorem all_prefix (steps later : List (Making V)) :
    all new set steps <+: all new set (steps ++ later) := by
  induction later using List.reverseRecOn with
  | nil => simp
  | append_singleton later step ih =>
    rw [← List.append_assoc, all_append]
    exact ih.trans (List.prefix_append _ _)

end Making

/-- The dictionaries that some steps make. -/
def versions (steps : List (Making V)) : List (Dict V) := Making.all ofList put steps

/-- The association lists that the same steps make. -/
def listings (steps : List (Making V)) : List (Assoc V) :=
  Making.all Assoc.ofList Assoc.upsert steps

/-- One step makes the same of the dictionaries and of what they list. -/
theorem result_entries {made : List (Dict V)} (h : ∀ d ∈ made, d.Sound) (step : Making V) :
    (∀ d ∈ step.result ofList put made, d.Sound) ∧
      (step.result ofList put made).map entries =
        step.result Assoc.ofList Assoc.upsert (made.map entries) := by
  cases step with
  | ofPairs pairs =>
    have hnew := sound_ofList pairs
    simp [Making.result, hnew.1, hnew.2]
  | put version key value =>
    cases hd : made[version]? with
    | none => simp [Making.result, hd]
    | some d =>
      have hput := (h d (List.mem_of_getElem? hd)).put key value
      simp [Making.result, hd, hput.1, hput.2]

theorem versions_sound (steps : List (Making V)) :
    (∀ d ∈ versions steps, d.Sound) ∧ (versions steps).map entries = listings steps := by
  induction steps using List.reverseRecOn with
  | nil => simp [versions, listings, Making.all]
  | append_singleton steps step ih =>
    obtain ⟨hsound, hlist⟩ := ih
    obtain ⟨hnew, hresult⟩ := result_entries hsound step
    simp only [versions, listings, Making.all_append] at hsound hlist hnew hresult ⊢
    constructor
    · intro d hd
      obtain hd | hd := List.mem_append.1 hd
      · exact hsound d hd
      · exact hnew d (by simpa using hd)
    · rw [List.map_append, ← hlist, ← hresult]
      cases Making.result ofList put (Making.all ofList put steps) step <;> rfl

/-- Through any history of making dictionaries from pairs and setting keys of earlier ones, each
lists what the association list lists that was made by the same steps, so one that a key was set
of keeps its entries; keys are distinct, sizes and lookups agree with the entries, and no chain
has more than thirty-two layers. -/
theorem versions_faithful (steps later : List (Making V)) :
    (∀ pairs : List (String × V),
      (ofList pairs).entries = pairs.foldl (fun l p => Assoc.upsert l p.1 p.2) []) ∧
    (versions steps).map entries = listings steps ∧
    (versions steps).map entries <+: (versions (steps ++ later)).map entries ∧
    ∀ d ∈ versions steps,
      (∀ key value, (d.put key value).entries = d.entries.upsert key value) ∧
      d.keys.Nodup ∧ d.size = d.entries.length ∧
      (∀ key value, d.get? key = some value ↔ (key, value) ∈ d.entries) ∧
      d.depth = d.changes.length ∧ d.changes.length ≤ 32 := by
  obtain ⟨hsound, hlist⟩ := versions_sound steps
  refine ⟨fun pairs => (sound_ofList pairs).2, hlist, (Making.all_prefix steps later).map entries,
    fun d hd => ?_⟩
  have h := hsound d hd
  refine ⟨fun key value => (h.put key value).2, h.nodup_keys, h.size_eq, ?_, h.depth_eq, ?_⟩
  · intro key value
    rw [h.get?_eq, Assoc.get?_eq_some_iff h.nodup_keys]
  · rw [← h.depth_eq]
    exact h.depth_le

end Dict

end Formula
