import Formula.Sequence.Ops
import Mathlib.Data.List.Induction

/-!
Groups as they fill up. The groups stand in an array that grows, and an index says where the group of
a key is. After any number of additions the keys are those that were added, each once and in the order
in which they came first; every group has just the values of its key, in the order in which they came;
and the index knows the place of every group and no other.
-/
namespace Formula
namespace Sequence

variable {H : Type}

/-- The values of one key, in order. -/
def members (key : GroupKey) (kvs : List (GroupKey × Value H)) : List (Value H) :=
  (kvs.filter fun p => p.1 = key).map Prod.snd

theorem members_concat (key : GroupKey) (kvs : List (GroupKey × Value H)) (k : GroupKey)
    (v : Value H) :
    members key (kvs ++ [(k, v)]) = if k = key then members key kvs ++ [v] else members key kvs := by
  by_cases hk : k = key <;> simp [members, hk]

theorem members_eq_nil {key : GroupKey} {kvs : List (GroupKey × Value H)}
    (h : key ∉ kvs.map Prod.fst) : members key kvs = [] := by
  have hnone : ∀ p ∈ kvs, ¬p.1 = key := fun p hp hk => h (List.mem_map.2 ⟨p, hp, hk⟩)
  simp only [members, List.map_eq_nil_iff, List.filter_eq_nil_iff, decide_eq_true_eq]
  exact hnone

theorem eraseDups_concat (ks : List GroupKey) (k : GroupKey) :
    (ks ++ [k]).eraseDups = if k ∈ ks then ks.eraseDups else ks.eraseDups ++ [k] := by
  rw [List.eraseDups_append]
  by_cases hk : k ∈ ks <;> simp [List.removeAll, List.eraseDups_cons, hk]

namespace Groups

/-- The groups of values that were added one after the other. -/
structure Sorts (g : Groups H) (kvs : List (GroupKey × Value H)) : Prop where
  keys : g.entries.toList.map Prod.fst = (kvs.map Prod.fst).eraseDups
  members : ∀ p ∈ g.entries.toList, p.2.toList = members p.1 kvs
  index : ∀ (k : GroupKey) (i : Nat), g.index[k]? = some i ↔ (g.entries.toList.map Prod.fst)[i]? = some k

theorem sorts_empty : ({} : Groups H).Sorts [] where
  keys := rfl
  members p hp := by cases hp
  index k i := by simp

variable {g : Groups H} {kvs : List (GroupKey × Value H)} {key : GroupKey}

theorem Sorts.mem_iff (h : g.Sorts kvs) :
    key ∈ kvs.map Prod.fst ↔ ∃ i, g.index[key]? = some i := by
  rw [← List.mem_eraseDups, ← h.keys, List.mem_iff_getElem?]
  exact exists_congr fun i => (h.index key i).symm

/-- A further value of a key that has a group. -/
theorem Sorts.extend (h : g.Sorts kvs) {i : Nat} (hi : g.index[key]? = some i) (v : Value H) :
    Sorts { g with entries := g.entries.modify i fun p => (p.1, p.2.push v) }
      (kvs ++ [(key, v)]) := by
  have hkeys : (g.entries.modify i fun p => (p.1, p.2.push v)).toList.map Prod.fst =
      g.entries.toList.map Prod.fst := by
    refine List.ext_getElem? fun j => ?_
    rw [Array.toList_modify, List.getElem?_map, List.getElem?_modify, List.getElem?_map,
      Option.map_eq_map, Option.map_map]
    refine congrArg (fun f => Option.map f g.entries.toList[j]?) (funext fun p => ?_)
    by_cases hij : i = j <;> simp [hij]
  refine ⟨?_, fun p hp => ?_, fun k j => ?_⟩
  · rw [hkeys, h.keys, List.map_append]
    exact ((eraseDups_concat _ key).trans (if_pos (h.mem_iff.2 ⟨i, hi⟩))).symm
  · rw [Array.toList_modify] at hp
    obtain ⟨j, hj⟩ := List.mem_iff_getElem?.1 hp
    rw [List.getElem?_modify] at hj
    obtain ⟨q, hq, rfl⟩ := Option.map_eq_some_iff.1 hj
    have hmembers := h.members q (List.mem_of_getElem? hq)
    have hqkey : g.index[q.1]? = some j := (h.index q.1 j).2 (by rw [List.getElem?_map, hq]; rfl)
    -- the index gives one place to a key, so only the group at `i` has this key
    rw [members_concat]
    by_cases hij : i = j
    · subst hij
      have hkey : key = q.1 := by
        have hplace := (h.index key i).1 hi
        rw [(h.index q.1 i).1 hqkey] at hplace
        exact (Option.some.inj hplace).symm
      rw [if_pos rfl, if_pos hkey, Array.toList_push, hmembers]
    · have hkey : key ≠ q.1 := by
        rintro rfl
        rw [hi] at hqkey
        exact hij (Option.some.inj hqkey)
      rw [if_neg hij, if_neg hkey]
      exact hmembers
  · rw [hkeys]
    exact h.index k j

/-- The first value of a key. -/
theorem Sorts.open (h : g.Sorts kvs) (hkey : g.index[key]? = none) (v : Value H) :
    Sorts ⟨g.entries.push (key, #[v]), g.index.insert key g.entries.size⟩ (kvs ++ [(key, v)]) := by
  have hnot : key ∉ kvs.map Prod.fst := fun hmem => by
    obtain ⟨i, hi⟩ := h.mem_iff.1 hmem
    rw [hkey] at hi
    cases hi
  have hkeys : (g.entries.push (key, #[v])).toList.map Prod.fst =
      g.entries.toList.map Prod.fst ++ [key] := by simp
  refine ⟨?_, fun p hp => ?_, fun k i => ?_⟩
  · rw [hkeys, h.keys, List.map_append]
    exact ((eraseDups_concat _ key).trans (if_neg hnot)).symm
  · rw [members_concat]
    rw [Array.toList_push] at hp
    obtain hp | hp := List.mem_append.1 hp
    · have hp' : p.1 ∈ kvs.map Prod.fst := by
        rw [← List.mem_eraseDups, ← h.keys]
        exact List.mem_map_of_mem hp
      have hne : key ≠ p.1 := fun he => hnot (he ▸ hp')
      rw [if_neg hne]
      exact h.members p hp
    · cases List.mem_singleton.1 hp
      rw [if_pos rfl, members_eq_nil hnot]
      rfl
  · rw [hkeys, Std.HashMap.getElem?_insert, List.getElem?_append, List.length_map,
      Array.length_toList]
    have hold : (g.entries.toList.map Prod.fst)[i]? ≠ some key := fun hi => by
      rw [← h.index, hkey] at hi
      cases hi
    have hlast : [key][i - g.entries.size]? = some k ↔ i - g.entries.size = 0 ∧ key = k := by
      cases i - g.entries.size <;> simp
    by_cases hlt : i < g.entries.size
    · rw [if_pos hlt]
      by_cases hk : key = k
      · subst hk
        simp only [beq_self_eq_true, if_true, hold, iff_false, Option.some.injEq]
        omega
      · rw [if_neg (by simpa using hk)]
        exact h.index k i
    · rw [if_neg hlt, hlast]
      by_cases hk : key = k
      · subst hk
        simp only [beq_self_eq_true, if_true, Option.some.injEq, and_true]
        omega
      · rw [if_neg (by simpa using hk), h.index,
          List.getElem?_eq_none (by simpa using Nat.le_of_not_lt hlt)]
        simp [hk]

/-- Adding a value adds it to the values that the groups sort. -/
theorem Sorts.add (h : g.Sorts kvs) (key : GroupKey) (v : Value H) :
    (g.add key v).Sorts (kvs ++ [(key, v)]) := by
  unfold Groups.add
  cases hi : g.index[key]? with
  | some i => exact h.extend hi v
  | none => exact h.open hi v

end Groups

end Sequence

end Formula
