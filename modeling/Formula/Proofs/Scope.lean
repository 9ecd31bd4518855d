import Formula.Scope

/-!
Looking names up: in association lists, and in scopes that bind parameters.
-/
namespace Formula

theorem Assoc.mem_of_get? {V : Type} {l : Assoc V} {key : String} {v : V} (h : l.get? key = some v) :
    (key, v) ∈ l := by
  induction l with
  | nil => cases h
  | cons p rest ih =>
    obtain ⟨k, w⟩ := p
    by_cases hk : k = key
    · subst hk
      simp only [get?, if_true] at h
      cases h
      exact List.mem_cons_self
    · simp only [get?, if_neg hk] at h
      exact List.mem_cons_of_mem _ (ih h)

namespace Scope

variable {V R : Type}

theorem bindParams_cons (s : Scope V R) (p : String) (ps : List String) (a : V) (as : List V) :
    s.bindParams (p :: ps) (a :: as) = (s.bind p a).bindParams ps as := rfl

theorem find?_bindParams_of_not_mem (s : Scope V R) {ps : List String} (as : List V) {name : String}
    (h : name ∉ ps) : (s.bindParams ps as).find? name = s.find? name := by
  induction ps generalizing s as with
  | nil => rfl
  | cons p ps ih =>
    obtain ⟨hp, hps⟩ := List.ne_and_not_mem_of_not_mem_cons h
    cases as with
    | nil => rfl
    | cons a as =>
      rw [bindParams_cons, ih _ _ hps]
      exact find?_bind_other s (Ne.symm hp) a

/-- A parameter is found at its argument, if no other one has its name. -/
theorem find?_bindParams (s : Scope V R) {ps : List String} {as : List V} {name : String} {i : Nat}
    {v : V} (hnodup : ps.Nodup) (hi : ps.idxOf? name = some i) (hv : as[i]? = some v) :
    (s.bindParams ps as).find? name = some (.value v) := by
  induction ps generalizing s as i with
  | nil => cases hi
  | cons p ps ih =>
    obtain ⟨hp, hps⟩ := List.nodup_cons.1 hnodup
    cases as with
    | nil => cases hv
    | cons a as =>
      rw [bindParams_cons]
      by_cases hn : p = name
      · subst hn
        have hzero : i = 0 := by simpa [List.idxOf?_cons] using hi.symm
        subst hzero
        cases hv
        rw [find?_bindParams_of_not_mem _ _ hp, find?_bind_self]
      · rw [List.idxOf?_cons, if_neg (by simpa using hn)] at hi
        obtain ⟨j, hj, rfl⟩ := Option.map_eq_some_iff.1 hi
        exact ih _ hps hj hv

end Scope

end Formula
