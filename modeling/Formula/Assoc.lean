/-!
Association lists with distinct keys in order of insertion: the reference that every keyed
container of the library is read through. Setting a present key keeps its position.
-/
namespace Formula

/-- Pairs in order of insertion. -/
abbrev Assoc (V : Type) := List (String × V)

namespace Assoc

variable {V : Type}

def get? : Assoc V → String → Option V
  | [], _ => none
  | (k, v) :: rest, key => if k = key then some v else get? rest key

/-- Replaces the value at the key's position, or appends the pair. -/
def upsert : Assoc V → String → V → Assoc V
  | [], key, value => [(key, value)]
  | (k, v) :: rest, key, value =>
    if k = key then (k, value) :: rest else (k, v) :: upsert rest key value

/-- The pairs one after the other; of a repeated key the first position and the last value
remain. -/
def ofList (pairs : List (String × V)) : Assoc V :=
  pairs.foldl (fun l p => l.upsert p.1 p.2) []

def keys (l : Assoc V) : List String := l.map Prod.fst

def contains (l : Assoc V) (key : String) : Bool := (l.get? key).isSome

@[simp] theorem get?_nil (key : String) : get? ([] : Assoc V) key = none := rfl

theorem get?_upsert (l : Assoc V) (key other : String) (value : V) :
    (l.upsert key value).get? other = if key = other then some value else l.get? other := by
  induction l with
  | nil => simp [upsert, get?]
  | cons p rest ih =>
    obtain ⟨k, v⟩ := p
    by_cases h : k = key
    · subst h
      by_cases ho : k = other <;> simp [upsert, get?, ho]
    · by_cases ho : k = other
      · subst ho
        simp [upsert, get?, h, Ne.symm h]
      · simp [upsert, get?, h, ho, ih]

@[simp] theorem get?_upsert_self (l : Assoc V) (key : String) (value : V) :
    (l.upsert key value).get? key = some value := by
  simp [get?_upsert]

end Assoc

end Formula
