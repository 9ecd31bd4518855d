/-!
Stable merge sort with a comparison that may have effects or fail. The list is halved, the
left half sorted before the right one, and of two heads the right one is taken only if it is
strictly less.
-/
namespace Formula
namespace Sequence

variable {M : Type → Type} [Monad M] {α : Type}

def merge (less : α → α → M Bool) : List α → List α → M (List α)
  | [], right => pure right
  | left, [] => pure left
  | a :: left, b :: right => do
    if ← less b a then return b :: (← merge less (a :: left) right)
    else return a :: (← merge less left (b :: right))
termination_by left right => left.length + right.length

def sort (less : α → α → M Bool) (items : List α) : M (List α) := do
  if h : items.length ≤ 1 then return items
  else
    let left ← sort less (items.take (items.length / 2))
    let right ← sort less (items.drop (items.length / 2))
    merge less left right
termination_by items.length
decreasing_by all_goals simp only [List.length_take, List.length_drop]; omega

end Sequence

end Formula
