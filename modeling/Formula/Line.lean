/-!
Source lines. Line zero means that whoever built the tree recorded no position, so a known
line always has a positive number.
-/
namespace Formula

structure Line where
  number : Nat
  deriving DecidableEq, Repr, Inhabited

namespace Line

def unknown : Line := ⟨0⟩

def known (l : Line) : Bool := 0 < l.number

def get? (l : Line) : Option Nat := if l.known then some l.number else none

/-- The first line, or the second where the first is unknown. -/
def or (l other : Line) : Line := if l.known then l else other

instance : LT Line := ⟨fun a b => a.number < b.number⟩

instance (a b : Line) : Decidable (a < b) := inferInstanceAs (Decidable (a.number < b.number))

def text (l : Line) : String :=
  match l.get? with
  | some n => "line " ++ toString n
  | none => "unknown line"

@[simp] theorem known_unknown : unknown.known = false := rfl
@[simp] theorem unknown_or (l : Line) : unknown.or l = l := rfl

theorem or_of_known {l : Line} (h : l.known = true) (other : Line) : l.or other = l := by
  simp [or, h]

end Line

end Formula
