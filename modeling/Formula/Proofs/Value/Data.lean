import Formula.Proofs.Double.Widening
import Formula.Proofs.Value.Comparison

/-!
What values are, apart from where lists and maps are kept, and when two data are alike.

Numbers of different kinds are alike if their doubles are equal, and two integers only if they are
the same. So being alike is symmetric, but it is transitive only as far as no float stands between
two integers that are rounded to the same double: such data are confused, and all others that are
alike in two steps are alike. Integers of at most 53 digits are never confused.
-/
namespace Formula

/-- What a value is, whichever lists and maps hold it: a list is its course, a map is what it has
under its keys, and a function is itself. -/
inductive Datum where
  | int (n : Int64)
  | float (x : Float)
  | bool (b : Bool)
  | str (t : String)
  | closure (id : Identity)
  | list (μ : Course Datum)
  | map (lookup : String → Option Datum)

/-- Data of different forms are never alike. -/
inductive Form where
  | number | bool | str | closure | list | map

namespace Datum

def form : Datum → Form
  | .int _ | .float _ => .number
  | .bool _ => .bool
  | .str _ => .str
  | .closure _ => .closure
  | .list _ => .list
  | .map _ => .map

variable {A : Datum → Datum → Prop}

/-- There is no NaN, no list that fails, and no nesting deeper than this. -/
def Plain : Nat → Datum → Prop
  | _, .float x => x.isNaN = false
  | 0, .list _ => False
  | 0, .map _ => False
  | n + 1, .list μ => μ.ending = none ∧ ∀ d ∈ μ.items, Plain n d
  | n + 1, .map f => ∀ key d, f key = some d → Plain n d
  | _, _ => True

/-- One step of a comparison, given which items and values are alike. -/
inductive Step (A : Datum → Datum → Prop) : Datum → Datum → Prop where
  | int (n : Int64) : Step A (.int n) (.int n)
  | widenLeft {n : Int64} {y : Float} (h : (Double.ofInt64 n == y) = true) :
    Step A (.int n) (.float y)
  | widenRight {x : Float} {n : Int64} (h : (x == Double.ofInt64 n) = true) :
    Step A (.float x) (.int n)
  | float {x y : Float} (h : (x == y) = true) : Step A (.float x) (.float y)
  | bool (b : Bool) : Step A (.bool b) (.bool b)
  | str (t : String) : Step A (.str t) (.str t)
  | closure (id : Identity) : Step A (.closure id) (.closure id)
  | list {μ ν : Course Datum} (h : ∀ i : ℕ, Option.Rel A μ.items[i]? ν.items[i]?) :
    Step A (.list μ) (.list ν)
  | map {f g : String → Option Datum} (h : ∀ key, Option.Rel A (f key) (g key)) :
    Step A (.map f) (.map g)

/-- Alike, looked at so deep. -/
def Alike : Nat → Datum → Datum → Prop
  | 0 => Step fun _ _ => False
  | n + 1 => Step (Alike n)

/-- Somewhere in the three, a float stands between two different integers that are rounded to the
same number. -/
inductive Confused : Datum → Datum → Datum → Prop where
  | number {m n : Int64} {x : Float} (hne : m ≠ n)
      (hrounded : Double.nearest m.toInt = Double.nearest n.toInt) :
    Confused (.int m) (.float x) (.int n)
  | item {μ ν ξ : Course Datum} (i : ℕ) {a b c : Datum} (ha : μ.items[i]? = some a)
      (hb : ν.items[i]? = some b) (hc : ξ.items[i]? = some c) (h : Confused a b c) :
    Confused (.list μ) (.list ν) (.list ξ)
  | value {f g h : String → Option Datum} (key : String) {a b c : Datum} (ha : f key = some a)
      (hb : g key = some b) (hc : h key = some c) (habc : Confused a b c) :
    Confused (.map f) (.map g) (.map h)

/-- The integer is somewhere in the datum. -/
inductive Occurs (n : Int64) : Datum → Prop where
  | here : Occurs n (.int n)
  | item {μ : Course Datum} (i : ℕ) {d : Datum} (hd : μ.items[i]? = some d) (h : Occurs n d) :
    Occurs n (.list μ)
  | value {f : String → Option Datum} (key : String) {d : Datum} (hd : f key = some d)
      (h : Occurs n d) : Occurs n (.map f)

theorem Step.form_eq {d e : Datum} (h : Step A d e) : d.form = e.form := by
  cases h <;> rfl

section

variable {a b : Int64} {x y : Float}

theorem step_int : Step A (.int a) (.int b) ↔ a = b :=
  ⟨by rintro ⟨⟩; rfl, by rintro rfl; exact .int a⟩

theorem step_widenLeft : Step A (.int a) (.float y) ↔ (Double.ofInt64 a == y) = true :=
  ⟨by rintro ⟨⟩; assumption, .widenLeft⟩

theorem step_widenRight : Step A (.float x) (.int b) ↔ (x == Double.ofInt64 b) = true :=
  ⟨by rintro ⟨⟩; assumption, .widenRight⟩

theorem step_float : Step A (.float x) (.float y) ↔ (x == y) = true :=
  ⟨by rintro ⟨⟩; assumption, .float⟩

theorem step_bool {a b : Bool} : Step A (.bool a) (.bool b) ↔ a = b :=
  ⟨by rintro ⟨⟩; rfl, by rintro rfl; exact .bool a⟩

theorem step_str {a b : String} : Step A (.str a) (.str b) ↔ a = b :=
  ⟨by rintro ⟨⟩; rfl, by rintro rfl; exact .str a⟩

theorem step_closure {a b : Identity} : Step A (.closure a) (.closure b) ↔ a = b :=
  ⟨by rintro ⟨⟩; rfl, by rintro rfl; exact .closure a⟩

theorem step_list {μ ν : Course Datum} :
    Step A (.list μ) (.list ν) ↔ ∀ i : ℕ, Option.Rel A μ.items[i]? ν.items[i]? :=
  ⟨by rintro ⟨⟩; assumption, .list⟩

theorem step_map {f g : String → Option Datum} :
    Step A (.map f) (.map g) ↔ ∀ key, Option.Rel A (f key) (g key) :=
  ⟨by rintro ⟨⟩; assumption, .map⟩

end

theorem Step.symm (hA : ∀ d e, A d e → A e d) {d e : Datum} (h : Step A d e) : Step A e d := by
  cases h with
  | int n => exact .int n
  | widenLeft h => exact .widenRight (Double.beq_symm h)
  | widenRight h => exact .widenLeft (Double.beq_symm h)
  | float h => exact .float (Double.beq_symm h)
  | bool b => exact .bool b
  | str t => exact .str t
  | closure id => exact .closure id
  | list h => exact .list fun i => rel_swap (fun a b _ _ => hA a b) (h i)
  | map h => exact .map fun key => rel_swap (fun a b _ _ => hA a b) (h key)

theorem Alike.symm {n : Nat} {d e : Datum} (h : Alike n d e) : Alike n e d := by
  induction n generalizing d e with
  | zero => exact Step.symm (fun _ _ hfalse => hfalse) h
  | succ n ih => exact Step.symm (fun _ _ hde => ih hde) h

/-- Three that are alike in pairs but for the outer two are confused. -/
theorem rel_trans_iff {x y z : Option Datum} (hxy : Option.Rel A x y) (hyz : Option.Rel A y z)
    (hA : ∀ a b c, A a b → A b c → (A a c ↔ ¬ Confused a b c)) :
    Option.Rel A x z ↔ ∀ a b c, x = some a → y = some b → z = some c → ¬ Confused a b c := by
  cases hxy with
  | none =>
    cases hyz
    simp
  | some hab =>
    cases hyz with
    | some hbc =>
      have hiff := hA _ _ _ hab hbc
      constructor
      · rintro (hac | _) _ _ _ ⟨⟩ ⟨⟩ ⟨⟩
        exact hiff.1 hac
      · intro h
        exact .some (hiff.2 (h _ _ _ rfl rfl rfl))

/-- Two integers that are both equal to a float are rounded alike. -/
theorem confused_iff_ne {m n : Int64} {x : Float} (hm : (Double.ofInt64 m == x) = true)
    (hn : (x == Double.ofInt64 n) = true) : Confused (.int m) (.float x) (.int n) ↔ m ≠ n := by
  constructor
  · rintro ⟨hne, -⟩
    exact hne
  · intro hne
    exact .number hne (Double.nearest_eq_of_beq (Double.beq_trans hm hn))

theorem Step.trans_iff (hA : ∀ a b c, A a b → A b c → (A a c ↔ ¬ Confused a b c))
    {d e f : Datum} (h : Step A d e) (h' : Step A e f) : Step A d f ↔ ¬ Confused d e f := by
  cases h with
  | int | bool | str | closure => exact iff_of_true h' (by rintro ⟨⟩)
  | widenLeft h =>
    cases h' with
    | widenRight h' =>
      rw [confused_iff_ne h h', not_not, step_int]
    | float h' => exact iff_of_true (.widenLeft (Double.beq_trans h h')) (by rintro ⟨⟩)
  | widenRight h =>
    cases h' with
    | int n => exact iff_of_true (.widenRight h) (by rintro ⟨⟩)
    | widenLeft h' => exact iff_of_true (.float (Double.beq_trans h h')) (by rintro ⟨⟩)
  | float h =>
    cases h' with
    | widenRight h' => exact iff_of_true (.widenRight (Double.beq_trans h h')) (by rintro ⟨⟩)
    | float h' => exact iff_of_true (.float (Double.beq_trans h h')) (by rintro ⟨⟩)
  | list h =>
    cases h' with
    | list h' =>
      rw [step_list]
      constructor
      · intro hrel hconfused
        cases hconfused with
        | item i ha hb hc hconfused =>
          exact (rel_trans_iff (h i) (h' i) hA).1 (hrel i) _ _ _ ha hb hc hconfused
      · intro hclear i
        refine (rel_trans_iff (h i) (h' i) hA).2 fun a b c ha hb hc hconfused => ?_
        exact hclear (.item i ha hb hc hconfused)
  | map h =>
    cases h' with
    | map h' =>
      rw [step_map]
      constructor
      · intro hrel hconfused
        cases hconfused with
        | value key ha hb hc hconfused =>
          exact (rel_trans_iff (h key) (h' key) hA).1 (hrel key) _ _ _ ha hb hc hconfused
      · intro hclear key
        refine (rel_trans_iff (h key) (h' key) hA).2 fun a b c ha hb hc hconfused => ?_
        exact hclear (.value key ha hb hc hconfused)

/-- Only three that are confused are not alike throughout. -/
theorem Alike.trans_iff {n : Nat} {d e f : Datum} (h : Alike n d e) (h' : Alike n e f) :
    Alike n d f ↔ ¬ Confused d e f := by
  induction n generalizing d e f with
  | zero => exact Step.trans_iff (fun _ _ _ hfalse => hfalse.elim) h h'
  | succ n ih => exact Step.trans_iff (fun _ _ _ => ih) h h'

/-- To be confused takes an integer of more than 53 digits. -/
theorem Confused.exists_large {d e f : Datum} (h : Confused d e f) :
    ∃ m n, Occurs m d ∧ Occurs n f ∧ (2 ^ 53 < m.toInt.natAbs ∨ 2 ^ 53 < n.toInt.natAbs) := by
  induction h with
  | @number m n x hne hrounded =>
    refine ⟨m, n, .here, .here, ?_⟩
    by_contra hsmall
    rw [not_or, not_lt, not_lt] at hsmall
    rw [Double.nearest_eq_self hsmall.1, Double.nearest_eq_self hsmall.2] at hrounded
    exact hne (Int64.toInt_inj.1 hrounded)
  | item i ha _ hc _ ih =>
    obtain ⟨m, n, hm, hn, hlarge⟩ := ih
    exact ⟨m, n, .item i ha hm, .item i hc hn, hlarge⟩
  | value key ha _ hc _ ih =>
    obtain ⟨m, n, hm, hn, hlarge⟩ := ih
    exact ⟨m, n, .value key ha hm, .value key hc hn, hlarge⟩

end Datum

end Formula
