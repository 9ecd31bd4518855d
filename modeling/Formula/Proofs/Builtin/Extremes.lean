import Formula.Dialect.Standard
import Formula.Evaluation
import Formula.Proofs.Builtin.Regrouping
import Formula.Proofs.Double.Ordering
import Mathlib.Data.Finset.Max
import Mathlib.Data.List.Perm.Basic

/-!
The least and the greatest of some integers. `min` and `max` keep one of their arguments, but
compare them as doubles. Of those that are rounded to the same double as the true extremum they
return the first; so the result is exact if that one is the extremum, and in every order of the
arguments if no other argument is rounded to the same double.
-/
namespace Formula

open Double (nearest ofInt64)

variable {H W : Type}

inductive Extremum where
  | least | greatest

namespace Extremum

def function : Extremum → StandardFn
  | .least => .min
  | .greatest => .max

/-- The first is at least as good as the second. -/
def le : Extremum → ℤ → ℤ → Prop
  | .least, a, b => a ≤ b
  | .greatest, a, b => b ≤ a

instance (e : Extremum) (a b : ℤ) : Decidable (e.le a b) :=
  match e with
  | .least => inferInstanceAs (Decidable (a ≤ b))
  | .greatest => inferInstanceAs (Decidable (b ≤ a))

/-- The better the smaller. -/
def key : Extremum → ℤ → ℤ
  | .least, z => z
  | .greatest, z => -z

theorem le_iff_key {e : Extremum} {a b : ℤ} : e.le a b ↔ e.key a ≤ e.key b := by
  cases e <;> simp [le, key]

theorem key_inj {e : Extremum} {a b : ℤ} : e.key a = e.key b ↔ a = b := by
  cases e <;> simp [key]

/-- Rounding keeps the better one from being the worse. -/
theorem key_nearest_le {e : Extremum} {a b : ℤ} (h : e.le a b) :
    e.key (nearest a) ≤ e.key (nearest b) := by
  cases e with
  | least => exact Double.nearest_mono h
  | greatest => exact neg_le_neg (Double.nearest_mono h)

/-- An argument that no other one beats. -/
structure IsBest (e : Extremum) (args : List Int64) (n : Int64) : Prop where
  mem : n ∈ args
  le : ∀ a ∈ args, e.le n.toInt a.toInt

theorem IsBest.unique {e : Extremum} {args : List Int64} {m n : Int64} (hm : IsBest e args m)
    (hn : IsBest e args n) : m = n := by
  have hmn := le_iff_key.1 (hm.le n hn.mem)
  have hnm := le_iff_key.1 (hn.le m hm.mem)
  exact Int64.toInt_inj.1 (key_inj.1 (le_antisymm hmn hnm))

theorem exists_isBest (e : Extremum) {args : List Int64} (h : args ≠ []) :
    ∃ n, IsBest e args n := by
  obtain ⟨a, rest, rfl⟩ := List.exists_cons_of_ne_nil h
  obtain ⟨n, hn, hle⟩ := (a :: rest).toFinset.exists_min_image (e.key ·.toInt)
    ⟨a, List.mem_toFinset.2 List.mem_cons_self⟩
  exact ⟨n, List.mem_toFinset.1 hn, fun b hb => le_iff_key.2 (hle b (List.mem_toFinset.2 hb))⟩

/-- Strictly better than all before it and no worse than all after it. -/
def FirstLeast (key : Int64 → ℤ) (args : List Int64) (k : Int64) : Prop :=
  ∃ before after, args = before ++ k :: after ∧ (∀ a ∈ before, key k < key a) ∧
    ∀ a ∈ after, key k ≤ key a

section FirstLeast

variable {key : Int64 → ℤ} {args rest : List Int64} {held k v : Int64}

theorem FirstLeast.mem (h : FirstLeast key args k) : k ∈ args := by
  obtain ⟨before, after, rfl, -, -⟩ := h
  simp

theorem FirstLeast.le (h : FirstLeast key args k) : ∀ a ∈ args, key k ≤ key a := by
  obtain ⟨before, after, rfl, hbefore, hafter⟩ := h
  exact List.forall_mem_append.2
    ⟨fun a ha => (hbefore a ha).le, List.forall_mem_cons.2 ⟨le_rfl, hafter⟩⟩

theorem FirstLeast.find? (h : FirstLeast key args k) {p : Int64 → Bool}
    (hp : ∀ a ∈ args, p a = true ↔ key a = key k) : args.find? p = some k := by
  obtain ⟨before, after, rfl, hbefore, -⟩ := h
  rw [List.find?_eq_some_iff_append]
  refine ⟨(hp k (by simp)).2 rfl, before, after, rfl, fun a ha => ?_⟩
  have hne := (hbefore a ha).ne'
  simpa using mt (hp a (by simp [ha])).1 hne

/-- A better argument takes the place of the one that was held. -/
theorem FirstLeast.replace (h : FirstLeast key (v :: rest) k) (hv : key v < key held) :
    FirstLeast key (held :: v :: rest) k := by
  have hk : key k < key held := (h.le v List.mem_cons_self).trans_lt hv
  obtain ⟨before, after, hsplit, hbefore, hafter⟩ := h
  exact ⟨held :: before, after, by rw [hsplit]; rfl, List.forall_mem_cons.2 ⟨hk, hbefore⟩, hafter⟩

/-- One that is not better changes nothing. -/
theorem FirstLeast.skip (h : FirstLeast key (held :: rest) k) (hv : key held ≤ key v) :
    FirstLeast key (held :: v :: rest) k := by
  obtain ⟨before, after, hsplit, hbefore, hafter⟩ := h
  cases before with
  | nil =>
    cases hsplit
    exact ⟨[], v :: rest, rfl, hbefore, List.forall_mem_cons.2 ⟨hv, hafter⟩⟩
  | cons b before =>
    cases hsplit
    obtain ⟨hheld, hbefore⟩ := List.forall_mem_cons.1 hbefore
    refine ⟨held :: v :: before, after, rfl, ?_, hafter⟩
    exact List.forall_mem_cons.2 ⟨hheld, List.forall_mem_cons.2 ⟨hheld.trans_le hv, hbefore⟩⟩

end FirstLeast

/-- The loop ends with the first of the best, if it compares doubles as `key` compares integers. -/
theorem best_firstLeast {name : String} {better : Float → Float → Bool} {key : Int64 → ℤ}
    (hbetter : ∀ m n, better (ofInt64 m) (ofInt64 n) = true ↔ key m < key n) (held : Int64)
    (rest : List Int64) :
    ∃ k, Builtin.best name better (.int held : Value H) (ofInt64 held) (rest.map .int) =
      .ok (.int k) ∧ FirstLeast key (held :: rest) k := by
  induction rest generalizing held with
  | nil => exact ⟨held, rfl, [], [], rfl, by simp, by simp⟩
  | cons v rest ih =>
    have hstep : Builtin.best name better (.int held : Value H) (ofInt64 held)
        ((v :: rest).map .int) =
      if better (ofInt64 v) (ofInt64 held) = true
        then Builtin.best name better (.int v) (ofInt64 v) (rest.map .int)
        else Builtin.best name better (.int held) (ofInt64 held) (rest.map .int) := rfl
    rw [hstep]
    by_cases hv : key v < key held
    · rw [if_pos ((hbetter v held).2 hv)]
      obtain ⟨k, hk, hfirst⟩ := ih v
      exact ⟨k, hk, hfirst.replace hv⟩
    · rw [if_neg (mt (hbetter v held).1 hv)]
      obtain ⟨k, hk, hfirst⟩ := ih held
      exact ⟨k, hk, hfirst.skip (not_lt.1 hv)⟩

/-- Calling the function of the standard dialect with these integers returns `n` and leaves the
store alone. -/
def Returns (e : Extremum) (m : Machine H W) (s : Store H W) (args : List Int64) (n : Int64) :
    Prop :=
  ∃ f, (Dialect.standard : Dialect H).function? e.function.name = some f ∧
    Evaluation.invoke m f (args.map .int) s = .ok (.int n) s

/-- How the two functions compare doubles. -/
def better : Extremum → Float → Float → Bool
  | .least, x, y => x < y
  | .greatest, x, y => x > y

theorem better_iff (e : Extremum) (m n : Int64) :
    e.better (ofInt64 m) (ofInt64 n) = true ↔ e.key (nearest m.toInt) < e.key (nearest n.toInt) := by
  cases e with
  | least => exact decide_eq_true_iff.trans (Double.ofInt64_lt_iff m n)
  | greatest =>
    exact decide_eq_true_iff.trans ((Double.ofInt64_lt_iff n m).trans neg_lt_neg_iff.symm)

theorem function?_standard (e : Extremum) :
    (Dialect.standard : Dialect H).function? e.function.name =
      some (Dialect.standardFunction e.function) := by
  cases e <;> rfl

theorem invoke_eq (e : Extremum) (m : Machine H W) (first : Int64) (rest : List Int64) :
    Evaluation.invoke m (Dialect.standardFunction e.function) ((first :: rest).map .int) =
      .ofExcept (Builtin.best e.function.name e.better (.int first) (ofInt64 first)
        (rest.map .int)) := by
  cases e <;> rfl

theorem exists_returns (e : Extremum) (m : Machine H W) (s : Store H W) {args : List Int64}
    (h : args ≠ []) :
    ∃ k, Returns e m s args k ∧ FirstLeast (fun n => e.key (nearest n.toInt)) args k := by
  obtain ⟨first, rest, rfl⟩ := List.exists_cons_of_ne_nil h
  obtain ⟨k, hk, hfirst⟩ := best_firstLeast (H := H) (better_iff e) first rest
  refine ⟨k, ⟨_, function?_standard e, ?_⟩, hfirst⟩
  rw [invoke_eq, hk]
  rfl

theorem Returns.unique {e : Extremum} {m : Machine H W} {s : Store H W} {args : List Int64}
    {k n : Int64} (hk : Returns e m s args k) (hn : Returns e m s args n) : k = n := by
  obtain ⟨f, hf, hk⟩ := hk
  obtain ⟨g, hg, hn⟩ := hn
  cases hf.symm.trans hg
  cases hk.symm.trans hn
  rfl

/-- What is returned is rounded to the same double as the extremum. -/
theorem nearest_eq_best {e : Extremum} {args : List Int64} {best k : Int64}
    (hbest : IsBest e args best) (hk : FirstLeast (fun n => e.key (nearest n.toInt)) args k) :
    nearest k.toInt = nearest best.toInt :=
  key_inj.1 (le_antisymm (hk.le best hbest.mem) (key_nearest_le (hbest.le k hk.mem)))

/-- An argument in front that is rounded like the extremum is returned. -/
theorem returns_head {e : Extremum} (m : Machine H W) (s : Store H W) {a best : Int64}
    {rest : List Int64} (hbest : IsBest e (a :: rest) best)
    (ha : nearest a.toInt = nearest best.toInt) : Returns e m s (a :: rest) a := by
  obtain ⟨k, hk, hfirst⟩ := exists_returns e m s (List.cons_ne_nil a rest)
  have hkey := nearest_eq_best hbest hfirst
  obtain ⟨before, after, hsplit, hbefore, -⟩ := hfirst
  cases before with
  | nil =>
    cases hsplit
    exact hk
  | cons b before =>
    cases hsplit
    have hlt : e.key (nearest k.toInt) < e.key (nearest a.toInt) := hbefore a List.mem_cons_self
    rw [hkey, ha] at hlt
    exact absurd hlt (lt_irrefl _)

theorem IsBest.perm {e : Extremum} {args others : List Int64} {best : Int64}
    (h : IsBest e args best) (hperm : others.Perm args) : IsBest e others best :=
  ⟨hperm.mem_iff.2 h.mem, fun a ha => h.le a (hperm.mem_iff.1 ha)⟩

/-- The order of the arguments does not matter iff no other one is rounded like the extremum. -/
theorem returns_perm_iff {e : Extremum} (m : Machine H W) (s : Store H W) {args : List Int64}
    {best : Int64} (hbest : IsBest e args best) :
    (∀ others, others.Perm args → Returns e m s others best) ↔
      ∀ a ∈ args, nearest a.toInt = nearest best.toInt → a = best := by
  constructor
  · intro h a ha hround
    have hperm : (a :: args.erase a).Perm args := (List.perm_cons_erase ha).symm
    exact (returns_head m s (hbest.perm hperm) hround).unique (h _ hperm)
  · intro h others hperm
    have hbest' := hbest.perm hperm
    obtain ⟨k, hk, hfirst⟩ := exists_returns e m s (List.ne_nil_of_mem hbest'.mem)
    have heq := h k (hperm.mem_iff.1 hfirst.mem) (nearest_eq_best hbest' hfirst)
    rwa [heq] at hk

/-- On integers `min` and `max` return the first argument that is rounded to the same double as the
extremum. That is the extremum itself iff it stands before the others that are rounded so; it is in
every order of the arguments iff there are no others, as among integers of at most 53 binary
digits. -/
theorem extremum_exact_iff (e : Extremum) (m : Machine H W) (s : Store H W) (first : Int64)
    (rest : List Int64) :
    ∃ best k, IsBest e (first :: rest) best ∧ Returns e m s (first :: rest) k ∧
      (first :: rest).find? (fun a => nearest a.toInt = nearest best.toInt) = some k ∧
      (IsBest e (first :: rest) k ↔ k = best) ∧
      ((∀ args, args.Perm (first :: rest) → Returns e m s args best) ↔
        ∀ a ∈ first :: rest, nearest a.toInt = nearest best.toInt → a = best) ∧
      ((∀ a ∈ first :: rest, a.toInt.natAbs ≤ 2 ^ 53) → k = best) := by
  obtain ⟨best, hbest⟩ := exists_isBest e (List.cons_ne_nil first rest)
  obtain ⟨k, hk, hfirst⟩ := exists_returns e m s (List.cons_ne_nil first rest)
  have hround := nearest_eq_best hbest hfirst
  refine ⟨best, k, hbest, hk, hfirst.find? fun a _ => ?_, ⟨fun h => h.unique hbest, ?_⟩,
    returns_perm_iff m s hbest, fun hsmall => ?_⟩
  · rw [decide_eq_true_iff, key_inj, hround]
  · rintro rfl
    exact hbest
  · rw [Double.nearest_eq_self (hsmall k hfirst.mem),
      Double.nearest_eq_self (hsmall best hbest.mem)] at hround
    exact Int64.toInt_inj.1 hround

/-- The integer behind `2 ^ 53` is rounded to it, so whichever of the two stands first is both the
least and the greatest. -/
theorem extremes_inexact :
    Returns .least Regrouping.alone Regrouping.nothing [9007199254740993, 9007199254740992]
      9007199254740993 ∧
    ¬ IsBest .least [9007199254740993, 9007199254740992] 9007199254740993 ∧
    Returns .greatest Regrouping.alone Regrouping.nothing [9007199254740992, 9007199254740993]
      9007199254740992 ∧
    ¬ IsBest .greatest [9007199254740992, 9007199254740993] 9007199254740992 := by
  have hleast : IsBest .least [9007199254740993, 9007199254740992] 9007199254740992 :=
    ⟨by decide, by simp only [List.forall_mem_cons]; exact ⟨by decide, by decide, by simp⟩⟩
  have hgreatest : IsBest .greatest [9007199254740992, 9007199254740993] 9007199254740993 :=
    ⟨by decide, by simp only [List.forall_mem_cons]; exact ⟨by decide, by decide, by simp⟩⟩
  refine ⟨returns_head _ _ hleast (by decide), fun h => ?_, returns_head _ _ hgreatest (by decide),
    fun h => ?_⟩
  · exact absurd (h.unique hleast) (by decide)
  · exact absurd (h.unique hgreatest) (by decide)

end Extremum

end Formula
