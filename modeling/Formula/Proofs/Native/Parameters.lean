import Formula.Proofs.Native.Transparency

/-!
Which argument a name stands for. The emitted code goes by the first parameter of the name; the
interpreter binds the parameters one after the other, each in front of those before, and so goes by
the last one. Nothing forbids to repeat a parameter, and then the two can disagree: they do not just
if the arguments at both places are the same.
-/
namespace Formula
namespace Native

variable {H W : Type}

/-- The first place of a name among the parameters. -/
def FirstAt (params : List String) (name : String) (i : Nat) : Prop :=
  params[i]? = some name ∧ ∀ k < i, params[k]? ≠ some name

/-- The last place of a name among the parameters. -/
def LastAt (params : List String) (name : String) (j : Nat) : Prop :=
  params[j]? = some name ∧ ∀ k, j < k → params[k]? ≠ some name

theorem firstAt_of_idxOf? {params : List String} {name : String} {i : Nat}
    (h : params.idxOf? name = some i) : FirstAt params name i := by
  obtain ⟨hi, hname, hbefore⟩ := List.idxOf?_eq_some_iff.1 h
  refine ⟨by rw [List.getElem?_eq_getElem hi, hname], fun k hk he => ?_⟩
  obtain ⟨hk', he⟩ := List.getElem?_eq_some_iff.1 he
  exact hbefore k hk he

theorem exists_lastAt {params : List String} {name : String} (h : name ∈ params) :
    ∃ j, LastAt params name j := by
  induction params with
  | nil => cases h
  | cons p ps ih =>
    by_cases hps : name ∈ ps
    · obtain ⟨j, hj, hafter⟩ := ih hps
      refine ⟨j + 1, hj, fun k hk => ?_⟩
      cases k with
      | zero => exact absurd hk (Nat.not_lt_zero _)
      | succ k => exact hafter k (Nat.lt_of_succ_lt_succ hk)
    · obtain rfl | hmem := List.mem_cons.1 h
      · refine ⟨0, rfl, fun k hk he => ?_⟩
        cases k with
        | zero => exact absurd hk (Nat.lt_irrefl 0)
        | succ k => exact hps (List.mem_of_getElem? he)
      · exact absurd hmem hps

/-- A name has one place if and only if its first place is its last one. -/
theorem count_eq_one_iff {params : List String} {name : String} {i j : Nat}
    (hi : FirstAt params name i) (hj : LastAt params name j) : params.count name = 1 ↔ i = j := by
  induction params generalizing i j with
  | nil => cases hi.1
  | cons p ps ih =>
    by_cases hp : p = name
    · subst hp
      have hzero : i = 0 := by
        cases i with
        | zero => rfl
        | succ i => exact absurd rfl (hi.2 0 (Nat.succ_pos i))
      subst hzero
      rw [List.count_cons_self, Nat.add_eq_right, List.count_eq_zero]
      constructor
      · intro hnot
        cases j with
        | zero => rfl
        | succ j => exact absurd (List.mem_of_getElem? (l := ps) hj.1) hnot
      · rintro rfl hmem
        obtain ⟨k, hk⟩ := List.mem_iff_getElem?.1 hmem
        exact hj.2 (k + 1) (Nat.succ_pos k) hk
    · rw [List.count_cons_of_ne hp]
      cases i with
      | zero => exact absurd (Option.some.inj hi.1) hp
      | succ i =>
        cases j with
        | zero => exact absurd (Option.some.inj hj.1) hp
        | succ j =>
          have hfirst : FirstAt ps name i :=
            ⟨hi.1, fun k hk => hi.2 (k + 1) (Nat.succ_lt_succ hk)⟩
          have hlast : LastAt ps name j := ⟨hj.1, fun k hk => hj.2 (k + 1) (Nat.succ_lt_succ hk)⟩
          rw [ih hfirst hlast, Nat.add_right_cancel_iff]

/-- Bound from left to right, the last parameter of a name is the one that is found. -/
theorem find?_bindParams_last {V R : Type} (s : Scope V R) {params : List String} {args : List V}
    {name : String} {j : Nat} {v : V} (hj : LastAt params name j) (hv : args[j]? = some v) :
    (s.bindParams params args).find? name = some (.value v) := by
  induction params generalizing s args j with
  | nil => cases hj.1
  | cons p ps ih =>
    cases args with
    | nil => cases hv
    | cons a as =>
      rw [Scope.bindParams_cons]
      cases j with
      | zero =>
        cases hj.1
        cases hv
        have hps : name ∉ ps := fun hmem => by
          obtain ⟨k, hk⟩ := List.mem_iff_getElem?.1 hmem
          exact hj.2 (k + 1) (Nat.succ_pos k) hk
        rw [Scope.find?_bindParams_of_not_mem _ _ hps, Scope.find?_bind_self]
      | succ j => exact ih _ ⟨hj.1, fun k hk => hj.2 (k + 1) (Nat.succ_lt_succ hk)⟩ hv

/-- For a name, the emitted code reads the argument that an interpreted body finds, whatever the
closure has captured. -/
def SameArgument (constant : Value H → Option Float) (templates : Templates) (params : List String)
    (args : List (Value H)) (line : Line) (name : String) : Prop :=
  ∃ (i : Nat) (v : Value H),
    lower params constant templates (.ident line name) = .ok (.param i, true) ∧
    args[i]? = some v ∧
    ∀ (captured : Env H) (fallback : Option (Value H)) (W : Type) (s : Store H W),
      Evaluation.lookup line name fallback (captured.bindParams params args) s = .ok v s

section

variable {constant : Value H → Option Float} {templates : Templates} {params : List String}
  {args : List (Value H)} {line : Line} {name : String} {i j : Nat}

theorem lower_ident (h : params.idxOf? name = some i) :
    lower params constant templates (.ident line name) = .ok (.param i, true) := by
  simp only [lower, h]

theorem lookup_bindParams (hj : LastAt params name j) {v : Value H} (hv : args[j]? = some v)
    (line : Line) (captured : Env H) (fallback : Option (Value H)) (s : Store H W) :
    Evaluation.lookup line name fallback (captured.bindParams params args) s = .ok v s := by
  simp only [Evaluation.lookup, find?_bindParams_last captured hj hv]
  rfl

theorem sameArgument_iff (hi : params.idxOf? name = some i) (hj : LastAt params name j)
    (hlen : args.length = params.length) :
    SameArgument constant templates params args line name ↔ args[i]? = args[j]? := by
  have hjlt : j < args.length := hlen ▸ (List.getElem?_eq_some_iff.1 hj.1).1
  have hlast : args[j]? = some args[j] := List.getElem?_eq_getElem hjlt
  constructor
  · rintro ⟨i', v, hlower, hv, hfind⟩
    cases (lower_ident hi).symm.trans hlower
    have hw := lookup_bindParams hj hlast line .empty none ({ world := () } : Store H Unit)
    cases (hfind .empty none Unit { world := () }).symm.trans hw
    exact hv.trans hlast.symm
  · intro he
    exact ⟨i, args[j], lower_ident hi, he.trans hlast, fun captured fallback W s =>
      lookup_bindParams hj hlast line captured fallback s⟩

/-- Arguments that differ at two places. -/
theorem exists_args_ne {n : Nat} (hi : i < n) (hj : j < n) (hne : i ≠ j) :
    ∃ args : List (Value H), args.length = n ∧ args[i]? ≠ args[j]? := by
  refine ⟨(List.range n).map fun k => .bool (k == i), by simp, ?_⟩
  simp [List.getElem?_map, List.getElem?_range hi, List.getElem?_range hj, Ne.symm hne]

/-- The emitted code reads the argument at the first place of a name, the interpreter the one at its
last place. They find the same just if these arguments are the same; for whatever arguments they do
if and only if no other parameter has that name. -/
theorem same_argument_iff_unrepeated (constant : Value H → Option Float) (templates : Templates)
    (line : Line) (params : List String) (name : String) (hname : name ∈ params) :
    ∃ first last, FirstAt params name first ∧ LastAt params name last ∧
      (∀ args, args.length = params.length →
        (SameArgument constant templates params args line name ↔ args[first]? = args[last]?)) ∧
      ((∀ args, args.length = params.length →
        SameArgument constant templates params args line name) ↔ params.count name = 1) := by
  obtain ⟨i, hi⟩ : ∃ i, params.idxOf? name = some i := by
    rwa [← Option.isSome_iff_exists, List.isSome_idxOf?]
  obtain ⟨j, hj⟩ := exists_lastAt hname
  have hfirst := firstAt_of_idxOf? hi
  refine ⟨i, j, hfirst, hj, fun args hlen => sameArgument_iff hi hj hlen, ?_⟩
  rw [count_eq_one_iff hfirst hj]
  constructor
  · intro hall
    by_cases he : i = j
    · exact he
    have hilt := (List.getElem?_eq_some_iff.1 hfirst.1).1
    have hjlt := (List.getElem?_eq_some_iff.1 hj.1).1
    obtain ⟨args, hlen, hdiffer⟩ := exists_args_ne (H := H) hilt hjlt he
    exact absurd ((sameArgument_iff hi hj hlen).1 (hall args hlen)) hdiffer
  · rintro rfl args hlen
    exact (sameArgument_iff hi hj hlen).2 rfl

end

/-- Of three parameters two have one name: what comes between them does not matter. -/
theorem same_argument_iff_unrepeated_between :
    SameArgument (H := Empty) Value.float? .standard ["x", "y", "x"]
        [.float 1, .float 2, .float 1] .unknown "x" ∧
      ¬SameArgument (H := Empty) Value.float? .standard ["x", "y", "x"]
        [.float 1, .float 2, .float 3] .unknown "x" ∧
      SameArgument (H := Empty) Value.float? .standard ["x", "y", "x"]
        [.float 1, .float 2, .float 3] .unknown "y" := by
  obtain ⟨i, j, hi, hj, hargs, -⟩ := same_argument_iff_unrepeated (H := Empty) Value.float?
    .standard .unknown ["x", "y", "x"] "x" (by decide)
  obtain rfl : i = 0 := Nat.eq_zero_of_not_pos fun h => hi.2 0 h rfl
  obtain rfl : j = 2 := by
    have hle : ¬j < 2 := fun h => hj.2 2 h rfl
    have hlt := (List.getElem?_eq_some_iff.1 hj.1).1
    simp only [List.length_cons, List.length_nil] at hlt
    omega
  obtain ⟨-, -, -, -, -, hall⟩ := same_argument_iff_unrepeated (H := Empty) Value.float?
    .standard .unknown ["x", "y", "x"] "y" (by decide)
  refine ⟨(hargs _ rfl).2 rfl, fun h => ?_, hall.2 (by decide) _ rfl⟩
  have hsame : some (Value.float (H := Empty) 1) = some (.float 3) := (hargs _ rfl).1 h
  exact absurd (Value.float.inj (Option.some.inj hsame)) (by decide +kernel)

namespace Repeated

/-- The literal `(x, x) -> x`. -/
def body : Tree (Value Empty) := .ident .unknown "x"

def template : Template Empty :=
  .mk "closure" .unknown ["x", "x"] (.var .unknown "x" none) (some ⟨0⟩)

def made : Store Empty Unit :=
  { slots := #[{ request := literalRequest ["x", "x"] body, trigger := none }], world := () }

def closure : Function Empty := template.close (.made 0) .empty

def escalated : Store Empty Unit := (Op.escalate ⟨0⟩ Doubled.compiler).after made

end Repeated

open Repeated in
/-- A closure that repeats a parameter gives another result as soon as it has native code. -/
theorem repeated_parameter_differs :
    ¬SameArgument (H := Empty) Value.float? .standard ["x", "x"] [.float 1, .float 2] .unknown "x" ∧
      Compilation.compile Doubled.machine .standard (.closure .unknown ["x", "x"] body) []
        { world := () } = .ok (.closure template) made ∧
      Evaluation.invoke Doubled.machine closure [.float 1, .float 2] made =
        .ok (.float 2) made ∧
      Evaluation.invoke Doubled.machine closure [.float 1, .float 2] escalated =
        .ok (.float 1) escalated := by
  refine ⟨fun h => ?_, rfl, rfl, rfl⟩
  have hlast : LastAt ["x", "x"] "x" 1 :=
    ⟨rfl, fun k hk => by rw [List.getElem?_eq_none hk]; exact (Option.some_ne_none "x").symm⟩
  have hsame : some (Value.float (H := Empty) 1) = some (.float 2) :=
    (sameArgument_iff (i := 0) rfl hlast rfl).1 h
  exact absurd (Value.float.inj (Option.some.inj hsame)) (by decide +kernel)

end Native

end Formula
