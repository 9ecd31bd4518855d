import Formula.Proofs.Dict.Versions
import Formula.Proofs.Scope

/-!
Scopes are lexical and persistent. A scope is known from the extensions that made it, one after
the other: a name stands for what the last extension that binds it says, and a recipe is carried
out in the scope that ends with its own extension. Extending a scope makes another one; whoever
holds the old one sees no difference.
-/
namespace Formula

section Latest

variable {α : Type}

/-- `P` holds of an element and those before it, and no later element is of the kind. -/
def Latest (kind : α → Prop) (P : List α → α → Prop) (xs : List α) : Prop :=
  ∃ before x after, xs = before ++ x :: after ∧ P before x ∧ ∀ y ∈ after, ¬ kind y

theorem not_latest_nil {kind : α → Prop} {P : List α → α → Prop} : ¬ Latest kind P [] := by
  rintro ⟨before, x, after, hsplit, -⟩
  simp at hsplit

theorem latest_concat {kind : α → Prop} {P : List α → α → Prop} (xs : List α) (x : α) :
    Latest kind P (xs ++ [x]) ↔ P xs x ∨ ¬ kind x ∧ Latest kind P xs := by
  constructor
  · rintro ⟨before, y, after, hsplit, hy, hafter⟩
    obtain rfl | ⟨after, last, rfl⟩ := after.eq_nil_or_concat
    · obtain ⟨rfl, hlast⟩ := List.append_inj' hsplit rfl
      cases hlast
      exact .inl hy
    · have hsplit' : xs ++ [x] = (before ++ y :: after) ++ [last] := by simpa using hsplit
      obtain ⟨rfl, hlast⟩ := List.append_inj' hsplit' rfl
      cases hlast
      rw [List.concat_eq_append, List.forall_mem_append] at hafter
      exact .inr ⟨hafter.2 x List.mem_cons_self, before, y, after, rfl, hy, hafter.1⟩
  · rintro (hx | ⟨hkind, before, y, after, rfl, hy, hafter⟩)
    · exact ⟨xs, x, [], rfl, hx, fun y hy => absurd hy List.not_mem_nil⟩
    · refine ⟨before, y, after ++ [x], by simp, hy, List.forall_mem_append.2 ⟨hafter, ?_⟩⟩
      exact List.forall_mem_singleton.2 hkind

end Latest

/-- The last of the pairs with this name. -/
def LastPair {V : Type} (pairs : List (String × V)) (name : String) (v : V) : Prop :=
  Latest (·.1 = name) (fun _ p => p = (name, v)) pairs

theorem Assoc.get?_ofList_iff {V : Type} {pairs : List (String × V)} {name : String} {v : V} :
    (ofList pairs).get? name = some v ↔ LastPair pairs name v := by
  induction pairs using List.reverseRecOn with
  | nil => exact iff_of_false (by simp [ofList]) not_latest_nil
  | append_singleton pairs p ih =>
    obtain ⟨k, w⟩ := p
    rw [ofList_append, get?_upsert, LastPair, latest_concat]
    by_cases hk : k = name
    · subst hk
      simp
    · simp only [hk, if_false, not_false_iff, true_and, Prod.mk.injEq, false_and, false_or]
      exact ih

theorem Assoc.isSome_get?_ofList {V : Type} (pairs : List (String × V)) (name : String) :
    ((ofList pairs).get? name).isSome ↔ name ∈ pairs.map Prod.fst := by
  induction pairs using List.reverseRecOn with
  | nil => simp [ofList]
  | append_singleton pairs p ih =>
    rw [ofList_append, get?_upsert]
    by_cases hk : p.1 = name
    · simp [hk]
    · simpa [hk, Ne.symm hk] using ih

/-- What is read: a value as it is, a recipe carried out in its chain. -/
def Binding.read {V R α : Type} (value : V → α) (carry : R → Scope V R → α) : Binding V R → α
  | .value v => value v
  | .recursive recipe here => carry recipe here

namespace Scope

variable {V R α : Type}

/-- Reads a name. -/
def get (value : V → α) (carry : R → Scope V R → α) (s : Scope V R) (name : String) : Option α :=
  (s.find? name).map (Binding.read value carry)

inductive Extension (V R : Type) where
  | value (name : String) (v : V)
  | vars (pairs : List (String × V))
  | recursive (name : String) (recipe : R)

namespace Extension

def apply (s : Scope V R) : Extension V R → Scope V R
  | .value name v => s.bind name v
  | .vars pairs => s.bindAll pairs
  | .recursive name recipe => s.bindRecursive name recipe

def names : Extension V R → List String
  | .value name _ => [name]
  | .vars pairs => pairs.map Prod.fst
  | .recursive name _ => [name]

/-- What an extension says of a name, in the scope `here` that it makes. -/
inductive Says (value : V → α) (carry : R → Scope V R → α) (name : String) (here : Scope V R) :
    Extension V R → α → Prop where
  | value (v : V) : Says value carry name here (.value name v) (value v)
  | vars {pairs : List (String × V)} {v : V} (h : LastPair pairs name v) :
    Says value carry name here (.vars pairs) (value v)
  | recursive (recipe : R) :
    Says value carry name here (.recursive name recipe) (carry recipe here)

end Extension

/-- The scope that extensions make of the empty one. -/
def built (es : List (Extension V R)) : Scope V R := es.foldl Extension.apply empty

@[simp] theorem built_nil : built ([] : List (Extension V R)) = empty := rfl

theorem built_concat (es : List (Extension V R)) (e : Extension V R) :
    built (es ++ [e]) = e.apply (built es) := by
  simp [built]

/-- A name stands for what the last extension that binds it says, in the scope that ends with
this extension. -/
def Means (value : V → α) (carry : R → Scope V R → α) (es : List (Extension V R)) (name : String)
    (a : α) : Prop :=
  Latest (name ∈ ·.names) (fun before e => e.Says value carry name (built (before ++ [e])) a) es

section Lookup

variable {value : V → α} {carry : R → Scope V R → α}

theorem find?_bindAll (s : Scope V R) (pairs : List (String × V)) (name : String) :
    (s.bindAll pairs).find? name =
      ((Assoc.ofList pairs).get? name).elim (s.find? name) fun v => some (.value v) := by
  unfold bindAll
  cases pairs with
  | nil => rfl
  | cons p rest =>
    rw [if_neg (by simp), find?]
    cases (Assoc.ofList (p :: rest)).get? name <;> rfl

/-- An extension decides about its own names. -/
theorem get_apply_of_mem {s : Scope V R} {e : Extension V R} {name : String} (h : name ∈ e.names)
    {a : α} :
    get value carry (e.apply s) name = some a ↔ e.Says value carry name (e.apply s) a := by
  cases e with
  | value n v =>
    obtain rfl := List.mem_singleton.1 h
    constructor
    · intro hget
      rw [get, Extension.apply, find?_bind_self] at hget
      cases hget
      exact .value v
    · rintro ⟨⟩
      rw [get, Extension.apply, find?_bind_self]
      rfl
  | vars pairs =>
    obtain ⟨w, hw⟩ := Option.isSome_iff_exists.1 ((Assoc.isSome_get?_ofList pairs name).2 h)
    have hfind : (s.bindAll pairs).find? name = some (.value w) := by rw [find?_bindAll, hw]; rfl
    constructor
    · intro hget
      rw [get, Extension.apply, hfind] at hget
      cases hget
      exact .vars (Assoc.get?_ofList_iff.1 hw)
    · intro hsays
      cases hsays with
      | vars hlast =>
        rw [← Assoc.get?_ofList_iff, hw] at hlast
        cases hlast
        rw [get, Extension.apply, hfind]
        rfl
  | recursive n recipe =>
    obtain rfl := List.mem_singleton.1 h
    constructor
    · intro hget
      rw [get, Extension.apply, find?_bindRecursive_self] at hget
      cases hget
      exact .recursive recipe
    · rintro ⟨⟩
      rw [get, Extension.apply, find?_bindRecursive_self]
      rfl

/-- All other names stand for what they stood for. -/
theorem find?_apply_of_not_mem {s : Scope V R} {e : Extension V R} {name : String}
    (h : name ∉ e.names) : (e.apply s).find? name = s.find? name := by
  cases e with
  | value n v => exact find?_bind_other s (Ne.symm (List.ne_of_not_mem_cons h)) v
  | vars pairs =>
    have hnone := mt (Assoc.isSome_get?_ofList pairs name).1 h
    rw [Option.not_isSome_iff_eq_none] at hnone
    rw [Extension.apply, find?_bindAll, hnone]
    rfl
  | recursive n recipe =>
    have hne : n ≠ name := Ne.symm (List.ne_of_not_mem_cons h)
    simp [Extension.apply, bindRecursive, find?, hne]

theorem Extension.Says.mem_names {e : Extension V R} {name : String} {here : Scope V R} {a : α}
    (h : e.Says value carry name here a) : name ∈ e.names := by
  cases h with
  | value v => exact List.mem_cons_self
  | recursive recipe => exact List.mem_cons_self
  | vars hlast =>
    obtain ⟨before, p, after, rfl, rfl, -⟩ := hlast
    simp [Extension.names]

/-- Reading finds what the name means. -/
theorem get_built_iff (es : List (Extension V R)) (name : String) (a : α) :
    get value carry (built es) name = some a ↔ Means value carry es name a := by
  induction es using List.reverseRecOn with
  | nil => exact iff_of_false (by simp [get]) not_latest_nil
  | append_singleton es e ih =>
    rw [Means, latest_concat, built_concat]
    by_cases h : name ∈ e.names
    · rw [get_apply_of_mem h]
      simp [h]
    · have hsays : ¬ e.Says value carry name (e.apply (built es)) a := fun hs => h hs.mem_names
      rw [get, find?_apply_of_not_mem h]
      simp only [h, hsays, not_false_iff, true_and, false_or]
      exact ih

/-- The two walks along the chain agree. -/
theorem contains_eq_isSome_find? (s : Scope V R) (name : String) :
    s.contains name = (s.find? name).isSome := by
  induction s with
  | nil => rfl
  | cons frame outer ih =>
    cases frame with
    | value n v => by_cases h : n = name <;> simp [contains, find?, h, ih]
    | recursive n recipe => by_cases h : n = name <;> simp [contains, find?, h, ih]
    | vars entries =>
      rw [contains, find?, Assoc.contains, ih]
      cases Assoc.get? entries name <;> rfl

end Lookup

/-- An extension adds one frame, or none if it binds nothing. -/
theorem depth_apply (s : Scope V R) (e : Extension V R) :
    depth (e.apply s) = depth s + if e.names = [] then 0 else 1 := by
  cases e with
  | value name v => rfl
  | recursive name recipe => rfl
  | vars pairs => cases pairs <;> rfl

theorem depth_built (es : List (Extension V R)) :
    depth (built es) = es.countP (·.names ≠ []) := by
  induction es using List.reverseRecOn with
  | nil => rfl
  | append_singleton es e ih =>
    rw [built_concat, depth_apply, ih, List.countP_append]
    by_cases h : e.names = [] <;> simp [h]

/-- One frame of all pairs answers as a frame for each of them. -/
theorem find?_bindAll_eq_foldl (s : Scope V R) (vars : List (String × V)) (name : String) :
    (s.bindAll vars).find? name = (vars.foldl (fun s p => s.bind p.1 p.2) s).find? name := by
  induction vars using List.reverseRecOn with
  | nil => rfl
  | append_singleton vars p ih =>
    rw [List.foldl_append, List.foldl_cons, List.foldl_nil, find?_bindAll, Assoc.ofList_append,
      Assoc.get?_upsert]
    by_cases h : p.1 = name
    · subst h
      rw [if_pos rfl, find?_bind_self]
      rfl
    · rw [if_neg h, find?_bind_other _ h, ← ih, find?_bindAll]

/-- Extends one of the scopes that there are. -/
structure Step (V R : Type) where
  source : Nat
  extension : Extension V R

section Made

variable {D E : Type}

/-- All that some steps make, the oldest first; a step from what is not there makes nothing. -/
def made (root : D) (extend : D → Extension V R → D) (steps : List (Step V R)) : List D :=
  steps.foldl (fun ds step => ds ++ (ds[step.source]?.map (extend · step.extension)).toList) [root]

theorem made_concat (root : D) (extend : D → Extension V R → D) (steps : List (Step V R))
    (step : Step V R) :
    made root extend (steps ++ [step]) = made root extend steps ++
      ((made root extend steps)[step.source]?.map (extend · step.extension)).toList := by
  simp [made]

theorem made_prefix (root : D) (extend : D → Extension V R → D) (steps later : List (Step V R)) :
    made root extend steps <+: made root extend (steps ++ later) := by
  induction later using List.reverseRecOn with
  | nil => simp
  | append_singleton later step ih =>
    rw [← List.append_assoc, made_concat]
    exact ih.trans (List.prefix_append _ _)

theorem made_map {root : D} {extend : D → Extension V R → D} {extend' : E → Extension V R → E}
    {f : D → E} (h : ∀ d e, f (extend d e) = extend' (f d) e) (steps : List (Step V R)) :
    (made root extend steps).map f = made (f root) extend' steps := by
  induction steps using List.reverseRecOn with
  | nil => rfl
  | append_singleton steps step ih =>
    rw [made_concat, made_concat, List.map_append, ← ih, List.getElem?_map]
    cases (made root extend steps)[step.source]? with
    | none => rfl
    | some d => exact congrArg (_ ++ [·]) (h d step.extension)

end Made

/-- The scopes that are held after some steps. -/
def handles (steps : List (Step V R)) : List (Scope V R) := made empty Extension.apply steps

/-- The extensions that made each of them. -/
def lineages (steps : List (Step V R)) : List (List (Extension V R)) :=
  made [] (fun es e => es ++ [e]) steps

theorem handles_eq (steps : List (Step V R)) : handles steps = (lineages steps).map built := by
  have hmap : (lineages steps).map built = handles steps := made_map built_concat steps
  exact hmap.symm

/-- A scope that is held stays where and as it is. -/
theorem getElem?_handles_append {steps : List (Step V R)} {i : Nat} {s : Scope V R}
    (hs : (handles steps)[i]? = some s) (later : List (Step V R)) :
    (handles (steps ++ later))[i]? = some s := by
  obtain ⟨new, hnew⟩ : handles steps <+: handles (steps ++ later) := made_prefix _ _ _ _
  rw [← hnew, List.getElem?_append_left (List.getElem?_eq_some_iff.1 hs).1]
  exact hs

/-- Whatever scopes are made of earlier ones, in any order: each is known from its own extensions
alone, and no later step changes what it answers. A name stands for what the last extension that
binds it says, a recipe for what comes of it in the scope that ends there; a scope contains the
names that can be read, and a frame of many pairs answers as many frames of one. -/
theorem handles_lexical (value : V → α) (carry : R → Scope V R → α) (steps later : List (Step V R)) :
    handles steps = (lineages steps).map built ∧
    (∀ (i : Nat) (s : Scope V R), (handles steps)[i]? = some s →
      ∃ s', (handles (steps ++ later))[i]? = some s' ∧ depth s' = depth s ∧
        ∀ name, get value carry s' name = get value carry s name ∧
          s'.contains name = s.contains name) ∧
    (∀ es : List (Extension V R), depth (built es) = es.countP (·.names ≠ []) ∧
      ∀ name, (∀ a, get value carry (built es) name = some a ↔ Means value carry es name a) ∧
        ((built es).contains name = true ↔ ∃ a, get value carry (built es) name = some a)) ∧
    ∀ vars name,
      get value carry (bindAll empty vars) name =
        get value carry (vars.foldl (fun s p => s.bind p.1 p.2) empty) name ∧
      (bindAll (R := R) empty vars).contains name =
        (vars.foldl (fun s p => s.bind p.1 p.2) (empty : Scope V R)).contains name := by
  refine ⟨handles_eq steps, fun i s hs => ?_, fun es => ⟨depth_built es, fun name => ?_⟩,
    fun vars name => ?_⟩
  · exact ⟨s, getElem?_handles_append hs later, rfl, fun name => ⟨rfl, rfl⟩⟩
  · refine ⟨get_built_iff es name, ?_⟩
    rw [contains_eq_isSome_find?, get, ← Option.isSome_iff_exists, Option.isSome_map]
  · rw [contains_eq_isSome_find?, contains_eq_isSome_find?, get, get, find?_bindAll_eq_foldl]
    exact ⟨rfl, rfl⟩

/-- The recipe of `f` reads `n` where `f` is bound, not where `f` is read. -/
example :
    get id (fun recipe here => 10 * (get id (fun _ _ => 0) here recipe).getD 0)
      (built [.value "n" 1, .recursive "f" "n", .vars [("n", 2), ("f'", 3), ("n", 4)]]) "f" =
        some 10 := by decide

end Scope

end Formula
