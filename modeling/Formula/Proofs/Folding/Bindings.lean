import Formula.Engine
import Formula.Proofs.Folding.Rules

/-!
Folding and the names that a `let` binds. A `let` is recursive if its value is a closure
literal, and whether it is one is asked of the value as it stands: by folding of the given
value, by compilation of the folded one. The two agree except below a conditional that folding
decides in favour of a closure literal; there the literal comes to stand right behind its
`let` and sees a name that was not meant for it.
-/
namespace Formula

namespace Tree

variable {V : Type}

def isClosure : Tree V → Bool
  | .closure .. => true
  | _ => false

def isCond : Tree V → Bool
  | .cond .. => true
  | _ => false

mutual

/-- The name occurs where nothing inside the tree binds it. A closure literal that is the value
of a `let` sees the name of the `let`. -/
def free (name : String) : Tree V → Bool
  | .ident _ n => n == name
  | .const _ _ => false
  | .letIn _ n value inner =>
    (free name value && !(value.isClosure && n == name)) || (n != name && free name inner)
  | .cond _ test yes no => free name test || free name yes || free name no
  | .unary _ _ operand => free name operand
  | .binary _ _ left right => free name left || free name right
  | .closure _ params body => !params.contains name && free name body
  | .list _ items => freeAll name items
  | .index _ source position => free name source || free name position
  | .map _ entries => freeEntries name entries
  | .field _ record _ => free name record
  | .call _ callee args => free name callee || freeAll name args
  | .method _ receiver _ args => free name receiver || freeAll name args

def freeAll (name : String) : List (Tree V) → Bool
  | [] => false
  | t :: rest => free name t || freeAll name rest

def freeEntries (name : String) : List (String × Tree V) → Bool
  | [] => false
  | (_, t) :: rest => free name t || freeEntries name rest

end

/-- As the value of a `let` of that name, the tree refers to itself. -/
def selfRecursive (name : String) (value : Tree V) : Bool := value.isClosure && free name value

end Tree

namespace Folding

variable {H W : Type} {m : Machine H W} {d : Dialect H}

/-- A `let` with the names that are bound around it. -/
structure Binder (H : Type) where
  scope : List String
  name : String
  value : Tree (Value H)
  inner : Tree (Value H)

/-- The names that the value is folded under. -/
def Binder.valueScope (b : Binder H) : List String := Folding.valueScope b.name b.scope b.value

mutual

/-- The `let`s of a tree. -/
def lets (scope : List String) : Tree (Value H) → List (Binder H)
  | .ident .. | .const .. => []
  | .letIn _ name value inner =>
    ⟨scope, name, value, inner⟩ :: (lets (valueScope name scope value) value ++
      lets (name :: scope) inner)
  | .cond _ test yes no => lets scope test ++ (lets scope yes ++ lets scope no)
  | .unary _ _ operand => lets scope operand
  | .binary _ _ left right => lets scope left ++ lets scope right
  | .closure _ params body => lets (params ++ scope) body
  | .list _ items => letsAll scope items
  | .index _ source position => lets scope source ++ lets scope position
  | .map _ entries => letsEntries scope entries
  | .field _ record _ => lets scope record
  | .call _ callee args => lets scope callee ++ letsAll scope args
  | .method _ receiver _ args => lets scope receiver ++ letsAll scope args

def letsAll (scope : List String) : List (Tree (Value H)) → List (Binder H)
  | [] => []
  | t :: rest => lets scope t ++ letsAll scope rest

def letsEntries (scope : List String) : List (String × Tree (Value H)) → List (Binder H)
  | [] => []
  | (_, t) :: rest => lets scope t ++ letsEntries scope rest

end

/-- One `let` is what folding makes of another: the name is the same, value and body are folded. -/
def Survives (m : Machine H W) (d : Dialect H) (b b' : Binder H) : Prop :=
  b'.name = b.name ∧ (∃ u w, Folds m d b.valueScope b.value u b'.value w) ∧
    ∃ u w, Folds m d (b.name :: b.scope) b.inner u b'.inner w

/-- A closure literal stands behind conditionals that folding decides in its favour. -/
inductive Reveals (m : Machine H W) (d : Dialect H) (scope : List String) :
    Tree (Value H) → Store H W → Prop where
  | literal (line : Line) (params : List String) (body : Tree (Value H)) (s : Store H W) :
    Reveals m d scope (.closure line params body) s
  | cond {line l : Line} {test yes no : Tree (Value H)} {s u : Store H W} {v : Value H}
      {truth : Truth H} {b : Bool} (htest : Folds m d scope test s (.const l v) u)
      (htruth : d.truth = some truth) (hread : truth.read m.host v = some b)
      (hbranch : Reveals m d scope (if b then yes else no) u) :
    Reveals m d scope (.cond line test yes no) s

/-- Joining constants makes no `let`. -/
theorem Joins.lets_subset {o : Operator H} {line : Line} {a t : Tree (Value H)} {b : Value H}
    {s s' : Store H W} (h : Joins m o line a b s t s') (scope : List String) :
    lets scope t ⊆ lets scope a := by
  induction h with
  | both => exact fun _ h => h
  | all => exact fun _ h => h
  | deeper _ _ _ _ ih =>
    intro x hx
    exact List.mem_append_left _ (ih hx)
  | right => exact fun _ h => h
  | left => exact fun _ h => h

/-- Every `let` of the second list is what folding makes of one of the first. -/
def Origin (m : Machine H W) (d : Dialect H) (bs bs' : List (Binder H)) : Prop :=
  ∀ b' ∈ bs', ∃ b ∈ bs, Survives m d b b'

theorem Origin.nil {bs : List (Binder H)} : Origin m d bs [] := by
  intro b' hb
  cases hb

theorem Origin.append {as as' bs bs' : List (Binder H)} (ha : Origin m d as as')
    (hb : Origin m d bs bs') : Origin m d (as ++ bs) (as' ++ bs') := by
  intro b' hb'
  obtain h | h := List.mem_append.1 hb'
  · obtain ⟨b, hmem, hs⟩ := ha b' h
    exact ⟨b, List.mem_append_left _ hmem, hs⟩
  · obtain ⟨b, hmem, hs⟩ := hb b' h
    exact ⟨b, List.mem_append_right _ hmem, hs⟩

theorem Origin.cons {a a' : Binder H} {bs bs' : List (Binder H)} (ha : Survives m d a a')
    (hb : Origin m d bs bs') : Origin m d (a :: bs) (a' :: bs') := by
  intro b' hb'
  obtain rfl | h := List.mem_cons.1 hb'
  · exact ⟨a, List.mem_cons_self, ha⟩
  · obtain ⟨b, hmem, hs⟩ := hb b' h
    exact ⟨b, List.mem_cons_of_mem _ hmem, hs⟩

theorem Origin.mono {as bs as' bs' : List (Binder H)} (h : Origin m d as as') (hs : as ⊆ bs)
    (hs' : bs' ⊆ as') : Origin m d bs bs' := by
  intro b' hb'
  obtain ⟨b, hmem, hb⟩ := h b' (hs' hb')
  exact ⟨b, hs hmem, hb⟩

theorem static?_eq_some {scope : List String} {callee : Tree (Value H)} {p : String × Function H}
    (h : d.static? scope callee = some p) : ∃ line name, callee = .ident line name := by
  cases callee with
  | ident line name => exact ⟨line, name, rfl⟩
  | _ => cases h

theorem function?_of_static? {scope : List String} {callee : Tree (Value H)} {name : String}
    {f : Function H} (h : d.static? scope callee = some (name, f)) : d.function? name = some f := by
  obtain ⟨line, other, rfl⟩ := static?_eq_some h
  simp only [Dialect.static?] at h
  split at h
  · cases h
  · obtain ⟨g, hg, he⟩ := Option.map_eq_some_iff.1 h
    cases he
    exact hg

mutual

/-- Folding makes no `let` of its own. The names around the folded tree are left open: where a
closure literal is revealed they are not those that the given one was folded under. -/
theorem lets_origin (t : Tree (Value H)) {scope : List String} {s s' : Store H W}
    {t' : Tree (Value H)} (h : Folds m d scope t s t' s') (around : List String) :
    Origin m d (lets scope t) (lets around t') := by
  have hstep := h.step
  match t with
  | .ident line name =>
    obtain ⟨-, ⟨v, -, -, rfl⟩ | ⟨-, rfl⟩⟩ := hstep
    · exact Origin.nil
    · exact Origin.nil
  | .const line v =>
    obtain ⟨-, rfl⟩ := hstep
    exact Origin.nil
  | .letIn line name value inner =>
    obtain ⟨value', inner', u, hv, hi, rfl⟩ := hstep
    refine Origin.cons ⟨rfl, ⟨s, u, hv⟩, ⟨u, s', hi⟩⟩ ?_
    exact (lets_origin value hv _).append (lets_origin inner hi _)
  | .cond line test yes no =>
    obtain ⟨test', u, ht, ⟨v, truth, b, -, -, -, hb⟩ | ⟨-, yes', no', w, hy, hn, rfl⟩⟩ := hstep
    · cases b with
      | true =>
        refine (lets_origin yes hb around).mono ?_ (fun _ h => h)
        exact fun x hx => List.mem_append_right _ (List.mem_append_left _ hx)
      | false =>
        refine (lets_origin no hb around).mono ?_ (fun _ h => h)
        exact fun x hx => List.mem_append_right _ (List.mem_append_right _ hx)
    · exact (lets_origin test ht _).append ((lets_origin yes hy _).append (lets_origin no hn _))
  | .unary line op operand =>
    obtain ⟨operand', u, ho, ⟨v, o, w, -, -, -, rfl⟩ | ⟨-, -, rfl⟩⟩ := hstep
    · exact Origin.nil
    · exact lets_origin operand ho _
  | .binary line op left right =>
    obtain ⟨left', right', u, w, hl, hr, hf | ⟨-, rfl⟩⟩ := hstep
    · obtain ⟨hn, -⟩ | ⟨o, b, t, -, -, -, ht, hj⟩ := foldBinary?_ok hf
      · cases hn
      · cases ht
        refine (lets_origin left hl around).mono ?_ (hj.lets_subset around)
        exact fun x hx => List.mem_append_left _ hx
    · exact (lets_origin left hl _).append (lets_origin right hr _)
  | .closure line params body =>
    obtain ⟨body', hb, rfl⟩ := hstep
    exact lets_origin body hb _
  | .list line items =>
    obtain ⟨items', u, hi, ⟨vs, v, -, -, -, rfl⟩ | ⟨-, -, rfl⟩⟩ := hstep
    · exact Origin.nil
    · exact letsAll_origin items hi _
  | .index line source position =>
    obtain ⟨source', position', u, hs, hp, rfl⟩ := hstep
    exact (lets_origin source hs _).append (lets_origin position hp _)
  | .map line entries =>
    obtain ⟨entries', u, he, ⟨vs, v, -, -, -, rfl⟩ | ⟨-, -, rfl⟩⟩ := hstep
    · exact Origin.nil
    · exact letsEntries_origin entries he _
  | .field line record key =>
    obtain ⟨record', hr, rfl⟩ := hstep
    exact lets_origin record hr _
  | .call line callee args =>
    obtain ⟨args', u, ha, ⟨name, f, hst, ⟨vs, v, -, -, -, -, rfl⟩ | ⟨-, -, rfl⟩⟩ |
      ⟨-, callee', hc, rfl⟩⟩ := hstep
    · exact Origin.nil
    · -- the callee of a call of a registered function is a name, and is not folded
      obtain ⟨l, n, rfl⟩ := static?_eq_some hst
      exact Origin.append Origin.nil (letsAll_origin args ha _)
    · exact (lets_origin callee hc _).append (letsAll_origin args ha _)
  | .method line receiver name args =>
    obtain ⟨receiver', args', u, hr, ha, rfl⟩ := hstep
    exact (lets_origin receiver hr _).append (letsAll_origin args ha _)

theorem letsAll_origin (ts : List (Tree (Value H))) {scope : List String} {s s' : Store H W}
    {ts' : List (Tree (Value H))} (h : FoldsAll m d scope ts s ts' s') (around : List String) :
    Origin m d (letsAll scope ts) (letsAll around ts') := by
  match ts with
  | [] =>
    obtain ⟨-, rfl⟩ := h.nil
    exact Origin.nil
  | t :: rest =>
    obtain ⟨t', rest', u, ht, hrest, rfl⟩ := h.cons
    exact (lets_origin t ht _).append (letsAll_origin rest hrest _)

theorem letsEntries_origin (es : List (String × Tree (Value H))) {scope : List String}
    {s s' : Store H W} {es' : List (String × Tree (Value H))}
    (h : FoldsEntries m d scope es s es' s') (around : List String) :
    Origin m d (letsEntries scope es) (letsEntries around es') := by
  match es with
  | [] =>
    obtain ⟨-, rfl⟩ := h.nil
    exact Origin.nil
  | (key, t) :: rest =>
    obtain ⟨t', rest', u, ht, hrest, rfl⟩ := h.cons
    exact (lets_origin t ht _).append (letsEntries_origin rest hrest _)

end

theorem Folds.unique {scope : List String} {t t₁ t₂ : Tree (Value H)} {s s₁ s₂ : Store H W}
    (h₁ : Folds m d scope t s t₁ s₁) (h₂ : Folds m d scope t s t₂ s₂) : t₁ = t₂ ∧ s₁ = s₂ := by
  obtain ⟨k₁, h₁⟩ := h₁
  obtain ⟨k₂, h₂⟩ := h₂
  rw [h₁] at h₂
  cases h₂
  exact ⟨rfl, rfl⟩

/-- Constants that are joined make a constant, or an operation with one. -/
theorem Joins.kind {o : Operator H} {line : Line} {a t : Tree (Value H)} {b : Value H}
    {s s' : Store H W} (h : Joins m o line a b s t s') :
    t.kind = "constant" ∨ t.kind = "operation" := by
  induction h with
  | both | all => exact .inl rfl
  | deeper _ _ _ _ ih => exact ih
  | right | left => exact .inr rfl

theorem const?_eq_some {t : Tree (Value H)} {v : Value H} (h : t.const? = some v) :
    ∃ line, t = .const line v := by
  cases t with
  | const line w => cases h; exact ⟨line, rfl⟩
  | _ => cases h

/-- What was no conditional stays the kind of node it was, unless it becomes a constant, which a
closure literal does not. -/
theorem Folds.kind_of_not_cond {scope : List String} {t t' : Tree (Value H)}
    {s s' : Store H W} (h : Folds m d scope t s t' s') (hc : t.isCond = false) :
    (t'.kind = "constant" ∧ t.isClosure = false) ∨ t'.kind = t.kind := by
  have hstep := h.step
  cases t with
  | ident =>
    obtain ⟨-, ⟨v, -, -, rfl⟩ | ⟨-, rfl⟩⟩ := hstep
    · exact .inl ⟨rfl, rfl⟩
    · exact .inr rfl
  | const => obtain ⟨-, rfl⟩ := hstep; exact .inr rfl
  | letIn => obtain ⟨value', inner', u, -, -, rfl⟩ := hstep; exact .inr rfl
  | cond => cases hc
  | unary =>
    obtain ⟨operand', u, -, ⟨v, o, w, -, -, -, rfl⟩ | ⟨-, -, rfl⟩⟩ := hstep
    · exact .inl ⟨rfl, rfl⟩
    · exact .inr rfl
  | binary =>
    obtain ⟨left', right', u, w, -, -, hf | ⟨-, rfl⟩⟩ := hstep
    · obtain ⟨hn, -⟩ | ⟨o, b, t, -, -, -, ht, hj⟩ := foldBinary?_ok hf
      · cases hn
      · cases ht
        exact hj.kind.imp (fun hk => ⟨hk, rfl⟩) fun hk => hk
    · exact .inr rfl
  | closure => obtain ⟨body', -, rfl⟩ := hstep; exact .inr rfl
  | list =>
    obtain ⟨items', u, -, ⟨vs, v, -, -, -, rfl⟩ | ⟨-, -, rfl⟩⟩ := hstep
    · exact .inl ⟨rfl, rfl⟩
    · exact .inr rfl
  | index => obtain ⟨source', position', u, -, -, rfl⟩ := hstep; exact .inr rfl
  | map =>
    obtain ⟨entries', u, -, ⟨vs, v, -, -, -, rfl⟩ | ⟨-, -, rfl⟩⟩ := hstep
    · exact .inl ⟨rfl, rfl⟩
    · exact .inr rfl
  | field => obtain ⟨record', -, rfl⟩ := hstep; exact .inr rfl
  | call =>
    obtain ⟨args', u, -, ⟨name, f, -, ⟨vs, v, -, -, -, -, rfl⟩ | ⟨-, -, rfl⟩⟩ |
      ⟨-, callee', -, rfl⟩⟩ := hstep
    · exact .inl ⟨rfl, rfl⟩
    · exact .inr rfl
    · exact .inr rfl
  | method => obtain ⟨receiver', args', u, -, -, rfl⟩ := hstep; exact .inr rfl

theorem isClosure_eq_kind (t : Tree (Value H)) : t.isClosure = (t.kind == "closure") := by
  cases t <;> rfl

/-- What was no conditional is a closure literal after folding just if it was one before. -/
theorem Folds.isClosure_of_not_cond {scope : List String} {t t' : Tree (Value H)}
    {s s' : Store H W} (h : Folds m d scope t s t' s') (hc : t.isCond = false) :
    t'.isClosure = t.isClosure := by
  obtain ⟨hk, hclosure⟩ | hk := h.kind_of_not_cond hc
  · rw [hclosure, isClosure_eq_kind, hk]
    rfl
  · rw [isClosure_eq_kind, isClosure_eq_kind, hk]

/-- A callee that names no function of the dialect does not come to name one. -/
theorem Folds.static?_eq_none {scope : List String} {t t' : Tree (Value H)} {s s' : Store H W}
    (h : Folds m d scope t s t' s') (hc : t.isCond = false) (hs : d.static? scope t = none) :
    d.static? scope t' = none := by
  cases t' with
  | ident line name =>
    cases t with
    | ident l other =>
      obtain ⟨-, ⟨v, -, -, ht⟩ | ⟨-, ht⟩⟩ := h.step
      · cases ht
      · cases ht
        exact hs
    | _ =>
      have hk := h.kind_of_not_cond hc
      simp [Tree.kind] at hk
  | _ => rfl

theorem Reveals.isClosure {scope : List String} {t t' : Tree (Value H)} {s s' : Store H W}
    (hr : Reveals m d scope t s) (h : Folds m d scope t s t' s') : t'.isClosure = true := by
  induction hr with
  | literal => exact h.isClosure_of_not_cond rfl
  | cond htest htruth hread _ ih =>
    obtain ⟨test', u', ht, ⟨v', truth', b', hv, hd, hb, hf⟩ | ⟨hn, -⟩⟩ := h.step
    · obtain ⟨rfl, rfl⟩ := ht.unique htest
      cases hv
      cases htruth.symm.trans hd
      cases hread.symm.trans hb
      exact ih hf
    · obtain ⟨rfl, rfl⟩ := ht.unique htest
      rw [htruth] at hn
      obtain hn | hn := hn
      · cases hn
      · cases hn

theorem reveals_of_isClosure (t : Tree (Value H)) {scope : List String} {t' : Tree (Value H)}
    {s s' : Store H W} (h : Folds m d scope t s t' s') (hc : t'.isClosure = true) :
    Reveals m d scope t s := by
  match t with
  | .closure line params body => exact .literal line params body s
  | .cond line test yes no =>
    obtain ⟨test', u, ht, ⟨v, truth, b, hv, hd, hb, hf⟩ | ⟨-, yes', no', w, -, -, rfl⟩⟩ := h.step
    · obtain ⟨l, rfl⟩ := const?_eq_some hv
      refine .cond ht hd hb ?_
      cases b with
      | true => exact reveals_of_isClosure yes hf hc
      | false => exact reveals_of_isClosure no hf hc
    · cases hc
  | .ident .. | .const .. | .letIn .. | .unary .. | .binary .. | .list .. | .index .. | .map ..
  | .field .. | .call .. | .method .. =>
    rw [h.isClosure_of_not_cond rfl] at hc
    cases hc

/-- Folding ends in a closure literal just if it finds one behind decided conditionals. -/
theorem Folds.isClosure_iff {scope : List String} {t t' : Tree (Value H)} {s s' : Store H W}
    (h : Folds m d scope t s t' s') : t'.isClosure = true ↔ Reveals m d scope t s :=
  ⟨reveals_of_isClosure t h, fun hr => hr.isClosure h⟩

theorem valueScope_eq (name : String) (scope : List String) (t : Tree (Value H)) :
    valueScope name scope t = if t.isClosure then name :: scope else scope := by
  cases t <;> rfl

/-- The `let`s of a folded tree are those of the given one, with their values and bodies folded.
One whose value was no closure literal refers to itself afterwards just if a closure literal in
which its name is free stood behind decided conditionals; every other one finds the names in its
value where they were found before. -/
theorem optimize_selfRecursive_iff {t : Tree (Value H)} {s s' : Store H W} {f : Folded H}
    (h : Engine.optimize m d t s = .ok f s') :
    ∀ b' ∈ lets [] f.tree, ∃ b ∈ lets [] t, ∃ u w u' w',
      b'.name = b.name ∧ Folds m d b.valueScope b.value u b'.value w ∧
      Folds m d (b.name :: b.scope) b.inner u' b'.inner w' ∧
      (b.value.isClosure = false →
        (b'.value.selfRecursive b.name = true ↔
          Reveals m d b.scope b.value u ∧ b'.value.free b.name = true)) ∧
      (b.value.isCond = false →
        b'.value.isClosure = b.value.isClosure ∧
        ∀ scope, valueScope b.name scope b'.value = valueScope b.name scope b.value) := by
  intro b' hb'
  have hfold : Folds m d [] t s f.tree s' := ⟨f.kept, h⟩
  obtain ⟨b, hb, hname, ⟨u, w, hv⟩, ⟨u', w', hi⟩⟩ := lets_origin t hfold [] b' hb'
  refine ⟨b, hb, u, w, u', w', hname, hv, hi, ?_, ?_⟩
  · intro hc
    have hscope : b.valueScope = b.scope := by
      rw [Binder.valueScope, valueScope_eq, hc]
      rfl
    rw [Tree.selfRecursive, Bool.and_eq_true, hv.isClosure_iff, hscope]
  · intro hc
    have hsame : b'.value.isClosure = b.value.isClosure := hv.isClosure_of_not_cond hc
    refine ⟨hsame, fun scope => ?_⟩
    rw [valueScope_eq, valueScope_eq, hsame]

namespace Rebinding

/-- Closures and strict conditions, and nothing of the host. -/
def dialect : Dialect Empty := { closures := true, truth := some .strict }

def machine : Machine Empty Unit := Machine.ofHost ⟨fun h => h.elim, fun h => h.elim⟩ 4

def start : Store Empty Unit := { world := () }

def literal : Tree (Value Empty) := .closure .unknown ["x"] (.ident .unknown "f")

def chosen : Tree (Value Empty) :=
  .cond .unknown (.const .unknown (.bool true)) literal (.const .unknown (.int 0))

/-- The call `f(1)` below `let f = 5` and a second `let f` of the given value. -/
def around (value : Tree (Value Empty)) : Tree (Value Empty) :=
  .letIn .unknown "f" (.const .unknown (.int 5))
    (.letIn .unknown "f" value
      (.call .unknown (.ident .unknown "f") [.const .unknown (.int 1)]))

/-- The result of a tree, compiled as it stands. -/
def result (t : Tree (Value Empty)) : Option (Value Empty) :=
  match Compilation.compile machine dialect t [] start with
  | .ok code s =>
    match Evaluation.exec machine code .empty s with
    | .ok v _ => some v
    | .error .. => none
  | .error .. => none

theorem optimize_chosen :
    Engine.optimize machine dialect (around chosen) start = .ok ⟨around literal, false⟩ start := by
  rfl

end Rebinding

open Rebinding in
theorem optimize_selfRecursive_iff_chosen :
    Engine.optimize machine dialect (around chosen) start = .ok ⟨around literal, false⟩ start ∧
    ∀ b' ∈ lets [] (around literal), ∃ b ∈ lets [] (around chosen), ∃ u w u' w',
      b'.name = b.name ∧ Folds machine dialect b.valueScope b.value u b'.value w ∧
      Folds machine dialect (b.name :: b.scope) b.inner u' b'.inner w' ∧
      (b.value.isClosure = false →
        (b'.value.selfRecursive b.name = true ↔
          Reveals machine dialect b.scope b.value u ∧ b'.value.free b.name = true)) ∧
      (b.value.isCond = false →
        b'.value.isClosure = b.value.isClosure ∧
        ∀ scope, valueScope b.name scope b'.value = valueScope b.name scope b.value) :=
  ⟨optimize_chosen, optimize_selfRecursive_iff optimize_chosen⟩

open Rebinding in
/-- Folding can make a `let` recursive whose value is no closure literal: the name inside it then
means the `let` itself and no longer the one around it, and the result is another. -/
theorem optimize_rebinds :
    (¬ ∀ (t : Tree (Value Empty)) (s s' : Store Empty Unit) (f : Folded Empty),
      Engine.optimize machine dialect t s = .ok f s' →
      ∀ b ∈ lets [] t, b.value.isClosure = false →
      ∀ b' ∈ lets [] f.tree, Survives machine dialect b b' →
        b'.value.selfRecursive b'.name = false) ∧
    result (around chosen) = some (.int 5) ∧ ∃ g, result (around literal) = some (.closure g) := by
  refine ⟨?_, rfl, _, rfl⟩
  intro h
  have hvalue : Folds machine dialect ["f"] chosen start literal start := ⟨false, rfl⟩
  have hinner : Folds machine dialect ["f", "f"]
      (.call .unknown (.ident .unknown "f") [.const .unknown (.int 1)]) start
      (.call .unknown (.ident .unknown "f") [.const .unknown (.int 1)]) start := ⟨true, rfl⟩
  have hbad := h _ _ _ _ optimize_chosen
    ⟨["f"], "f", chosen, .call .unknown (.ident .unknown "f") [.const .unknown (.int 1)]⟩
    (by simp [lets, around]) rfl
    ⟨["f"], "f", literal, .call .unknown (.ident .unknown "f") [.const .unknown (.int 1)]⟩
    (by simp [lets, around]) ⟨rfl, ⟨start, start, hvalue⟩, ⟨start, start, hinner⟩⟩
  cases hbad

end Folding

end Formula
