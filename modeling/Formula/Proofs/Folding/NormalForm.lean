import Formula.Dialect.Standard
import Formula.Proofs.Compilation.Refusals
import Formula.Proofs.Folding.Bindings

/-!
One pass of folding is enough. A redex is a node that folding would do something about, under the
names that are bound around it. A folded tree has none, except where the callee of a call was a
conditional; and a tree without redexes is kept as it is, without running anything.

What a `let` binds may change: folding can put a closure literal right behind its `let`, which then
sees a name that it was not folded under. More names around a tree only hide constants and
functions from it, so no redex comes about in this way.
-/
namespace Formula
namespace Folding

variable {H W : Type} {m : Machine H W} {d : Dialect H}

/-- A node and the names that are bound around it. -/
structure Place (H : Type) where
  scope : List String
  node : Tree (Value H)

mutual

/-- The nodes of a tree that are evaluated. The name of a registered function that is called is
not one of them. -/
@[simp] def places (d : Dialect H) (scope : List String) : Tree (Value H) → List (Place H)
  | .ident line name => [⟨scope, .ident line name⟩]
  | .const line v => [⟨scope, .const line v⟩]
  | .letIn line name value inner => ⟨scope, .letIn line name value inner⟩ ::
      (places d (valueScope name scope value) value ++ places d (name :: scope) inner)
  | .cond line test yes no => ⟨scope, .cond line test yes no⟩ ::
      (places d scope test ++ (places d scope yes ++ places d scope no))
  | .unary line op operand => ⟨scope, .unary line op operand⟩ :: places d scope operand
  | .binary line op left right => ⟨scope, .binary line op left right⟩ ::
      (places d scope left ++ places d scope right)
  | .closure line params body => ⟨scope, .closure line params body⟩ ::
      places d (params ++ scope) body
  | .list line items => ⟨scope, .list line items⟩ :: placesAll d scope items
  | .index line source position => ⟨scope, .index line source position⟩ ::
      (places d scope source ++ places d scope position)
  | .map line entries => ⟨scope, .map line entries⟩ :: placesEntries d scope entries
  | .field line record key => ⟨scope, .field line record key⟩ :: places d scope record
  | .call line callee args => ⟨scope, .call line callee args⟩ ::
      ((if (d.static? scope callee).isSome then [] else places d scope callee) ++
        placesAll d scope args)
  | .method line receiver name args => ⟨scope, .method line receiver name args⟩ ::
      (places d scope receiver ++ placesAll d scope args)

@[simp] def placesAll (d : Dialect H) (scope : List String) : List (Tree (Value H)) → List (Place H)
  | [] => []
  | t :: rest => places d scope t ++ placesAll d scope rest

@[simp] def placesEntries (d : Dialect H) (scope : List String) :
    List (String × Tree (Value H)) → List (Place H)
  | [] => []
  | (_, t) :: rest => places d scope t ++ placesEntries d scope rest

end

/-- A node that folding does not leave alone. -/
inductive Redex (d : Dialect H) (scope : List String) : Tree (Value H) → Prop where
  /-- the name of a constant -/
  | constant {line : Line} {name : String} {v : Value H} (hname : name ∉ scope)
      (hv : d.constant? name = some v) : Redex d scope (.ident line name)
  /-- a unary operator on a constant -/
  | unary {line l : Line} {op : String} {v : Value H} {o : UnaryOperator H}
      (ho : d.unary? op = some o) : Redex d scope (.unary line op (.const l v))
  /-- a pure operator on two constants -/
  | binary {line l l' : Line} {op : String} {a b : Value H} {o : Operator H}
      (ho : d.operator? op = some o) (hpure : o.isPure = true) :
    Redex d scope (.binary line op (.const l a) (.const l' b))
  /-- two constants around a commutative operator, the inner one on its left -/
  | left {line l l' l'' : Line} {op : String} {a b : Value H} {x : Tree (Value H)} {o : Operator H}
      (ho : d.operator? op = some o) (hpure : o.isPure = true) (hcomm : o.commutative = true) :
    Redex d scope (.binary line op (.binary l op (.const l' a) x) (.const l'' b))
  /-- two constants around a commutative operator, the inner one on its right -/
  | right {line l l' l'' : Line} {op : String} {a b : Value H} {x : Tree (Value H)} {o : Operator H}
      (ho : d.operator? op = some o) (hpure : o.isPure = true) (hcomm : o.commutative = true) :
    Redex d scope (.binary line op (.binary l op x (.const l' a)) (.const l'' b))
  /-- a conditional on a constant -/
  | cond {line l : Line} {v : Value H} {yes no : Tree (Value H)} {truth : Truth H}
      (htruth : d.truth = some truth) : Redex d scope (.cond line (.const l v) yes no)
  /-- a list literal of constants -/
  | list {line : Line} {items : List (Tree (Value H))} (hlists : d.lists = true)
      (hitems : ∀ item ∈ items, item.const?.isSome = true) : Redex d scope (.list line items)
  /-- a map literal of constants -/
  | map {line : Line} {entries : List (String × Tree (Value H))} (hmaps : d.maps = true)
      (hentries : ∀ entry ∈ entries, entry.2.const?.isSome = true) :
    Redex d scope (.map line entries)
  /-- a call of a pure function with constants -/
  | call {line : Line} {callee : Tree (Value H)} {args : List (Tree (Value H))} {name : String}
      {f : Function H} (hstatic : d.static? scope callee = some (name, f)) (hpure : f.isPure = true)
      (hargs : ∀ arg ∈ args, arg.const?.isSome = true) : Redex d scope (.call line callee args)
  /-- a call of a pure function that folding refuses -/
  | misfit {line : Line} {callee : Tree (Value H)} {args : List (Tree (Value H))} {name : String}
      {f : Function H} (hstatic : d.static? scope callee = some (name, f)) (hpure : f.isPure = true)
      (harity : f.arity.accepts args.length = false) : Redex d scope (.call line callee args)

/-- No node of the tree is a redex. -/
def Normal (d : Dialect H) (scope : List String) (t : Tree (Value H)) : Prop :=
  ∀ p ∈ places d scope t, ¬ Redex d p.scope p.node

def NormalAll (d : Dialect H) (scope : List String) (ts : List (Tree (Value H))) : Prop :=
  ∀ p ∈ placesAll d scope ts, ¬ Redex d p.scope p.node

def NormalEntries (d : Dialect H) (scope : List String)
    (es : List (String × Tree (Value H))) : Prop :=
  ∀ p ∈ placesEntries d scope es, ¬ Redex d p.scope p.node

section

variable {scope : List String} {line : Line} {op name key : String} {params : List String}

theorem normal_ident : Normal d scope (.ident line name) ↔ ¬ Redex d scope (.ident line name) := by
  simp [Normal]

theorem normal_const {v : Value H} : Normal d scope (.const line v) := by
  intro p hp hredex
  rw [places, List.mem_singleton] at hp
  subst hp
  cases hredex

variable {a b c : Tree (Value H)} {ts : List (Tree (Value H))}
  {es : List (String × Tree (Value H))}

theorem normal_letIn : Normal d scope (.letIn line name a b) ↔
    Normal d (valueScope name scope a) a ∧ Normal d (name :: scope) b := by
  have hno : ¬ Redex d scope (.letIn line name a b) := fun h => by cases h
  simp [Normal, or_imp, forall_and, hno]

theorem normal_cond : Normal d scope (.cond line a b c) ↔ ¬ Redex d scope (.cond line a b c) ∧
    Normal d scope a ∧ Normal d scope b ∧ Normal d scope c := by
  simp [Normal, or_imp, forall_and]

theorem normal_unary : Normal d scope (.unary line op a) ↔
    ¬ Redex d scope (.unary line op a) ∧ Normal d scope a := by
  simp [Normal]

theorem normal_binary : Normal d scope (.binary line op a b) ↔
    ¬ Redex d scope (.binary line op a b) ∧ Normal d scope a ∧ Normal d scope b := by
  simp [Normal, or_imp, forall_and]

theorem normal_closure : Normal d scope (.closure line params a) ↔
    Normal d (params ++ scope) a := by
  have hno : ¬ Redex d scope (.closure line params a) := fun h => by cases h
  simp [Normal, hno]

theorem normal_list : Normal d scope (.list line ts) ↔
    ¬ Redex d scope (.list line ts) ∧ NormalAll d scope ts := by
  simp [Normal, NormalAll]

theorem normal_index : Normal d scope (.index line a b) ↔
    Normal d scope a ∧ Normal d scope b := by
  have hno : ¬ Redex d scope (.index line a b) := fun h => by cases h
  simp [Normal, or_imp, forall_and, hno]

theorem normal_map : Normal d scope (.map line es) ↔
    ¬ Redex d scope (.map line es) ∧ NormalEntries d scope es := by
  simp [Normal, NormalEntries]

theorem normal_field : Normal d scope (.field line a key) ↔ Normal d scope a := by
  have hno : ¬ Redex d scope (.field line a key) := fun h => by cases h
  simp [Normal, hno]

theorem normal_call : Normal d scope (.call line a ts) ↔ ¬ Redex d scope (.call line a ts) ∧
    (d.static? scope a = none → Normal d scope a) ∧ NormalAll d scope ts := by
  cases hs : d.static? scope a with
  | none => simp [Normal, NormalAll, hs, or_imp, forall_and]
  | some p => simp [Normal, NormalAll, hs]

theorem normal_method : Normal d scope (.method line a name ts) ↔
    Normal d scope a ∧ NormalAll d scope ts := by
  have hno : ¬ Redex d scope (.method line a name ts) := fun h => by cases h
  simp [Normal, NormalAll, or_imp, forall_and, hno]

theorem normalAll_nil : NormalAll d scope [] := by simp [NormalAll]

theorem normalAll_cons : NormalAll d scope (a :: ts) ↔
    Normal d scope a ∧ NormalAll d scope ts := by
  simp [Normal, NormalAll, or_imp, forall_and]

theorem normalEntries_nil : NormalEntries d scope [] := by simp [NormalEntries]

theorem normalEntries_cons : NormalEntries d scope ((key, a) :: es) ↔
    Normal d scope a ∧ NormalEntries d scope es := by
  simp [Normal, NormalEntries, or_imp, forall_and]

end

theorem values?_eq_none {ts : List (Tree (Value H))} :
    values? ts = none ↔ ¬ ∀ t ∈ ts, t.const?.isSome = true := by
  induction ts with
  | nil => simp [values?]
  | cons t rest ih =>
    simp only [values?, List.mapM_cons] at ih ⊢
    cases ht : t.const? with
    | none => simp [ht]
    | some v =>
      cases hrest : rest.mapM Tree.const? with
      | none => simpa [ht, hrest] using ih
      | some vs => simpa [ht, hrest] using ih

theorem entryValues?_eq_none {es : List (String × Tree (Value H))} :
    entryValues? es = none ↔ ¬ ∀ e ∈ es, e.2.const?.isSome = true := by
  induction es with
  | nil => simp [entryValues?]
  | cons e rest ih =>
    obtain ⟨key, t⟩ := e
    simp only [entryValues?, List.mapM_cons] at ih ⊢
    cases ht : t.const? with
    | none => simp [ht]
    | some v =>
      cases hrest : rest.mapM fun (x : String × Tree (Value H)) =>
          x.2.const?.map fun v => (x.1, v) with
      | none => simpa [ht, hrest] using ih
      | some vs => simpa [ht, hrest] using ih

theorem static?_eq_function? {scope : List String} {line : Line} {name : String}
    (h : name ∉ scope) :
    d.static? scope (.ident line name) = (d.function? name).map fun f => (name, f) := by
  simp [Dialect.static?, h]

/-- Names that are bound around a tree only hide functions from it. -/
theorem static?_of_subset {scope around : List String} (hsub : ∀ name ∈ scope, name ∈ around)
    {callee : Tree (Value H)} {p : String × Function H}
    (h : d.static? around callee = some p) : d.static? scope callee = some p := by
  obtain ⟨line, name, rfl⟩ := static?_eq_some h
  by_cases haround : name ∈ around
  · simp [Dialect.static?, haround] at h
  · rw [static?_eq_function? haround] at h
    rw [static?_eq_function? fun hscope => haround (hsub name hscope)]
    exact h

/-- The value of a folded `let` stands below at least the names that it was folded under. -/
theorem Folds.valueScope_subset {scope around : List String} (hsub : ∀ name ∈ scope, name ∈ around)
    {name : String} {value value' : Tree (Value H)} {s s' : Store H W}
    (h : Folds m d (valueScope name scope value) value s value' s') :
    ∀ n ∈ valueScope name scope value, n ∈ valueScope name around value' := by
  intro n hn
  rw [valueScope_eq] at hn ⊢
  cases hc : value.isClosure with
  | true =>
    have hclosure : value'.isClosure = true := by
      cases value with
      | closure => exact h.isClosure_of_not_cond rfl
      | _ => cases hc
    rw [if_pos hc] at hn
    rw [if_pos hclosure]
    exact List.mem_cons.2 ((List.mem_cons.1 hn).imp_right (hsub n))
  | false =>
    rw [hc, if_neg Bool.false_ne_true] at hn
    split
    · exact List.mem_cons_of_mem _ (hsub n hn)
    · exact hsub n hn

/-- Where nothing is joined there is no constant: neither the left operand is one, nor is there one
around a commutative operator in it. -/
theorem combine_none {o : Operator H} {line : Line} {a : Tree (Value H)} {b : Value H}
    {s s' : Store H W} (h : combine m o line a b s = .ok none s') :
    a.const? = none ∧ (o.commutative = true → ∀ l x y, a = .binary l o.symbol x y →
      x.const? = none ∧ y.const? = none) := by
  have hskip {op : String} (hop : (!o.commutative || decide (op ≠ o.symbol)) = true)
      (hcomm : o.commutative = true) : op ≠ o.symbol := by
    simpa [hcomm] using hop
  fun_induction combine m o line a b generalizing s s' with
  | case1 =>
    obtain ⟨_, _, _, h⟩ := Run.bind_eq_ok.1 h
    cases h
  | case2 l op x lc c b hop =>
    refine ⟨rfl, fun hcomm _ _ _ he => ?_⟩
    cases he
    exact absurd rfl (hskip hop hcomm)
  | case3 =>
    simp only [Run.bind_eq_ok] at h
    obtain ⟨_, _, _, _, _, _, h⟩ := h
    cases h
  | case4 =>
    simp only [Run.bind_eq_ok] at h
    obtain ⟨_, _, _, r, _, _, h⟩ := h
    cases r with
    | none => cases h
    | some t => cases h
  | case5 l op la a y b hy hop =>
    refine ⟨rfl, fun hcomm _ _ _ he => ?_⟩
    cases he
    exact absurd rfl (hskip hop hcomm)
  | case6 =>
    simp only [Run.bind_eq_ok] at h
    obtain ⟨_, _, _, h⟩ := h
    cases h
  | case7 a b hconst hright hleft =>
    refine ⟨const?_eq_none hconst, fun _ l x y he => ⟨?_, ?_⟩⟩
    · exact const?_eq_none fun lc c hx => hleft l o.symbol lc c y (he.trans (by rw [hx]))
    · exact const?_eq_none fun lc c hy => hright l o.symbol x lc c (he.trans (by rw [hy]))

/-- An operation that is left alone is no redex. -/
theorem foldBinary?_none {line : Line} {op : String} {left right : Tree (Value H)}
    {s s' : Store H W} (h : foldBinary? m d line op left right s = .ok none s')
    (scope : List String) : ¬ Redex d scope (.binary line op left right) := by
  have hnone {o : Operator H} {l : Line} {b : Value H} (ho : d.operator? op = some o)
      (hpure : o.isPure = true) (hright : right = .const l b) :
      left.const? = none ∧ (o.commutative = true → ∀ l x y, left = .binary l op x y →
        x.const? = none ∧ y.const? = none) := by
    subst hright
    simp only [foldBinary?, ho, Tree.const?, hpure, if_true] at h
    have hsymbol := operator?_symbol ho
    subst hsymbol
    exact combine_none h
  intro hredex
  cases hredex with
  | binary ho hpure => cases (hnone ho hpure rfl).1
  | left ho hpure hcomm => cases ((hnone ho hpure rfl).2 hcomm _ _ _ rfl).1
  | right ho hpure hcomm => cases ((hnone ho hpure rfl).2 hcomm _ _ _ rfl).2

/-- Joined constants leave no redex. -/
theorem Joins.normal {o : Operator H} {line : Line} {a t : Tree (Value H)} {b : Value H}
    {s s' : Store H W} (h : Joins m o line a b s t s') {scope : List String}
    (ha : Normal d scope a) : Normal d scope t := by
  induction h with
  | both | all => exact normal_const
  | deeper _ _ _ _ ih => exact ih (normal_binary.1 ha).2.1
  | right =>
    obtain ⟨hno, hnx, -⟩ := normal_binary.1 ha
    refine normal_binary.2 ⟨fun hredex => hno ?_, hnx, normal_const⟩
    -- the joined constant stands where a constant stood before
    cases hredex with
    | binary ho' hpure' => exact .binary ho' hpure'
    | left ho' hpure' hcomm' => exact .left ho' hpure' hcomm'
    | right ho' hpure' hcomm' => exact .right ho' hpure' hcomm'
  | left _ hy _ =>
    obtain ⟨-, -, hny⟩ := normal_binary.1 ha
    refine normal_binary.2 ⟨fun hredex => ?_, normal_const, hny⟩
    cases hredex with
    | binary => cases hy

/-- If the node is a call, its callee is no conditional. -/
def PlainCallee (node : Tree (Value H)) : Prop :=
  ∀ line callee args, node = .call line callee args → callee.isCond = false

mutual

/-- A folded tree has no redex below the names that it was folded under, or more of them. -/
theorem Folds.normal (t : Tree (Value H)) (ht : t.Every PlainCallee) {scope around : List String}
    (hsub : ∀ name ∈ scope, name ∈ around) {t' : Tree (Value H)} {s s' : Store H W}
    (h : Folds m d scope t s t' s') : Normal d around t' := by
  have hstep := h.step
  match t with
  | .ident line name =>
    obtain ⟨-, ⟨v, -, -, rfl⟩ | ⟨hname, rfl⟩⟩ := hstep
    · exact normal_const
    · refine normal_ident.2 fun hredex => ?_
      cases hredex with
      | constant hout hv =>
        obtain hin | hnone := hname
        · exact hout (hsub name hin)
        · cases hv.symm.trans hnone
  | .const line v =>
    obtain ⟨-, rfl⟩ := hstep
    exact normal_const
  | .letIn line name value inner =>
    obtain ⟨value', inner', u, hv, hi, rfl⟩ := hstep
    exact normal_letIn.2 ⟨Folds.normal value ht.2.1 (hv.valueScope_subset hsub) hv,
      Folds.normal inner ht.2.2
        (fun n hn => List.mem_cons.2 ((List.mem_cons.1 hn).imp_right (hsub n))) hi⟩
  | .cond line test yes no =>
    obtain ⟨test', u, hf, ⟨v, truth, b, -, -, -, hb⟩ | ⟨hopen, yes', no', w, hy, hn, rfl⟩⟩ := hstep
    · cases b with
      | true => exact Folds.normal yes ht.2.2.1 hsub hb
      | false => exact Folds.normal no ht.2.2.2 hsub hb
    · refine normal_cond.2 ⟨fun hredex => ?_, Folds.normal test ht.2.1 hsub hf,
        Folds.normal yes ht.2.2.1 hsub hy, Folds.normal no ht.2.2.2 hsub hn⟩
      cases hredex with
      | cond htruth =>
        obtain hnone | hnone := hopen
        · cases hnone
        · cases htruth.symm.trans hnone
  | .unary line op operand =>
    obtain ⟨operand', u, hf, ⟨v, o, w, -, -, -, rfl⟩ | ⟨hopen, -, rfl⟩⟩ := hstep
    · exact normal_const
    · refine normal_unary.2 ⟨fun hredex => ?_, Folds.normal operand ht.2 hsub hf⟩
      cases hredex with
      | unary ho =>
        obtain hnone | hnone := hopen
        · cases hnone
        · cases ho.symm.trans hnone
  | .binary line op left right =>
    obtain ⟨left', right', u, w, hl, hr, hf | ⟨hnone, rfl⟩⟩ := hstep
    · obtain ⟨hn, -⟩ | ⟨o, b, t, -, -, -, hsome, hj⟩ := foldBinary?_ok hf
      · cases hn
      · cases hsome
        exact hj.normal (Folds.normal left ht.2.1 hsub hl)
    · exact normal_binary.2 ⟨foldBinary?_none hnone around, Folds.normal left ht.2.1 hsub hl,
        Folds.normal right ht.2.2 hsub hr⟩
  | .closure line params body =>
    obtain ⟨body', hb, rfl⟩ := hstep
    exact normal_closure.2 (Folds.normal body ht.2
      (fun n hn => List.mem_append.2 ((List.mem_append.1 hn).imp_right (hsub n))) hb)
  | .list line items =>
    obtain ⟨items', u, hi, ⟨vs, v, -, -, -, rfl⟩ | ⟨hopen, -, rfl⟩⟩ := hstep
    · exact normal_const
    · refine normal_list.2 ⟨fun hredex => ?_, FoldsAll.normal items ht.2 hsub hi⟩
      cases hredex with
      | list hlists hitems =>
        obtain hnone | hnone := hopen
        · cases hlists.symm.trans hnone
        · exact values?_eq_none.1 hnone hitems
  | .index line source position =>
    obtain ⟨source', position', u, hso, hp, rfl⟩ := hstep
    exact normal_index.2 ⟨Folds.normal source ht.2.1 hsub hso, Folds.normal position ht.2.2 hsub hp⟩
  | .map line entries =>
    obtain ⟨entries', u, he, ⟨vs, v, -, -, -, rfl⟩ | ⟨hopen, -, rfl⟩⟩ := hstep
    · exact normal_const
    · refine normal_map.2 ⟨fun hredex => ?_, FoldsEntries.normal entries ht.2 hsub he⟩
      cases hredex with
      | map hmaps hentries =>
        obtain hnone | hnone := hopen
        · cases hmaps.symm.trans hnone
        · exact entryValues?_eq_none.1 hnone hentries
  | .field line record key =>
    obtain ⟨record', hr, rfl⟩ := hstep
    exact normal_field.2 (Folds.normal record ht.2 hsub hr)
  | .call line callee args =>
    obtain ⟨args', u, ha, ⟨name, f, hst, ⟨vs, v, -, -, -, -, rfl⟩ | ⟨hopen, -, rfl⟩⟩ |
      ⟨hst, callee', hc, rfl⟩⟩ := hstep
    · exact normal_const
    · have hargs := FoldsAll.normal args ht.2.2 hsub ha
      -- around the folded tree the name is still that of the function, or bound
      have hsame {p : String × Function H} (hp : d.static? around callee = some p) :
          p = (name, f) := by
        have hp' := static?_of_subset hsub hp
        rw [hst] at hp'
        exact (Option.some.inj hp').symm
      refine normal_call.2 ⟨fun hredex => ?_, fun hnone => ?_, hargs⟩
      · cases hredex with
        | call hstatic hpure hall =>
          cases hsame hstatic
          obtain hno | ⟨-, hno⟩ := hopen
          · cases hpure.symm.trans hno
          · exact values?_eq_none.1 hno hall
        | misfit hstatic hpure harity =>
          cases hsame hstatic
          obtain hno | ⟨hno, -⟩ := hopen
          · cases hpure.symm.trans hno
          · cases harity.symm.trans hno
      · obtain ⟨l, other, rfl⟩ := static?_eq_some hst
        refine normal_ident.2 fun hredex => ?_
        cases hredex with
        | constant hout hv =>
          rw [static?_eq_function? hout] at hnone
          rw [static?_eq_function? fun hin => hout (hsub other hin)] at hst
          cases hst.symm.trans hnone
    · refine normal_call.2 ⟨fun hredex => ?_, fun _ => Folds.normal callee ht.2.1 hsub hc,
        FoldsAll.normal args ht.2.2 hsub ha⟩
      have hnone := hc.static?_eq_none (ht.1 _ _ _ rfl) hst
      cases hredex with
      | call hstatic => cases (static?_of_subset hsub hstatic).symm.trans hnone
      | misfit hstatic => cases (static?_of_subset hsub hstatic).symm.trans hnone
  | .method line receiver name args =>
    obtain ⟨receiver', args', u, hr, ha, rfl⟩ := hstep
    exact normal_method.2 ⟨Folds.normal receiver ht.2.1 hsub hr,
      FoldsAll.normal args ht.2.2 hsub ha⟩

theorem FoldsAll.normal (ts : List (Tree (Value H))) (hts : Tree.EveryItem PlainCallee ts)
    {scope around : List String} (hsub : ∀ name ∈ scope, name ∈ around)
    {ts' : List (Tree (Value H))} {s s' : Store H W} (h : FoldsAll m d scope ts s ts' s') :
    NormalAll d around ts' := by
  match ts with
  | [] =>
    obtain ⟨-, rfl⟩ := h.nil
    exact normalAll_nil
  | t :: rest =>
    obtain ⟨t', rest', u, hf, hrest, rfl⟩ := h.cons
    exact normalAll_cons.2 ⟨Folds.normal t hts.1 hsub hf, FoldsAll.normal rest hts.2 hsub hrest⟩

theorem FoldsEntries.normal (es : List (String × Tree (Value H)))
    (hes : Tree.EveryEntry PlainCallee es) {scope around : List String}
    (hsub : ∀ name ∈ scope, name ∈ around) {es' : List (String × Tree (Value H))}
    {s s' : Store H W} (h : FoldsEntries m d scope es s es' s') : NormalEntries d around es' := by
  match es with
  | [] =>
    obtain ⟨-, rfl⟩ := h.nil
    exact normalEntries_nil
  | (key, t) :: rest =>
    obtain ⟨t', rest', u, hf, hrest, rfl⟩ := h.cons
    exact normalEntries_cons.2 ⟨Folds.normal t hes.1 hsub hf,
      FoldsEntries.normal rest hes.2 hsub hrest⟩

end

theorem foldBinary?_of_normal {scope : List String} {line : Line} {op : String}
    {left right : Tree (Value H)} (h : ¬ Redex d scope (.binary line op left right)) :
    foldBinary? m d line op left right = pure none := by
  unfold foldBinary?
  cases ho : d.operator? op with
  | none => rfl
  | some o =>
    cases hb : right.const? with
    | none => rfl
    | some b =>
      obtain ⟨l, rfl⟩ := const?_eq_some hb
      by_cases hpure : o.isPure = true
      · have hsymbol := operator?_symbol ho
        subst hsymbol
        simp only [hpure, if_true]
        fun_cases combine m o line left b with
        | case1 => exact absurd (.binary ho hpure) h
        | case2 => rfl
        | case3 l op lc c _ hop la a =>
          obtain ⟨hcomm, rfl⟩ := regroups hop
          exact absurd (.left ho hpure hcomm) h
        | case4 l op lc c _ hop x hx =>
          obtain ⟨hcomm, rfl⟩ := regroups hop
          exact absurd (.right ho hpure hcomm) h
        | case5 => rfl
        | case6 l op la a y _ hy hop =>
          obtain ⟨hcomm, rfl⟩ := regroups hop
          exact absurd (.left ho hpure hcomm) h
        | case7 => rfl
      · simp only [if_neg hpure]

theorem foldCall?_of_normal {scope : List String} {line l : Line} {name : String} {f : Function H}
    {callee : Tree (Value H)} {fs : List (Folded H)}
    (hstatic : d.static? scope callee = some (name, f))
    (h : ¬ Redex d scope (.call l callee (trees fs))) :
    (foldCall? m line name f fs : Run H W FoldError _) = pure none := by
  unfold foldCall?
  by_cases hpure : f.isPure = true
  · have harity : f.arity.accepts fs.length = true := by
      cases ha : f.arity.accepts fs.length with
      | true => rfl
      | false => exact absurd (.misfit hstatic hpure (by rw [length_trees]; exact ha)) h
    have hvalues : constants? fs = none := by
      rw [constants?_eq, values?_eq_none]
      exact fun hargs => h (.call hstatic hpure hargs)
    simp [hpure, harity, hvalues]
  · simp [hpure]

/-- Trees that are kept. -/
def keptTrees (ts : List (Tree (Value H))) : List (Folded H) := ts.map fun t => ⟨t, true⟩

def keptEntries (es : List (String × Tree (Value H))) : List (String × Folded H) :=
  es.map fun e => (e.1, ⟨e.2, true⟩)

theorem trees_keptTrees (ts : List (Tree (Value H))) : trees (keptTrees ts) = ts := by
  simp [trees, keptTrees, Function.comp_def]

theorem allKept_keptTrees (ts : List (Tree (Value H))) : allKept (keptTrees ts) = true := by
  simp [allKept, keptTrees]

theorem entryTrees_keptEntries (es : List (String × Tree (Value H))) :
    entryTrees (keptEntries es) = es := by
  simp [entryTrees, keptEntries, Function.comp_def]

theorem allEntriesKept_keptEntries (es : List (String × Tree (Value H))) :
    allEntriesKept (keptEntries es) = true := by
  simp [allEntriesKept, keptEntries]

mutual

/-- Folding keeps a normal tree, and runs nothing to find that out. -/
theorem fold_of_normal (t : Tree (Value H)) {scope : List String} (h : Normal d scope t) :
    fold m d t scope = pure ⟨t, true⟩ := by
  match t with
  | .ident line name =>
    have hno := normal_ident.1 h
    have hnone : (if scope.contains name then none else d.constant? name) = none := by
      by_cases hname : name ∈ scope
      · simp [hname]
      · cases hv : d.constant? name with
        | none => simp
        | some v => exact absurd (.constant hname hv) hno
    simp only [fold, hnone]
  | .const line v => rfl
  | .letIn line name value inner =>
    obtain ⟨hvalue, hinner⟩ := normal_letIn.1 h
    simp only [fold, fold_of_normal value hvalue, fold_of_normal inner hinner, pure_bind]
    rfl
  | .cond line test yes no =>
    obtain ⟨hno, htest, hyes, hno'⟩ := normal_cond.1 h
    simp only [fold, fold_of_normal test htest, fold_of_normal yes hyes, fold_of_normal no hno',
      pure_bind]
    cases hv : test.const? with
    | none => rfl
    | some v =>
      obtain ⟨l, rfl⟩ := const?_eq_some hv
      cases htruth : d.truth with
      | none => rfl
      | some truth => exact absurd (.cond htruth) hno
  | .unary line op operand =>
    obtain ⟨hno, hoperand⟩ := normal_unary.1 h
    simp only [fold, fold_of_normal operand hoperand, pure_bind]
    cases hv : operand.const? with
    | none => rfl
    | some v =>
      obtain ⟨l, rfl⟩ := const?_eq_some hv
      cases ho : d.unary? op with
      | none => rfl
      | some o => exact absurd (.unary ho) hno
  | .binary line op left right =>
    obtain ⟨hno, hleft, hright⟩ := normal_binary.1 h
    simp only [fold, fold_of_normal left hleft, fold_of_normal right hright, pure_bind,
      foldBinary?_of_normal hno]
    rfl
  | .closure line params body =>
    simp only [fold, fold_of_normal body (normal_closure.1 h), pure_bind]
    rfl
  | .list line items =>
    obtain ⟨hno, hitems⟩ := normal_list.1 h
    have hnone : (if d.lists then constants? (keptTrees items) else none) = none := by
      by_cases hlists : d.lists = true
      · rw [if_pos hlists, constants?_eq, trees_keptTrees, values?_eq_none]
        exact fun hall => hno (.list hlists hall)
      · rw [if_neg hlists]
    simp only [fold, foldAll_of_normal items hitems, pure_bind, hnone, allKept_keptTrees]
    rfl
  | .index line source position =>
    obtain ⟨hsource, hposition⟩ := normal_index.1 h
    simp only [fold, fold_of_normal source hsource, fold_of_normal position hposition, pure_bind]
    rfl
  | .map line entries =>
    obtain ⟨hno, hentries⟩ := normal_map.1 h
    have hnone : (if d.maps then entryConstants? (keptEntries entries) else none) = none := by
      by_cases hmaps : d.maps = true
      · rw [if_pos hmaps, entryConstants?_eq, entryTrees_keptEntries, entryValues?_eq_none]
        exact fun hall => hno (.map hmaps hall)
      · rw [if_neg hmaps]
    simp only [fold, foldEntries_of_normal entries hentries, pure_bind, hnone,
      allEntriesKept_keptEntries]
    rfl
  | .field line record key =>
    simp only [fold, fold_of_normal record (normal_field.1 h), pure_bind]
    rfl
  | .call line callee args =>
    obtain ⟨hno, hcallee, hargs⟩ := normal_call.1 h
    simp only [fold, foldAll_of_normal args hargs, pure_bind]
    cases hstatic : d.static? scope callee with
    | none =>
      simp only [fold_of_normal callee (hcallee hstatic), pure_bind, allKept_keptTrees]
      rfl
    | some p =>
      have hcall : ¬ Redex d scope (.call line callee (trees (keptTrees args))) := by
        rw [trees_keptTrees]
        exact hno
      simp only [foldCall?_of_normal hstatic hcall, pure_bind, allKept_keptTrees]
      rfl
  | .method line receiver name args =>
    obtain ⟨hreceiver, hargs⟩ := normal_method.1 h
    simp only [fold, fold_of_normal receiver hreceiver, foldAll_of_normal args hargs, pure_bind,
      allKept_keptTrees]
    rfl

theorem foldAll_of_normal (ts : List (Tree (Value H))) {scope : List String}
    (h : NormalAll d scope ts) : foldAll m d ts scope = pure (keptTrees ts) := by
  match ts with
  | [] => rfl
  | t :: rest =>
    obtain ⟨ht, hrest⟩ := normalAll_cons.1 h
    simp only [foldAll, fold_of_normal t ht, foldAll_of_normal rest hrest, pure_bind]
    rfl

theorem foldEntries_of_normal (es : List (String × Tree (Value H))) {scope : List String}
    (h : NormalEntries d scope es) : foldEntries m d es scope = pure (keptEntries es) := by
  match es with
  | [] => rfl
  | (key, t) :: rest =>
    obtain ⟨ht, hrest⟩ := normalEntries_cons.1 h
    simp only [foldEntries, fold_of_normal t ht, foldEntries_of_normal rest hrest, pure_bind]
    rfl

end

/-- Folding reaches a normal form in one pass. If no callee of a tree is a conditional, then its
folded form has no redex, and folding it again, on any machine and in any store, keeps it and
changes nothing. -/
theorem optimize_normal {t : Tree (Value H)}
    (hcallee : ∀ line callee args, .call line callee args ∈ t.nodes → callee.isCond = false)
    {s s' : Store H W} {f : Folded H} (h : Engine.optimize m d t s = .ok f s') :
    (∀ p ∈ places d [] f.tree, ¬ Redex d p.scope p.node) ∧
      ∀ (m' : Machine H W) (r : Store H W),
        Engine.optimize m' d f.tree r = .ok ⟨f.tree, true⟩ r := by
  have hnamed : t.Every PlainCallee := by
    refine (Tree.every_iff t).2 fun node hnode line callee args he => ?_
    subst he
    exact hcallee line callee args hnode
  have hnormal : Normal d [] f.tree := Folds.normal t hnamed (fun _ hname => hname) ⟨f.kept, h⟩
  refine ⟨hnormal, fun m' r => ?_⟩
  rw [Engine.optimize, fold_of_normal f.tree hnormal]
  rfl

namespace Settling

/-- The call `pi(true)` below a `let pi` of the given value. -/
def below (value argument : Tree (Value Empty)) : Tree (Value Empty) :=
  .letIn ⟨1⟩ "pi" value (.call ⟨2⟩ (.ident ⟨2⟩ "pi") [argument])

/-- `if true then (x) -> [(x * 2) * abs(-3), pi] else 0` -/
def given : Tree (Value Empty) :=
  .cond ⟨1⟩ (.ident ⟨1⟩ "true")
    (.closure ⟨1⟩ ["x"] (.list ⟨1⟩
      [.binary ⟨1⟩ "*" (.binary ⟨1⟩ "*" (.ident ⟨1⟩ "x") (.const ⟨1⟩ (.int 2)))
        (.call ⟨1⟩ (.ident ⟨1⟩ "abs") [.unary ⟨1⟩ "-" (.const ⟨1⟩ (.int 3))]),
        .ident ⟨1⟩ "pi"]))
    (.const ⟨1⟩ (.int 0))

/-- `(x) -> [x * 6, 3.14…]` -/
def folded : Tree (Value Empty) :=
  .closure ⟨1⟩ ["x"] (.list ⟨1⟩
    [.binary ⟨1⟩ "*" (.ident ⟨1⟩ "x") (.const ⟨1⟩ (.int 6)), .const ⟨1⟩ (.float Dialect.pi)])

theorem named_callees (line : Line) (callee : Tree (Value Empty)) (args : List (Tree (Value Empty)))
    (h : .call line callee args ∈ (below given (.ident ⟨2⟩ "true")).nodes) :
    callee.isCond = false := by
  simp only [below, given, Tree.nodes, Tree.nodesAll, List.append_nil, List.cons_append,
    List.nil_append, List.mem_cons, reduceCtorEq, false_or, List.not_mem_nil, or_false,
    Tree.call.injEq] at h
  obtain ⟨-, rfl, -⟩ | ⟨-, rfl, -⟩ := h
  · rfl
  · rfl

theorem optimize_given :
    Engine.optimize Rebinding.machine Dialect.standard (below given (.ident ⟨2⟩ "true"))
        Rebinding.start =
      .ok ⟨below folded (.const ⟨2⟩ (.bool true)), false⟩ Rebinding.start := by
  rfl

end Settling

open Settling Rebinding in
/-- The constants of a product are joined, and a closure literal comes to stand behind its `let`,
where the name of the constant `pi` is bound: nothing is left to fold. -/
theorem optimize_normal_settled :
    Engine.optimize machine Dialect.standard (below given (.ident ⟨2⟩ "true")) start =
        .ok ⟨below folded (.const ⟨2⟩ (.bool true)), false⟩ start ∧
      (∀ p ∈ places Dialect.standard [] (below folded (.const ⟨2⟩ (.bool true))),
        ¬ Redex Dialect.standard p.scope p.node) ∧
      Engine.optimize machine Dialect.standard (below folded (.const ⟨2⟩ (.bool true))) start =
        .ok ⟨below folded (.const ⟨2⟩ (.bool true)), true⟩ start := by
  have h := optimize_normal named_callees optimize_given
  exact ⟨optimize_given, h.1, h.2 machine start⟩

end Folding

end Formula
