import Formula.Folding

/-!
Folding as rules. `Folds` forgets whether a tree was kept and says only which tree comes out;
`Step` gives for each kind of node what its children fold to and how the result is made of
them. A tree that was kept is the given one, so a rebuilt node is the same either way and the
rules need not mention it.
-/
namespace Formula
namespace Folding

variable {H W : Type} {m : Machine H W} {d : Dialect H}

/-- Folding `t` under some bound names gives `t'` and takes the store from `s` to `s'`. -/
def Folds (m : Machine H W) (d : Dialect H) (scope : List String) (t : Tree (Value H))
    (s : Store H W) (t' : Tree (Value H)) (s' : Store H W) : Prop :=
  ∃ kept, fold m d t scope s = .ok ⟨t', kept⟩ s'

def FoldsAll (m : Machine H W) (d : Dialect H) (scope : List String) (ts : List (Tree (Value H)))
    (s : Store H W) (ts' : List (Tree (Value H))) (s' : Store H W) : Prop :=
  ∃ fs, foldAll m d ts scope s = .ok fs s' ∧ trees fs = ts'

def FoldsEntries (m : Machine H W) (d : Dialect H) (scope : List String)
    (es : List (String × Tree (Value H))) (s : Store H W) (es' : List (String × Tree (Value H)))
    (s' : Store H W) : Prop :=
  ∃ fs, foldEntries m d es scope s = .ok fs s' ∧ entryTrees fs = es'

/-- The constants of some trees, if all of them are constants. -/
def values? (ts : List (Tree (Value H))) : Option (List (Value H)) := ts.mapM Tree.const?

def entryValues? (es : List (String × Tree (Value H))) : Option (List (String × Value H)) :=
  es.mapM fun (key, t) => t.const?.map fun v => (key, v)

/-- What a node folds to, given what its children fold to. -/
def Step (m : Machine H W) (d : Dialect H) (scope : List String) :
    Tree (Value H) → Store H W → Tree (Value H) → Store H W → Prop
  | .ident line name, s, t', s' =>
    s' = s ∧ ((∃ v, name ∉ scope ∧ d.constant? name = some v ∧ t' = .const line v) ∨
      ((name ∈ scope ∨ d.constant? name = none) ∧ t' = .ident line name))
  | .const line v, s, t', s' => s' = s ∧ t' = .const line v
  | .letIn line name value inner, s, t', s' =>
    ∃ value' inner' u, Folds m d (valueScope name scope value) value s value' u ∧
      Folds m d (name :: scope) inner u inner' s' ∧ t' = .letIn line name value' inner'
  | .cond line test yes no, s, t', s' =>
    ∃ test' u, Folds m d scope test s test' u ∧
      ((∃ v truth b, test'.const? = some v ∧ d.truth = some truth ∧
          truth.read m.host v = some b ∧ Folds m d scope (if b then yes else no) u t' s') ∨
        ((test'.const? = none ∨ d.truth = none) ∧ ∃ yes' no' w, Folds m d scope yes u yes' w ∧
          Folds m d scope no w no' s' ∧ t' = .cond line test' yes' no'))
  | .unary line op operand, s, t', s' =>
    ∃ operand' u, Folds m d scope operand s operand' u ∧
      ((∃ v o w, operand'.const? = some v ∧ d.unary? op = some o ∧
          o.callback.run m [v] u = .ok w s' ∧ t' = .const line w) ∨
        ((operand'.const? = none ∨ d.unary? op = none) ∧ s' = u ∧ t' = .unary line op operand'))
  | .binary line op left right, s, t', s' =>
    ∃ left' right' u w, Folds m d scope left s left' u ∧ Folds m d scope right u right' w ∧
      (foldBinary? m d line op left' right' w = .ok (some t') s' ∨
        (foldBinary? m d line op left' right' w = .ok none s' ∧ t' = .binary line op left' right'))
  | .closure line params body, s, t', s' =>
    ∃ body', Folds m d (params ++ scope) body s body' s' ∧ t' = .closure line params body'
  | .list line items, s, t', s' =>
    ∃ items' u, FoldsAll m d scope items s items' u ∧
      ((∃ vs v, d.lists = true ∧ values? items' = some vs ∧
          (Store.newList vs : Run H W FoldError _) u = .ok v s' ∧ t' = .const line v) ∨
        ((d.lists = false ∨ values? items' = none) ∧ s' = u ∧ t' = .list line items'))
  | .index line source position, s, t', s' =>
    ∃ source' position' u, Folds m d scope source s source' u ∧
      Folds m d scope position u position' s' ∧ t' = .index line source' position'
  | .map line entries, s, t', s' =>
    ∃ entries' u, FoldsEntries m d scope entries s entries' u ∧
      ((∃ vs v, d.maps = true ∧ entryValues? entries' = some vs ∧
          (Store.newMap (.ofList vs) : Run H W FoldError _) u = .ok v s' ∧ t' = .const line v) ∨
        ((d.maps = false ∨ entryValues? entries' = none) ∧ s' = u ∧ t' = .map line entries'))
  | .field line record key, s, t', s' =>
    ∃ record', Folds m d scope record s record' s' ∧ t' = .field line record' key
  | .call line callee args, s, t', s' =>
    ∃ args' u, FoldsAll m d scope args s args' u ∧
      ((∃ name f, d.static? scope callee = some (name, f) ∧
          ((∃ vs v, f.isPure = true ∧ f.arity.accepts args'.length = true ∧
              values? args' = some vs ∧ m.call f vs u = .ok v s' ∧
              t' = .const (callee.line.or line) v) ∨
            ((f.isPure = false ∨ f.arity.accepts args'.length = true ∧ values? args' = none) ∧
              s' = u ∧ t' = .call line callee args'))) ∨
        (d.static? scope callee = none ∧ ∃ callee', Folds m d scope callee u callee' s' ∧
          t' = .call line callee' args'))
  | .method line receiver name args, s, t', s' =>
    ∃ receiver' args' u, Folds m d scope receiver s receiver' u ∧
      FoldsAll m d scope args u args' s' ∧ t' = .method line receiver' name args'

theorem rebuild_kept (given rebuilt : Tree (Value H)) (kept : Bool) :
    (rebuild given kept rebuilt).kept = kept := by cases kept <;> rfl

theorem rebuild_tree {given rebuilt : Tree (Value H)} {kept : Bool} (h : kept = true → rebuilt = given) :
    (rebuild given kept rebuilt).tree = rebuilt := by
  cases kept with
  | false => rfl
  | true => exact (h rfl).symm

theorem rebuild_eq_given {given rebuilt : Tree (Value H)} {kept : Bool}
    (h : (rebuild given kept rebuilt).kept = true) : (rebuild given kept rebuilt).tree = given := by
  rw [rebuild_kept] at h
  subst h
  rfl

/-- A tree that counts as kept is the given one. -/
theorem fold_kept {t : Tree (Value H)} {scope : List String} {s s' : Store H W} {f : Folded H}
    (h : fold m d t scope s = .ok f s') (hk : f.kept = true) : f.tree = t := by
  cases t with
  | ident line name =>
    cases hc : (if scope.contains name then none else d.constant? name) with
    | none => simp only [fold, hc] at h; cases h; rfl
    | some v => simp only [fold, hc] at h; cases h; cases hk
  | const line v => cases h; rfl
  | letIn line name value inner =>
    simp only [fold, Run.bind_eq_ok] at h
    obtain ⟨v, u, hv, i, u', hi, h⟩ := h
    cases h
    exact rebuild_eq_given hk
  | cond line test yes no =>
    simp only [fold, Run.bind_eq_ok] at h
    obtain ⟨t, u, ht, h⟩ := h
    cases hc : t.tree.const? with
    | none =>
      simp only [hc, Run.bind_eq_ok] at h
      obtain ⟨y, u', hy, n, u'', hn, h⟩ := h
      cases h
      exact rebuild_eq_given hk
    | some v =>
      cases hb : d.truth with
      | none =>
        simp only [hc, hb, Run.bind_eq_ok] at h
        obtain ⟨y, u', hy, n, u'', hn, h⟩ := h
        cases h
        exact rebuild_eq_given hk
      | some truth =>
        cases hr : truth.read m.host v with
        | none =>
          simp only [hc, hb, hr, Run.bind_eq_ok] at h
          obtain ⟨_, _, _, h⟩ := h
          cases h
        | some b =>
          cases b
          all_goals
            simp only [hc, hb, hr, Run.bind_eq_ok] at h
            obtain ⟨_, _, _, h⟩ := h
            cases h
            cases hk
  | unary line op operand =>
    simp only [fold, Run.bind_eq_ok] at h
    obtain ⟨t, u, ht, h⟩ := h
    cases hc : t.tree.const? with
    | none =>
      simp only [hc] at h
      cases h
      exact rebuild_eq_given hk
    | some v =>
      cases ho : d.unary? op with
      | none =>
        simp only [hc, ho] at h
        cases h
        exact rebuild_eq_given hk
      | some o =>
        simp only [hc, ho, Run.bind_eq_ok] at h
        obtain ⟨_, _, _, h⟩ := h
        cases h
        cases hk
  | binary line op left right =>
    simp only [fold, Run.bind_eq_ok] at h
    obtain ⟨a, u, ha, b, u', hb, r, u'', hr, h⟩ := h
    cases r with
    | none => cases h; exact rebuild_eq_given hk
    | some t => cases h; cases hk
  | closure line params body =>
    simp only [fold, Run.bind_eq_ok] at h
    obtain ⟨b, u, hb, h⟩ := h
    cases h
    exact rebuild_eq_given hk
  | list line items =>
    simp only [fold, Run.bind_eq_ok] at h
    obtain ⟨ts, u, hts, h⟩ := h
    cases hc : (if d.lists then constants? ts else none) with
    | none =>
      simp only [hc] at h
      cases h
      exact rebuild_eq_given hk
    | some vs =>
      simp only [hc, Run.bind_eq_ok] at h
      obtain ⟨_, _, _, h⟩ := h
      cases h
      cases hk
  | index line source position =>
    simp only [fold, Run.bind_eq_ok] at h
    obtain ⟨a, u, ha, b, u', hb, h⟩ := h
    cases h
    exact rebuild_eq_given hk
  | map line entries =>
    simp only [fold, Run.bind_eq_ok] at h
    obtain ⟨es, u, hes, h⟩ := h
    cases hc : (if d.maps then entryConstants? es else none) with
    | none =>
      simp only [hc] at h
      cases h
      exact rebuild_eq_given hk
    | some vs =>
      simp only [hc, Run.bind_eq_ok] at h
      obtain ⟨_, _, _, h⟩ := h
      cases h
      cases hk
  | field line record key =>
    simp only [fold, Run.bind_eq_ok] at h
    obtain ⟨r, u, hr, h⟩ := h
    cases h
    exact rebuild_eq_given hk
  | call line callee args =>
    simp only [fold, Run.bind_eq_ok] at h
    obtain ⟨ts, u, hts, h⟩ := h
    cases hs : d.static? scope callee with
    | none =>
      simp only [hs, Run.bind_eq_ok] at h
      obtain ⟨c, u', hc, h⟩ := h
      cases h
      exact rebuild_eq_given hk
    | some p =>
      simp only [hs, Run.bind_eq_ok] at h
      obtain ⟨r, u', hr, h⟩ := h
      cases r with
      | none => cases h; exact rebuild_eq_given hk
      | some v => cases h; cases hk
  | method line receiver name args =>
    simp only [fold, Run.bind_eq_ok] at h
    obtain ⟨r, u, hr, ts, u', hts, h⟩ := h
    cases h
    exact rebuild_eq_given hk

theorem foldAll_kept {ts : List (Tree (Value H))} {scope : List String} {s s' : Store H W}
    {fs : List (Folded H)} (h : foldAll m d ts scope s = .ok fs s') (hk : allKept fs = true) :
    trees fs = ts := by
  induction ts generalizing s fs with
  | nil => cases h; rfl
  | cons t rest ih =>
    simp only [foldAll, Run.bind_eq_ok] at h
    obtain ⟨f, u, hf, fs', u', hfs, h⟩ := h
    cases h
    simp only [allKept, List.all_cons, Bool.and_eq_true] at hk
    have hrest : trees fs' = rest := ih hfs hk.2
    simp only [trees, List.map_cons] at hrest ⊢
    rw [fold_kept hf hk.1, hrest]

theorem foldEntries_kept {es : List (String × Tree (Value H))} {scope : List String}
    {s s' : Store H W} {fs : List (String × Folded H)}
    (h : foldEntries m d es scope s = .ok fs s') (hk : allEntriesKept fs = true) :
    entryTrees fs = es := by
  induction es generalizing s fs with
  | nil => cases h; rfl
  | cons e rest ih =>
    obtain ⟨key, t⟩ := e
    simp only [foldEntries, Run.bind_eq_ok] at h
    obtain ⟨f, u, hf, fs', u', hfs, h⟩ := h
    cases h
    simp only [allEntriesKept, List.all_cons, Bool.and_eq_true] at hk
    have hrest : entryTrees fs' = rest := ih hfs hk.2
    simp only [entryTrees, List.map_cons] at hrest ⊢
    rw [fold_kept hf hk.1, hrest]

theorem constants?_eq (fs : List (Folded H)) : constants? fs = values? (trees fs) := by
  simp only [constants?, values?, trees, List.mapM_map]
  rfl

theorem entryConstants?_eq (fs : List (String × Folded H)) :
    entryConstants? fs = entryValues? (entryTrees fs) := by
  simp only [entryConstants?, entryValues?, entryTrees, List.mapM_map]
  rfl

theorem length_trees (fs : List (Folded H)) : (trees fs).length = fs.length := by
  simp [trees]

theorem foldCall?_ok {line : Line} {name : String} {f : Function H} {fs : List (Folded H)}
    {s s' : Store H W} {r : Option (Value H)} (h : foldCall? m line name f fs s = .ok r s') :
    (∃ vs v, f.isPure = true ∧ f.arity.accepts fs.length = true ∧ constants? fs = some vs ∧
        m.call f vs s = .ok v s' ∧ r = some v) ∨
      ((f.isPure = false ∨ f.arity.accepts fs.length = true ∧ constants? fs = none) ∧ s' = s ∧
        r = none) := by
  unfold foldCall? at h
  cases hp : f.isPure with
  | false =>
    simp only [hp, Bool.not_false, if_true] at h
    cases h
    exact .inr ⟨.inl rfl, rfl, rfl⟩
  | true =>
    cases ha : f.arity.accepts fs.length with
    | false =>
      simp only [hp, ha, Bool.not_true, Bool.not_false, Bool.false_eq_true, if_false, if_true,
        Run.bind_eq_ok] at h
      obtain ⟨_, _, h, _⟩ := h
      cases h
    | true =>
      simp only [hp, ha, Bool.not_true, Bool.false_eq_true, if_false] at h
      cases hc : constants? fs with
      | none =>
        simp only [hc] at h
        cases h
        exact .inr ⟨.inr ⟨rfl, rfl⟩, rfl, rfl⟩
      | some vs =>
        simp only [hc, map_eq_pure_bind, Run.bind_eq_ok, Run.mapFault_ok] at h
        obtain ⟨v, u, hv, h⟩ := h
        cases h
        exact .inl ⟨vs, v, rfl, rfl, rfl, hv, rfl⟩

theorem step_of_fold {t : Tree (Value H)} {scope : List String} {s s' : Store H W} {f : Folded H}
    (h : fold m d t scope s = .ok f s') : Step m d scope t s f.tree s' := by
  cases t with
  | ident line name =>
    cases hs : scope.contains name with
    | true =>
      simp only [fold, hs, if_true] at h
      cases h
      exact ⟨rfl, .inr ⟨.inl (List.contains_iff_mem.1 hs), rfl⟩⟩
    | false =>
      have hn : name ∉ scope := by simpa using hs
      cases hc : d.constant? name with
      | none =>
        simp only [fold, hs, hc, Bool.false_eq_true, if_false] at h
        cases h
        exact ⟨rfl, .inr ⟨.inr hc, rfl⟩⟩
      | some v =>
        simp only [fold, hs, hc, Bool.false_eq_true, if_false] at h
        cases h
        exact ⟨rfl, .inl ⟨v, hn, hc, rfl⟩⟩
  | const line v => cases h; exact ⟨rfl, rfl⟩
  | letIn line name value inner =>
    simp only [fold, Run.bind_eq_ok] at h
    obtain ⟨v, u, hv, i, u', hi, h⟩ := h
    cases h
    refine ⟨v.tree, i.tree, u, ⟨v.kept, hv⟩, ⟨i.kept, hi⟩, rebuild_tree fun hk => ?_⟩
    rw [Bool.and_eq_true] at hk
    rw [fold_kept hv hk.1, fold_kept hi hk.2]
  | cond line test yes no =>
    simp only [fold, Run.bind_eq_ok] at h
    obtain ⟨t, u, ht, h⟩ := h
    refine ⟨t.tree, u, ⟨t.kept, ht⟩, ?_⟩
    -- both ways in which no branch is chosen fold the three parts and rebuild
    have open_ (h : (do
        let y ← fold m d yes scope
        let n ← fold m d no scope
        return rebuild (.cond line test yes no) (t.kept && y.kept && n.kept)
          (.cond line t.tree y.tree n.tree) : Run H W FoldError (Folded H)) u = .ok f s') :
        ∃ yes' no' w, Folds m d scope yes u yes' w ∧ Folds m d scope no w no' s' ∧
          f.tree = .cond line t.tree yes' no' := by
      simp only [Run.bind_eq_ok] at h
      obtain ⟨y, w, hy, n, u', hn, h⟩ := h
      cases h
      refine ⟨y.tree, n.tree, w, ⟨y.kept, hy⟩, ⟨n.kept, hn⟩, rebuild_tree fun hk => ?_⟩
      rw [Bool.and_eq_true, Bool.and_eq_true] at hk
      rw [fold_kept ht hk.1.1, fold_kept hy hk.1.2, fold_kept hn hk.2]
    cases hc : t.tree.const? with
    | none =>
      simp only [hc] at h
      exact .inr ⟨.inl rfl, open_ h⟩
    | some v =>
      cases hb : d.truth with
      | none =>
        simp only [hc, hb] at h
        exact .inr ⟨.inr rfl, open_ h⟩
      | some truth =>
        cases hr : truth.read m.host v with
        | none =>
          simp only [hc, hb, hr, Run.bind_eq_ok] at h
          obtain ⟨_, _, _, h⟩ := h
          cases h
        | some b =>
          refine .inl ⟨v, truth, b, rfl, rfl, hr, ?_⟩
          cases b
          all_goals
            simp only [hc, hb, hr, Run.bind_eq_ok] at h
            obtain ⟨g, w, hg, h⟩ := h
            cases h
            exact ⟨g.kept, hg⟩
  | unary line op operand =>
    simp only [fold, Run.bind_eq_ok] at h
    obtain ⟨t, u, ht, h⟩ := h
    refine ⟨t.tree, u, ⟨t.kept, ht⟩, ?_⟩
    have same : (rebuild (.unary line op operand) t.kept (.unary line op t.tree)).tree =
        .unary line op t.tree := rebuild_tree fun hk => by rw [fold_kept ht hk]
    cases hc : t.tree.const? with
    | none =>
      simp only [hc] at h
      cases h
      exact .inr ⟨.inl rfl, rfl, same⟩
    | some v =>
      cases ho : d.unary? op with
      | none =>
        simp only [hc, ho] at h
        cases h
        exact .inr ⟨.inr rfl, rfl, same⟩
      | some o =>
        simp only [hc, ho, Run.bind_eq_ok, Run.mapFault_ok] at h
        obtain ⟨w, u', hw, h⟩ := h
        cases h
        exact .inl ⟨v, o, w, rfl, rfl, hw, rfl⟩
  | binary line op left right =>
    simp only [fold, Run.bind_eq_ok] at h
    obtain ⟨a, u, ha, b, u', hb, r, u'', hr, h⟩ := h
    refine ⟨a.tree, b.tree, u, u', ⟨a.kept, ha⟩, ⟨b.kept, hb⟩, ?_⟩
    cases r with
    | none =>
      cases h
      refine .inr ⟨hr, rebuild_tree fun hk => ?_⟩
      rw [Bool.and_eq_true] at hk
      rw [fold_kept ha hk.1, fold_kept hb hk.2]
    | some t => cases h; exact .inl hr
  | closure line params body =>
    simp only [fold, Run.bind_eq_ok] at h
    obtain ⟨b, u, hb, h⟩ := h
    cases h
    exact ⟨b.tree, ⟨b.kept, hb⟩, rebuild_tree fun hk => by rw [fold_kept hb hk]⟩
  | list line items =>
    simp only [fold, Run.bind_eq_ok] at h
    obtain ⟨ts, u, hts, h⟩ := h
    refine ⟨trees ts, u, ⟨ts, hts, rfl⟩, ?_⟩
    rw [← constants?_eq]
    have same : (rebuild (.list line items) (allKept ts) (.list line (trees ts))).tree =
        .list line (trees ts) := rebuild_tree fun hk => by rw [foldAll_kept hts hk]
    cases hl : d.lists with
    | false =>
      simp only [hl, Bool.false_eq_true, if_false] at h
      cases h
      exact .inr ⟨.inl rfl, rfl, same⟩
    | true =>
      simp only [hl, if_true] at h
      cases hc : constants? ts with
      | none =>
        simp only [hc] at h
        cases h
        exact .inr ⟨.inr rfl, rfl, same⟩
      | some vs =>
        simp only [hc, Run.bind_eq_ok] at h
        obtain ⟨v, u', hv, h⟩ := h
        cases h
        exact .inl ⟨vs, v, rfl, rfl, hv, rfl⟩
  | index line source position =>
    simp only [fold, Run.bind_eq_ok] at h
    obtain ⟨a, u, ha, b, u', hb, h⟩ := h
    cases h
    refine ⟨a.tree, b.tree, u, ⟨a.kept, ha⟩, ⟨b.kept, hb⟩, rebuild_tree fun hk => ?_⟩
    rw [Bool.and_eq_true] at hk
    rw [fold_kept ha hk.1, fold_kept hb hk.2]
  | map line entries =>
    simp only [fold, Run.bind_eq_ok] at h
    obtain ⟨es, u, hes, h⟩ := h
    refine ⟨entryTrees es, u, ⟨es, hes, rfl⟩, ?_⟩
    rw [← entryConstants?_eq]
    have same : (rebuild (.map line entries) (allEntriesKept es) (.map line (entryTrees es))).tree =
        .map line (entryTrees es) := rebuild_tree fun hk => by rw [foldEntries_kept hes hk]
    cases hl : d.maps with
    | false =>
      simp only [hl, Bool.false_eq_true, if_false] at h
      cases h
      exact .inr ⟨.inl rfl, rfl, same⟩
    | true =>
      simp only [hl, if_true] at h
      cases hc : entryConstants? es with
      | none =>
        simp only [hc] at h
        cases h
        exact .inr ⟨.inr rfl, rfl, same⟩
      | some vs =>
        simp only [hc, Run.bind_eq_ok] at h
        obtain ⟨v, u', hv, h⟩ := h
        cases h
        exact .inl ⟨vs, v, rfl, rfl, hv, rfl⟩
  | field line record key =>
    simp only [fold, Run.bind_eq_ok] at h
    obtain ⟨r, u, hr, h⟩ := h
    cases h
    exact ⟨r.tree, ⟨r.kept, hr⟩, rebuild_tree fun hk => by rw [fold_kept hr hk]⟩
  | call line callee args =>
    simp only [fold, Run.bind_eq_ok] at h
    obtain ⟨ts, u, hts, h⟩ := h
    refine ⟨trees ts, u, ⟨ts, hts, rfl⟩, ?_⟩
    rw [← constants?_eq, length_trees]
    cases hs : d.static? scope callee with
    | none =>
      simp only [hs, Run.bind_eq_ok] at h
      obtain ⟨c, u', hc, h⟩ := h
      cases h
      refine .inr ⟨rfl, c.tree, ⟨c.kept, hc⟩, rebuild_tree fun hk => ?_⟩
      rw [Bool.and_eq_true] at hk
      rw [fold_kept hc hk.1, foldAll_kept hts hk.2]
    | some p =>
      obtain ⟨name, g⟩ := p
      simp only [hs, Run.bind_eq_ok] at h
      obtain ⟨r, u', hr, h⟩ := h
      refine .inl ⟨name, g, rfl, ?_⟩
      obtain ⟨vs, v, hp, ha, hc, hv, rfl⟩ | ⟨hc, rfl, rfl⟩ := foldCall?_ok hr
      · cases h
        exact .inl ⟨vs, v, hp, ha, hc, hv, rfl⟩
      · cases h
        exact .inr ⟨hc, rfl, rebuild_tree fun hk => by rw [foldAll_kept hts hk]⟩
  | method line receiver name args =>
    simp only [fold, Run.bind_eq_ok] at h
    obtain ⟨r, u, hr, ts, u', hts, h⟩ := h
    cases h
    refine ⟨r.tree, trees ts, u, ⟨r.kept, hr⟩, ⟨ts, hts, rfl⟩, rebuild_tree fun hk => ?_⟩
    rw [Bool.and_eq_true] at hk
    rw [fold_kept hr hk.1, foldAll_kept hts hk.2]

/-- Whatever folding gives is given by the rule for that kind of node. -/
theorem Folds.step {t t' : Tree (Value H)} {scope : List String} {s s' : Store H W}
    (h : Folds m d scope t s t' s') : Step m d scope t s t' s' := by
  obtain ⟨kept, h⟩ := h
  exact step_of_fold h

theorem FoldsAll.nil {ts' : List (Tree (Value H))} {scope : List String} {s s' : Store H W}
    (h : FoldsAll m d scope [] s ts' s') : s' = s ∧ ts' = [] := by
  obtain ⟨fs, h, rfl⟩ := h
  cases h
  exact ⟨rfl, rfl⟩

theorem FoldsAll.cons {t : Tree (Value H)} {ts ts' : List (Tree (Value H))} {scope : List String}
    {s s' : Store H W} (h : FoldsAll m d scope (t :: ts) s ts' s') :
    ∃ t' rest u, Folds m d scope t s t' u ∧ FoldsAll m d scope ts u rest s' ∧ ts' = t' :: rest := by
  obtain ⟨fs, h, rfl⟩ := h
  simp only [foldAll, Run.bind_eq_ok] at h
  obtain ⟨f, u, hf, fs', u', hfs, h⟩ := h
  cases h
  exact ⟨f.tree, trees fs', u, ⟨f.kept, hf⟩, ⟨fs', hfs, rfl⟩, rfl⟩

theorem FoldsAll.length_eq {ts ts' : List (Tree (Value H))} {scope : List String}
    {s s' : Store H W} (h : FoldsAll m d scope ts s ts' s') : ts'.length = ts.length := by
  induction ts generalizing ts' s with
  | nil =>
    obtain ⟨-, rfl⟩ := h.nil
    rfl
  | cons t ts ih =>
    obtain ⟨t', rest, u, -, hrest, rfl⟩ := h.cons
    exact congrArg (· + 1) (ih hrest)

theorem FoldsEntries.nil {es' : List (String × Tree (Value H))} {scope : List String}
    {s s' : Store H W} (h : FoldsEntries m d scope [] s es' s') : s' = s ∧ es' = [] := by
  obtain ⟨fs, h, rfl⟩ := h
  cases h
  exact ⟨rfl, rfl⟩

theorem FoldsEntries.cons {key : String} {t : Tree (Value H)} {es es' : List (String × Tree (Value H))}
    {scope : List String} {s s' : Store H W} (h : FoldsEntries m d scope ((key, t) :: es) s es' s') :
    ∃ t' rest u, Folds m d scope t s t' u ∧ FoldsEntries m d scope es u rest s' ∧
      es' = (key, t') :: rest := by
  obtain ⟨fs, h, rfl⟩ := h
  simp only [foldEntries, Run.bind_eq_ok] at h
  obtain ⟨f, u, hf, fs', u', hfs, h⟩ := h
  cases h
  exact ⟨f.tree, entryTrees fs', u, ⟨f.kept, hf⟩, ⟨fs', hfs, rfl⟩, rfl⟩

/-- How the constant `b` on the right of an operator is joined with the constants in the left
operand, nearest first. -/
inductive Joins (m : Machine H W) (o : Operator H) (line : Line) :
    Tree (Value H) → Value H → Store H W → Tree (Value H) → Store H W → Prop where
  | both {l : Line} {a b c : Value H} {s s' : Store H W}
      (h : applyBinary m o line a b s = .ok c s') :
    Joins m o line (.const l a) b s (.const line c) s'
  | all {l la lc : Line} {a b c j k : Value H} {s u s' : Store H W} (hc : o.commutative = true)
      (hj : applyBinary m o line a b s = .ok j u) (hk : applyBinary m o line j c u = .ok k s') :
    Joins m o line (.binary l o.symbol (.const la a) (.const lc c)) b s (.const line k) s'
  | deeper {l lc : Line} {x t : Tree (Value H)} {b c j : Value H} {s u s' : Store H W}
      (hc : o.commutative = true) (hx : x.const? = none)
      (hj : applyBinary m o line c b s = .ok j u) (hd : Joins m o line x j u t s') :
    Joins m o line (.binary l o.symbol x (.const lc c)) b s t s'
  | right {l lc : Line} {x : Tree (Value H)} {b c j : Value H} {s s' : Store H W}
      (hc : o.commutative = true) (hx : x.const? = none)
      (hj : applyBinary m o line c b s = .ok j s') :
    Joins m o line (.binary l o.symbol x (.const lc c)) b s
      (.binary line o.symbol x (.const line j)) s'
  | left {l la : Line} {y : Tree (Value H)} {a b j : Value H} {s s' : Store H W}
      (hc : o.commutative = true) (hy : y.const? = none)
      (hj : applyBinary m o line a b s = .ok j s') :
    Joins m o line (.binary l o.symbol (.const la a) y) b s
      (.binary line o.symbol (.const line j) y) s'

theorem const?_eq_none {t : Tree (Value H)} (h : ∀ line v, t = .const line v → False) :
    t.const? = none := by
  cases t with
  | const line v => exact (h line v rfl).elim
  | _ => rfl

theorem regroups {o : Operator H} {op : String}
    (h : ¬(!o.commutative || decide (op ≠ o.symbol)) = true) :
    o.commutative = true ∧ op = o.symbol := by simpa using h

theorem combine_ok {o : Operator H} {line : Line} {a : Tree (Value H)} {b : Value H}
    {s s' : Store H W} {r : Option (Tree (Value H))} (h : combine m o line a b s = .ok r s') :
    (r = none ∧ s' = s) ∨ ∃ t, r = some t ∧ Joins m o line a b s t s' := by
  fun_induction combine m o line a b generalizing s s' r with
  | case1 =>
    simp only [Run.bind_eq_ok] at h
    obtain ⟨c, u, hc, h⟩ := h
    cases h
    exact .inr ⟨_, rfl, .both hc⟩
  | case2 => cases h; exact .inl ⟨rfl, rfl⟩
  | case3 l op lc c b hop la a =>
    obtain ⟨hcomm, rfl⟩ := regroups hop
    simp only [Run.bind_eq_ok] at h
    obtain ⟨j, u, hj, k, u', hk, h⟩ := h
    cases h
    exact .inr ⟨_, rfl, .all hcomm hj hk⟩
  | case4 l op lc c b hop x hx ih =>
    obtain ⟨hcomm, rfl⟩ := regroups hop
    simp only [Run.bind_eq_ok] at h
    obtain ⟨j, u, hj, q, u', hq, h⟩ := h
    obtain ⟨rfl, rfl⟩ | ⟨t, rfl, ht⟩ := ih j hq
    · cases h
      exact .inr ⟨_, rfl, .right hcomm (const?_eq_none hx) hj⟩
    · cases h
      exact .inr ⟨_, rfl, .deeper hcomm (const?_eq_none hx) hj ht⟩
  | case5 => cases h; exact .inl ⟨rfl, rfl⟩
  | case6 l op la a y b hy hop =>
    obtain ⟨hcomm, rfl⟩ := regroups hop
    simp only [Run.bind_eq_ok] at h
    obtain ⟨j, u, hj, h⟩ := h
    cases h
    exact .inr ⟨_, rfl, .left hcomm (const?_eq_none hy) hj⟩
  | case7 => cases h; exact .inl ⟨rfl, rfl⟩

/-- An operation is folded by joining constants, or it is left alone. -/
theorem foldBinary?_ok {line : Line} {op : String} {left right : Tree (Value H)}
    {s s' : Store H W} {r : Option (Tree (Value H))}
    (h : foldBinary? m d line op left right s = .ok r s') :
    (r = none ∧ s' = s) ∨ ∃ o b t, d.operator? op = some o ∧ o.isPure = true ∧
      right.const? = some b ∧ r = some t ∧ Joins m o line left b s t s' := by
  unfold foldBinary? at h
  cases ho : d.operator? op with
  | none => simp only [ho] at h; cases h; exact .inl ⟨rfl, rfl⟩
  | some o =>
    cases hb : right.const? with
    | none => simp only [ho, hb] at h; cases h; exact .inl ⟨rfl, rfl⟩
    | some b =>
      simp only [ho, hb] at h
      cases hp : o.isPure with
      | false =>
        simp only [hp, Bool.false_eq_true, if_false] at h
        cases h
        exact .inl ⟨rfl, rfl⟩
      | true =>
        simp only [hp, if_true] at h
        obtain hn | ⟨t, rfl, ht⟩ := combine_ok h
        · exact .inl hn
        · exact .inr ⟨o, b, t, rfl, hp, rfl, rfl, ht⟩

/-- The symbol of an operator is the one it is found under. -/
theorem operator?_symbol {op : String} {o : Operator H} (h : d.operator? op = some o) :
    o.symbol = op := by
  have hf := List.find?_some h
  simpa using hf

end Folding

end Formula
