import Formula.Proofs.Agreement.Compiling

/-!
Folding and then compiling a tree gives code that agrees with the code of the tree as it stands.
The proof goes along the tree: `Folding.Step` says what a node is folded to, `Compilation.Step` to
which code both forms of it compile.
-/
namespace Formula
namespace Agreement

open Folding Compilation

variable {H W : Type} {S : Setting H W} {d : Dialect H} {w₀ w w' : World H} {n : Nat}
  {scope : List String}

/-- The second tree compiles if the first one does, to code that agrees. -/
def Becomes (S : Setting H W) (n : Nat) (d : Dialect H) (w : World H) (scope : List String)
    (t t' : Tree (Value H)) : Prop :=
  ∀ s s' c, compile (S.machine n) d t scope s = .ok c s' →
  ∀ u v, Quiet (S.machine n) u t' → Still u v →
  ∃ c' v', compile (S.machine n) d t' scope v = .ok c' v' ∧ Still u v' ∧
    Agree S w scope (.code c) (.code c')

def BecomeAll (S : Setting H W) (n : Nat) (d : Dialect H) (w : World H) (scope : List String)
    (ts ts' : List (Tree (Value H))) : Prop :=
  ∀ s s' cs, compileAll (S.machine n) d ts scope s = .ok cs s' →
  ∀ u v, Tree.EveryItem (OfCallee (Shows (S.machine n) u)) ts' → Still u v →
  ∃ cs' v', compileAll (S.machine n) d ts' scope v = .ok cs' v' ∧ Still u v' ∧
    Agree S w scope (.codes cs) (.codes cs')

def BecomeEntries (S : Setting H W) (n : Nat) (d : Dialect H) (w : World H) (scope : List String)
    (es es' : List (String × Tree (Value H))) : Prop :=
  ∀ s s' cs, compileEntries (S.machine n) d es scope s = .ok cs s' →
  ∀ u v, Tree.EveryEntry (OfCallee (Shows (S.machine n) u)) es' → Still u v →
  ∃ cs' v', compileEntries (S.machine n) d es' scope v = .ok cs' v' ∧ Still u v' ∧
    Agree S w scope (.entries cs) (.entries cs')

theorem Becomes.mono (hw : w ≤ w') {t t' : Tree (Value H)} (h : Becomes S n d w scope t t') :
    Becomes S n d w' scope t t' := by
  intro s s' c hc u v hq hv
  obtain ⟨c', v', hc', hv', hcc⟩ := h s s' c hc u v hq hv
  exact ⟨c', v', hc', hv', hcc.mono hw⟩

theorem BecomeAll.mono (hw : w ≤ w') {ts ts' : List (Tree (Value H))}
    (h : BecomeAll S n d w scope ts ts') : BecomeAll S n d w' scope ts ts' := by
  intro s s' c hc u v hq hv
  obtain ⟨c', v', hc', hv', hcc⟩ := h s s' c hc u v hq hv
  exact ⟨c', v', hc', hv', hcc.mono hw⟩

theorem BecomeAll.nil : BecomeAll S n d w scope [] [] := by
  intro s s' cs hc u v _ hv
  cases hc
  exact ⟨[], v, rfl, hv, .noCodes⟩

theorem BecomeAll.cons {t t' : Tree (Value H)} {ts ts' : List (Tree (Value H))}
    (ht : Becomes S n d w scope t t') (hts : BecomeAll S n d w scope ts ts') :
    BecomeAll S n d w scope (t :: ts) (t' :: ts') := by
  intro s s' cs hc u v hq hv
  simp only [compileAll, Run.bind_eq_ok] at hc
  obtain ⟨a, s₁, ha, b, s₂, hb, hc⟩ := hc
  cases hc
  obtain ⟨a', v₁, ha', hv₁, haa⟩ := ht _ _ _ ha u v hq.1 hv
  obtain ⟨b', v₂, hb', hv₂, hbb⟩ := hts _ _ _ hb u v₁ hq.2 hv₁
  refine ⟨a' :: b', v₂, ?_, hv₂, .codes haa hbb⟩
  exact (Run.bind_apply_ok ha').trans (Run.bind_apply_ok hb')

theorem BecomeEntries.nil : BecomeEntries S n d w scope [] [] := by
  intro s s' cs hc u v _ hv
  cases hc
  exact ⟨[], v, rfl, hv, .noEntries⟩

theorem BecomeEntries.cons {key : String} {t t' : Tree (Value H)}
    {es es' : List (String × Tree (Value H))} (ht : Becomes S n d w scope t t')
    (hes : BecomeEntries S n d w scope es es') :
    BecomeEntries S n d w scope ((key, t) :: es) ((key, t') :: es') := by
  intro s s' cs hc u v hq hv
  simp only [compileEntries, Run.bind_eq_ok] at hc
  obtain ⟨a, s₁, ha, b, s₂, hb, hc⟩ := hc
  cases hc
  obtain ⟨a', v₁, ha', hv₁, haa⟩ := ht _ _ _ ha u v hq.1 hv
  obtain ⟨b', v₂, hb', hv₂, hbb⟩ := hes _ _ _ hb u v₁ hq.2 hv₁
  refine ⟨(key, a') :: b', v₂, ?_, hv₂, .entries haa hbb⟩
  exact (Run.bind_apply_ok ha').trans (Run.bind_apply_ok hb')

theorem values?_cons {t : Tree (Value H)} {ts : List (Tree (Value H))} {vs : List (Value H)}
    (h : values? (t :: ts) = some vs) :
    ∃ line v rest, t = .const line v ∧ values? ts = some rest ∧ vs = v :: rest := by
  simp only [values?, List.mapM_cons, Option.bind_eq_bind, Option.bind_eq_some_iff] at h
  obtain ⟨v, hv, rest, hrest, h⟩ := h
  obtain ⟨line, rfl⟩ := const?_eq_some hv
  cases h
  exact ⟨line, v, rest, rfl, hrest, rfl⟩

theorem entryValues?_cons {key : String} {t : Tree (Value H)} {es : List (String × Tree (Value H))}
    {vs : List (String × Value H)} (h : entryValues? ((key, t) :: es) = some vs) :
    ∃ line v rest, t = .const line v ∧ entryValues? es = some rest ∧ vs = (key, v) :: rest := by
  simp only [entryValues?, List.mapM_cons, Option.bind_eq_bind, Option.bind_eq_some_iff] at h
  obtain ⟨p, hp, rest, hrest, h⟩ := h
  obtain ⟨v, hv, rfl⟩ := Option.map_eq_some_iff.1 hp
  obtain ⟨line, rfl⟩ := const?_eq_some hv
  cases h
  exact ⟨line, v, rest, rfl, hrest, rfl⟩

theorem compileAll_values {m : Machine H W} {ts : List (Tree (Value H))} {vs : List (Value H)}
    (h : values? ts = some vs) (s : Store H W) :
    compileAll m d ts scope s = .ok (constants vs) s := by
  induction ts generalizing vs with
  | nil =>
    cases h
    rfl
  | cons t ts ih =>
    obtain ⟨line, v, rest, rfl, hrest, rfl⟩ := values?_cons h
    simp only [compileAll, compile]
    exact (Run.bind_apply_ok rfl).trans (Run.bind_apply_ok (ih hrest))

theorem compileEntries_values {m : Machine H W} {es : List (String × Tree (Value H))}
    {vs : List (String × Value H)} (h : entryValues? es = some vs) (s : Store H W) :
    compileEntries m d es scope s = .ok (entryConstants vs) s := by
  induction es generalizing vs with
  | nil =>
    cases h
    rfl
  | cons e es ih =>
    obtain ⟨key, t⟩ := e
    obtain ⟨line, v, rest, rfl, hrest, rfl⟩ := entryValues?_cons h
    simp only [compileEntries, compile]
    exact (Run.bind_apply_ok rfl).trans (Run.bind_apply_ok (ih hrest))

/-- Constants have no callees. -/
theorem everyItem_values {P : Tree (Value H) → Prop} {ts : List (Tree (Value H))}
    {vs : List (Value H)} (h : values? ts = some vs) : Tree.EveryItem (OfCallee P) ts := by
  induction ts generalizing vs with
  | nil => trivial
  | cons t ts ih =>
    obtain ⟨line, v, rest, rfl, hrest, -⟩ := values?_cons h
    exact ⟨trivial, ih hrest⟩

theorem everyEntry_values {P : Tree (Value H) → Prop} {es : List (String × Tree (Value H))}
    {vs : List (String × Value H)} (h : entryValues? es = some vs) :
    Tree.EveryEntry (OfCallee P) es := by
  induction es generalizing vs with
  | nil => trivial
  | cons e es ih =>
    obtain ⟨key, t⟩ := e
    obtain ⟨line, v, rest, rfl, hrest, -⟩ := entryValues?_cons h
    exact ⟨trivial, ih hrest⟩

theorem BecomeAll.of_values {ts ts' : List (Tree (Value H))} {vs : List (Value H)}
    (h : BecomeAll S n d w scope ts ts') (hvs : values? ts' = some vs) {s s' : Store H W}
    {cs : List (Code H)} (hc : compileAll (S.machine n) d ts scope s = .ok cs s') :
    Agree S w scope (.codes cs) (.codes (constants vs)) := by
  obtain ⟨cs', v', hcs', -, hagree⟩ := h s s' cs hc s s (everyItem_values hvs) (.refl s)
  rw [compileAll_values hvs] at hcs'
  cases hcs'
  exact hagree

theorem BecomeEntries.of_values {es es' : List (String × Tree (Value H))}
    {vs : List (String × Value H)} (h : BecomeEntries S n d w scope es es')
    (hvs : entryValues? es' = some vs) {s s' : Store H W} {cs : List (String × Code H)}
    (hc : compileEntries (S.machine n) d es scope s = .ok cs s') :
    Agree S w scope (.entries cs) (.entries (entryConstants vs)) := by
  obtain ⟨cs', v', hcs', -, hagree⟩ := h s s' cs hc s s (everyEntry_values hvs) (.refl s)
  rw [compileEntries_values hvs] at hcs'
  cases hcs'
  exact hagree

namespace Becomes

variable {line : Line}

theorem const (hd : Registered S d w₀) {v v' : Value H} {l : Line} (hv : Values S w v v') :
    Becomes S n d w scope (.const line v) (.const l v') := by
  intro s s' c hc u u' hq hu
  obtain ⟨rfl, rfl⟩ := hd.compiles.1 hc
  exact ⟨_, u', hd.compiles.2 ⟨rfl, rfl⟩, hu, .const hv⟩

theorem letIn (hd : Registered S d w₀) {name : String} {value value' inner inner' : Tree (Value H)}
    (hclosure : value.isClosure = false) (hclosure' : value'.isClosure = false)
    (hvalue : Becomes S n d w scope value value')
    (hinner : Becomes S n d w (name :: scope) inner inner') :
    Becomes S n d w scope (.letIn line name value inner) (.letIn line name value' inner') := by
  intro s s' c hc u v hq hv
  obtain ⟨a, s₁, b, ha, hb, rfl⟩ := (step_letIn hclosure).1 (hd.compiles.1 hc)
  obtain ⟨a', v₁, ha', hv₁, haa⟩ := hvalue _ _ _ ha u v hq.2.1 hv
  obtain ⟨b', v₂, hb', hv₂, hbb⟩ := hinner _ _ _ hb u v₁ hq.2.2 hv₁
  exact ⟨_, v₂, hd.compiles.2 ((step_letIn hclosure').2 ⟨a', v₁, b', ha', hb', rfl⟩), hv₂,
    .letIn haa hbb⟩

/-- The codes of two closure literals with the same parameters, taken apart. -/
theorem body (hd : Registered S d w₀) (hclosures : d.closures = true) {params : List String}
    {body body' : Tree (Value H)}
    (h : Becomes S n d w scope (.closure line params body) (.closure line params body')) :
    Becomes S n d w (params ++ scope) body body' := by
  intro s s' c hc u v hq hv
  obtain ⟨slot, s₁, hslot⟩ := newSlot?_ok d params body s'
  obtain ⟨c', v', hc', -, hcc⟩ :=
    h _ _ _ (hd.compiles.2 ⟨c, s', slot, hclosures, hc, hslot, rfl⟩) u v ⟨trivial, hq⟩ hv
  obtain ⟨code, v₁, slot', -, hcode, -, rfl⟩ := hd.compiles.1 hc'
  cases hcc with
  | literal ht =>
    cases ht with
    | template hagree => exact ⟨code, v₁, hcode, compile_still hd body' hcode hq hv, hagree⟩

theorem letRec (hd : Registered S d w₀) {l : Line} {name : String} {params : List String}
    {body body' inner inner' : Tree (Value H)}
    (hvalue : Becomes S n d w (name :: scope) (.closure l params body) (.closure l params body'))
    (hinner : Becomes S n d w (name :: scope) inner inner') :
    Becomes S n d w scope (.letIn line name (.closure l params body) inner)
      (.letIn line name (.closure l params body') inner') := by
  intro s s' c hc u v hq hv
  obtain ⟨a, s₁, slot, s₂, b, hclosures, ha, -, hb, rfl⟩ := hd.compiles.1 hc
  obtain ⟨a', v₁, ha', hv₁, haa⟩ := hvalue.body hd hclosures _ _ _ ha u v hq.2.1.2 hv
  obtain ⟨slot', v₂, hslot⟩ := newSlot?_ok d params body' v₁
  have hv₂ := newSlot?_still hd hslot hv₁
  obtain ⟨b', v₃, hb', hv₃, hbb⟩ := hinner _ _ _ hb u v₂ hq.2.2 hv₂
  exact ⟨_, v₃, hd.compiles.2 ⟨a', v₁, slot', v₂, b', hclosures, ha', hslot, hb', rfl⟩, hv₃,
    .letRec (.template haa) hbb⟩

theorem closure (hd : Registered S d w₀) {params : List String} {body body' : Tree (Value H)}
    (hbody : Becomes S n d w (params ++ scope) body body') :
    Becomes S n d w scope (.closure line params body) (.closure line params body') := by
  intro s s' c hc u v hq hv
  obtain ⟨a, s₁, slot, hclosures, ha, -, rfl⟩ := hd.compiles.1 hc
  obtain ⟨a', v₁, ha', hv₁, haa⟩ := hbody _ _ _ ha u v hq.2 hv
  obtain ⟨slot', v₂, hslot⟩ := newSlot?_ok d params body' v₁
  exact ⟨_, v₂, hd.compiles.2 ⟨a', v₁, slot', hclosures, ha', hslot, rfl⟩,
    newSlot?_still hd hslot hv₁, .literal (.template haa)⟩

theorem cond (hd : Registered S d w₀) {test test' yes yes' no no' : Tree (Value H)}
    (htest : Becomes S n d w scope test test') (hyes : Becomes S n d w scope yes yes')
    (hno : Becomes S n d w scope no no') :
    Becomes S n d w scope (.cond line test yes no) (.cond line test' yes' no') := by
  intro s s' c hc u v hq hv
  obtain ⟨truth, a, s₁, b, s₂, e, htruth, ha, hb, he, rfl⟩ := hd.compiles.1 hc
  obtain ⟨-, hqt, hqy, hqn⟩ := hq
  obtain ⟨a', v₁, ha', hv₁, haa⟩ := htest _ _ _ ha u v hqt hv
  obtain ⟨b', v₂, hb', hv₂, hbb⟩ := hyes _ _ _ hb u v₁ hqy hv₁
  obtain ⟨e', v₃, he', hv₃, hee⟩ := hno _ _ _ he u v₂ hqn hv₂
  exact ⟨_, v₃, hd.compiles.2 ⟨truth, a', v₁, b', v₂, e', htruth, ha', hb', he', rfl⟩, hv₃,
    .cond (hd.truth htruth) haa hbb hee⟩

/-- A constant compiles to itself, whatever the store. -/
theorem of_const {t : Tree (Value H)} {v : Value H} (h : Becomes S n d w scope t (.const line v))
    (hd : Registered S d w₀) {s s' : Store H W} {c : Code H}
    (hc : compile (S.machine n) d t scope s = .ok c s') :
    Agree S w scope (.code c) (.code (.const v)) := by
  obtain ⟨c', v', hc', -, hcc⟩ := h s s' c hc s s trivial (.refl s)
  obtain ⟨-, rfl⟩ := hd.compiles.1 hc'
  exact hcc

/-- A conditional becomes the branch that is decided on. -/
theorem decided (hd : Registered S d w₀) {test yes no t' : Tree (Value H)} {l : Line} {v : Value H}
    {truth : Truth H} {b : Bool} (htruth : d.truth = some truth)
    (hread : truth.read S.host v = some b)
    (htest : Becomes S n d w scope test (.const l v))
    (hbranch : Becomes S n d w scope (if b then yes else no) t') :
    Becomes S n d w scope (.cond line test yes no) t' := by
  intro s s' c hc u u' hq hu
  obtain ⟨truth', a, s₁, y, s₂, e, htruth', ha, hy, he, rfl⟩ := hd.compiles.1 hc
  cases htruth.symm.trans htruth'
  have haa := htest.of_const hd ha
  have hbranch' : ∃ c' v', compile (S.machine n) d t' scope u' = .ok c' v' ∧ Still u v' ∧
      Agree S w scope (.code (if b then y else e)) (.code c') := by
    cases b with
    | true => exact hbranch _ _ _ hy u u' hq hu
    | false => exact hbranch _ _ _ he u u' hq hu
  obtain ⟨c', v', hc', hv', hcc⟩ := hbranch'
  exact ⟨c', v', hc', hv', .decided (hd.truth htruth) haa hread hcc⟩

theorem unary (hd : Registered S d w₀) {op : String} {operand operand' : Tree (Value H)}
    (h : Becomes S n d w scope operand operand') :
    Becomes S n d w scope (.unary line op operand) (.unary line op operand') := by
  intro s s' c hc u v hq hv
  obtain ⟨o, a, ho, ha, rfl⟩ := hd.compiles.1 hc
  obtain ⟨a', v₁, ha', hv₁, haa⟩ := h _ _ _ ha u v hq.2 hv
  exact ⟨_, v₁, hd.compiles.2 ⟨o, a', ho, ha', rfl⟩, hv₁, .unary (hd.unaries ho).1 haa⟩

theorem unary_const (hd : Registered S d w₀) {op : String} {operand : Tree (Value H)}
    {o : UnaryOperator H} {v k : Value H} {l l' : Line} (ho : d.unary? op = some o)
    (h : Becomes S n d w scope operand (.const l v))
    (hk : S.yields w (.callback o.callback) [v] k) :
    Becomes S n d w scope (.unary line op operand) (.const l' k) := by
  intro s s' c hc u u' hq hu
  obtain ⟨o', a, ho', ha, rfl⟩ := hd.compiles.1 hc
  cases ho.symm.trans ho'
  exact ⟨_, u', hd.compiles.2 ⟨rfl, rfl⟩, hu, .foldUnary (h.of_const hd ha) hk⟩

theorem binary (hd : Registered S d w₀) {op : String} {left left' right right' : Tree (Value H)}
    (hleft : Becomes S n d w scope left left') (hright : Becomes S n d w scope right right') :
    Becomes S n d w scope (.binary line op left right) (.binary line op left' right') := by
  intro s s' c hc u v hq hv
  obtain ⟨o, a, s₁, b, ho, ha, hb, rfl⟩ := hd.compiles.1 hc
  obtain ⟨a', v₁, ha', hv₁, haa⟩ := hleft _ _ _ ha u v hq.2.1 hv
  obtain ⟨b', v₂, hb', hv₂, hbb⟩ := hright _ _ _ hb u v₁ hq.2.2 hv₁
  exact ⟨_, v₂, hd.compiles.2 ⟨o, a', v₁, b', ho, ha', hb', rfl⟩, hv₂,
    .binary (hd.operators ho).1 haa hbb⟩

theorem binary_const (hd : Registered S d w₀) {op : String} {left right : Tree (Value H)}
    {o : Operator H} {a b k : Value H} {la lb l : Line} (ho : d.operator? op = some o)
    (hleft : Becomes S n d w scope left (.const la a))
    (hright : Becomes S n d w scope right (.const lb b))
    (hk : S.yields w (.callback o.callback) [a, b] k) :
    Becomes S n d w scope (.binary line op left right) (.const l k) := by
  intro s s' c hc u u' hq hu
  obtain ⟨o', x, s₁, y, ho', hx, hy, rfl⟩ := hd.compiles.1 hc
  cases ho.symm.trans ho'
  exact ⟨_, u', hd.compiles.2 ⟨rfl, rfl⟩, hu,
    .foldBinary (hleft.of_const hd hx) (hright.of_const hd hy) hk⟩

theorem list (hd : Registered S d w₀) {items items' : List (Tree (Value H))}
    (h : BecomeAll S n d w scope items items') :
    Becomes S n d w scope (.list line items) (.list line items') := by
  intro s s' c hc u v hq hv
  obtain ⟨a, hlists, ha, rfl⟩ := hd.compiles.1 hc
  obtain ⟨a', v₁, ha', hv₁, haa⟩ := h _ _ _ ha u v hq.2 hv
  exact ⟨_, v₁, hd.compiles.2 ⟨a', hlists, ha', rfl⟩, hv₁, .items haa⟩

theorem index (hd : Registered S d w₀) {source source' position position' : Tree (Value H)}
    (hsource : Becomes S n d w scope source source')
    (hposition : Becomes S n d w scope position position') :
    Becomes S n d w scope (.index line source position) (.index line source' position') := by
  intro s s' c hc u v hq hv
  obtain ⟨a, s₁, b, hlists, ha, hb, rfl⟩ := hd.compiles.1 hc
  obtain ⟨a', v₁, ha', hv₁, haa⟩ := hsource _ _ _ ha u v hq.2.1 hv
  obtain ⟨b', v₂, hb', hv₂, hbb⟩ := hposition _ _ _ hb u v₁ hq.2.2 hv₁
  exact ⟨_, v₂, hd.compiles.2 ⟨a', v₁, b', hlists, ha', hb', rfl⟩, hv₂, .index haa hbb⟩

theorem map (hd : Registered S d w₀) {entries entries' : List (String × Tree (Value H))}
    (h : BecomeEntries S n d w scope entries entries') :
    Becomes S n d w scope (.map line entries) (.map line entries') := by
  intro s s' c hc u v hq hv
  obtain ⟨a, hmaps, ha, rfl⟩ := hd.compiles.1 hc
  obtain ⟨a', v₁, ha', hv₁, haa⟩ := h _ _ _ ha u v hq.2 hv
  exact ⟨_, v₁, hd.compiles.2 ⟨a', hmaps, ha', rfl⟩, hv₁, .record haa⟩

theorem field (hd : Registered S d w₀) {record record' : Tree (Value H)} {key : String}
    (h : Becomes S n d w scope record record') :
    Becomes S n d w scope (.field line record key) (.field line record' key) := by
  intro s s' c hc u v hq hv
  obtain ⟨a, hmaps, ha, rfl⟩ := hd.compiles.1 hc
  obtain ⟨a', v₁, ha', hv₁, haa⟩ := h _ _ _ ha u v hq.2 hv
  exact ⟨_, v₁, hd.compiles.2 ⟨a', hmaps, ha', rfl⟩, hv₁, .field haa⟩

theorem method (hd : Registered S d w₀) {receiver receiver' : Tree (Value H)} {name : String}
    {args args' : List (Tree (Value H))} (hreceiver : Becomes S n d w scope receiver receiver')
    (hargs : BecomeAll S n d w scope args args') :
    Becomes S n d w scope (.method line receiver name args)
      (.method line receiver' name args') := by
  intro s s' c hc u v hq hv
  obtain ⟨a, s₁, b, hable, ha, hb, rfl⟩ := hd.compiles.1 hc
  obtain ⟨a', v₁, ha', hv₁, haa⟩ := hreceiver _ _ _ ha u v hq.2.1 hv
  obtain ⟨b', v₂, hb', hv₂, hbb⟩ := hargs _ _ _ hb u v₁ hq.2.2 hv₁
  exact ⟨_, v₂, hd.compiles.2 ⟨a', v₁, b', hable, ha', hb', rfl⟩, hv₂, .method hd.methods haa hbb⟩

theorem list_const (hd : Registered S d w₀) {items items' : List (Tree (Value H))}
    {vs : List (Value H)} {q : ListRef} {l : Line} (h : BecomeAll S n d w scope items items')
    (hvs : values? items' = some vs) (hq : w.right q vs) :
    Becomes S n d w scope (.list line items) (.const l (.list q)) := by
  intro s s' c hc u v _ hv
  obtain ⟨a, hlists, ha, rfl⟩ := hd.compiles.1 hc
  exact ⟨_, v, hd.compiles.2 ⟨rfl, rfl⟩, hv, .foldList (h.of_values hvs ha) hq⟩

theorem map_const (hd : Registered S d w₀) {entries entries' : List (String × Tree (Value H))}
    {vs : List (String × Value H)} {i : Identity} {l : Line}
    (h : BecomeEntries S n d w scope entries entries') (hvs : entryValues? entries' = some vs) :
    Becomes S n d w scope (.map line entries) (.const l (.map i (.ofList vs))) := by
  intro s s' c hc u v _ hv
  obtain ⟨a, hmaps, ha, rfl⟩ := hd.compiles.1 hc
  exact ⟨_, v, hd.compiles.2 ⟨rfl, rfl⟩, hv, .foldMap (h.of_values hvs ha)⟩

theorem callStatic (hd : Registered S d w₀) (hw : w₀ ≤ w) {callee : Tree (Value H)} {name : String}
    {f : Function H} {args args' : List (Tree (Value H))}
    (hf : d.static? scope callee = some (name, f)) (hlength : args'.length = args.length)
    (h : BecomeAll S n d w scope args args') :
    Becomes S n d w scope (.call line callee args) (.call line callee args') := by
  intro s s' c hc u v hq hv
  obtain ⟨name', f', a, hf', harity, ha, rfl⟩ | ⟨text, s₁, g, s₂, a, hnone, -⟩ := hd.compiles.1 hc
  · cases hf.symm.trans hf'
    obtain ⟨a', v₁, ha', hv₁, haa⟩ := h _ _ _ ha u v hq.2.2 hv
    rw [← hlength] at harity
    exact ⟨_, v₁, hd.compiles.2 (.inl ⟨name, f, a', hf, harity, ha', rfl⟩), hv₁,
      .callStatic ((hd.functions (function?_of_static? hf)).1.mono hw) haa⟩
  · cases hf.symm.trans hnone

theorem call_const (hd : Registered S d w₀) {callee : Tree (Value H)} {name : String}
    {f : Function H} {args args' : List (Tree (Value H))} {vs : List (Value H)} {k : Value H}
    {l : Line} (hf : d.static? scope callee = some (name, f))
    (h : BecomeAll S n d w scope args args') (hvs : values? args' = some vs)
    (hk : S.yields w (.function f) vs k) :
    Becomes S n d w scope (.call line callee args) (.const l k) := by
  intro s s' c hc u v _ hv
  obtain ⟨name', f', a, hf', harity, ha, rfl⟩ | ⟨text, s₁, g, s₂, a, hnone, -⟩ := hd.compiles.1 hc
  · cases hf.symm.trans hf'
    exact ⟨_, v, hd.compiles.2 ⟨rfl, rfl⟩, hv, .foldCall (h.of_values hvs ha) hk⟩
  · cases hf.symm.trans hnone

theorem call (hd : Registered S d w₀) {callee callee' : Tree (Value H)}
    {args args' : List (Tree (Value H))} (hf : d.static? scope callee = none)
    (hf' : d.static? scope callee' = none) (hcallee : Becomes S n d w scope callee callee')
    (hargs : BecomeAll S n d w scope args args') :
    Becomes S n d w scope (.call line callee args) (.call line callee' args') := by
  intro s s' c hc u v hq hv
  obtain ⟨name, f, a, hsome, -⟩ | ⟨text, s₁, g, s₂, a, -, hclosures, -, hg, ha, rfl⟩ :=
    hd.compiles.1 hc
  · cases hf.symm.trans hsome
  · obtain ⟨hshows, hqc, hqa⟩ := hq
    obtain ⟨text', v₁, ht', hv₁⟩ := hshows v hv
    obtain ⟨g', v₂, hg', hv₂, hgg⟩ := hcallee _ _ _ hg u v₁ hqc hv₁
    obtain ⟨a', v₃, ha', hv₃, haa⟩ := hargs _ _ _ ha u v₂ hqa hv₂
    exact ⟨_, v₃,
      hd.compiles.2 (.inr ⟨text', v₁, g', v₂, a', hf', hclosures, ht', hg', ha', rfl⟩), hv₃,
      .call hgg haa⟩

section

variable {o : Operator H} {t x : Tree (Value H)} {a b k : Value H} {l la lb l' lk : Line}

theorem regroupRight (hd : Registered S d w₀) (ho : d.operator? o.symbol = some o)
    (hregroups : S.regroups o.callback) (hk : S.yields w (.callback o.callback) [a, b] k)
    (h : Becomes S n d w scope t
      (.binary l o.symbol (.binary l' o.symbol x (.const la a)) (.const lb b))) :
    Becomes S n d w scope t (.binary line o.symbol x (.const lk k)) := by
  intro s s' c hc u v hq hv
  obtain ⟨c', v', hc', hv', hcc⟩ :=
    h s s' c hc u v ⟨trivial, ⟨trivial, hq.2.1, trivial⟩, trivial⟩ hv
  obtain ⟨o₁, y, v₁, e, ho₁, hy, he, rfl⟩ := hd.compiles.1 hc'
  obtain ⟨rfl, rfl⟩ := hd.compiles.1 he
  obtain ⟨o₂, z, v₂, e, ho₂, hz, he, rfl⟩ := hd.compiles.1 hy
  obtain ⟨rfl, rfl⟩ := hd.compiles.1 he
  cases ho.symm.trans ho₁
  cases ho.symm.trans ho₂
  exact ⟨_, _, hd.compiles.2 ⟨o, z, _, .const k, ho, hz, hd.compiles.2 ⟨rfl, rfl⟩, rfl⟩, hv',
    .regroupRight hregroups hk hcc⟩

theorem regroupLeft (hd : Registered S d w₀) (ho : d.operator? o.symbol = some o)
    (hregroups : S.regroups o.callback) (hk : S.yields w (.callback o.callback) [a, b] k)
    (h : Becomes S n d w scope t
      (.binary l o.symbol (.binary l' o.symbol (.const la a) x) (.const lb b))) :
    Becomes S n d w scope t (.binary line o.symbol (.const lk k) x) := by
  intro s s' c hc u v hq hv
  obtain ⟨c', v', hc', hv', hcc⟩ :=
    h s s' c hc u v ⟨trivial, ⟨trivial, trivial, hq.2.2⟩, trivial⟩ hv
  obtain ⟨o₁, y, v₁, e, ho₁, hy, he, rfl⟩ := hd.compiles.1 hc'
  obtain ⟨rfl, rfl⟩ := hd.compiles.1 he
  obtain ⟨o₂, e, v₂, z, ho₂, he, hz, rfl⟩ := hd.compiles.1 hy
  obtain ⟨rfl, rfl⟩ := hd.compiles.1 he
  cases ho.symm.trans ho₁
  cases ho.symm.trans ho₂
  exact ⟨_, _, hd.compiles.2 ⟨o, .const k, _, z, ho, hd.compiles.2 ⟨rfl, rfl⟩, hz, rfl⟩, hv',
    .regroupLeft hregroups hk hcc⟩

theorem regroupBoth (hd : Registered S d w₀) (ho : d.operator? o.symbol = some o)
    (hregroups : S.regroups o.callback) (hk : S.yields w (.callback o.callback) [a, b] k)
    (h : Becomes S n d w scope t (.binary l o.symbol (.const la a) (.const lb b))) :
    Becomes S n d w scope t (.const lk k) := by
  intro s s' c hc u v hq hv
  obtain ⟨c', v', hc', hv', hcc⟩ := h s s' c hc u v ⟨trivial, trivial, trivial⟩ hv
  obtain ⟨o₁, y, v₁, e, ho₁, hy, he, rfl⟩ := hd.compiles.1 hc'
  obtain ⟨rfl, rfl⟩ := hd.compiles.1 he
  obtain ⟨rfl, rfl⟩ := hd.compiles.1 hy
  cases ho.symm.trans ho₁
  exact ⟨_, _, hd.compiles.2 ⟨rfl, rfl⟩, hv', .regroupBoth hregroups hk hcc⟩

end

end Becomes

/-- The property holds of the node's value, if it is a constant. -/
def OfConst (P : Value H → Prop) : Tree (Value H) → Prop
  | .const _ v => P v
  | _ => True

/-- The node is no `let` of a conditional and no call of one. -/
def Straight : Tree (Value H) → Prop
  | .letIn _ _ value _ => value.isCond = false
  | .call _ callee _ => callee.isCond = false
  | _ => True

theorem everyConst_mono (hw : w ≤ w') {t : Tree (Value H)} (h : t.Every (OfConst (S.constant w))) :
    t.Every (OfConst (S.constant w')) := by
  refine h.imp fun node hnode => ?_
  cases node with
  | const line v => exact S.constant_mono hw hnode
  | _ => trivial

theorem everyItem_const_mono (hw : w ≤ w') {ts : List (Tree (Value H))}
    (h : Tree.EveryItem (OfConst (S.constant w)) ts) :
    Tree.EveryItem (OfConst (S.constant w')) ts := by
  induction ts with
  | nil => trivial
  | cons t ts ih => exact ⟨everyConst_mono hw h.1, ih h.2⟩

theorem everyItem_const {P : Value H → Prop} {ts : List (Tree (Value H))} {vs : List (Value H)}
    (h : values? ts = some vs) (hts : Tree.EveryItem (OfConst P) ts) : ∀ v ∈ vs, P v := by
  induction ts generalizing vs with
  | nil =>
    cases h
    exact fun v hv => absurd hv List.not_mem_nil
  | cons t ts ih =>
    obtain ⟨line, v, rest, rfl, hrest, rfl⟩ := values?_cons h
    exact List.forall_mem_cons.2 ⟨hts.1, ih hrest hts.2⟩

theorem everyEntry_const {P : Value H → Prop} {es : List (String × Tree (Value H))}
    {vs : List (String × Value H)} (h : entryValues? es = some vs)
    (hes : Tree.EveryEntry (OfConst P) es) : ∀ p ∈ vs, P p.2 := by
  induction es generalizing vs with
  | nil =>
    cases h
    exact fun v hv => absurd hv List.not_mem_nil
  | cons e es ih =>
    obtain ⟨key, t⟩ := e
    obtain ⟨line, v, rest, rfl, hrest, rfl⟩ := entryValues?_cons h
    exact List.forall_mem_cons.2 ⟨hes.1, ih hrest hes.2⟩

/-- A pure operator is applied to two constants ahead of time. -/
theorem applyBinary_ahead (law : Lawful S) {o : Operator H} (hpure : S.pures (.callback o.callback))
    {line : Line} {a b k : Value H} (ha : S.constant w a) (hb : S.constant w b)
    {s u u' : Store H W} (hsu : At S w s u)
    (h : applyBinary (S.machine n) o line a b u = .ok k u') :
    ∃ w', w ≤ w' ∧ At S w' s u' ∧ S.constant w' k ∧
      S.yields w' (.callback o.callback) [a, b] k := by
  refine law.ahead hpure ?_ hsu ((Run.mapFault_ok _).1 h)
  simp only [List.mem_cons, List.not_mem_nil, or_false]
  rintro x (rfl | rfl)
  · exact ha
  · exact hb

/-- What becomes an operation below a commutative operator becomes the joined form of it. -/
theorem joins_becomes (law : Lawful S) (hd : Registered S d w₀) {o : Operator H}
    (ho : d.operator? o.symbol = some o) (hpure : o.isPure = true) {line : Line}
    {a t' : Tree (Value H)} {b : Value H} {s u u' : Store H W}
    (h : Joins (S.machine n) o line a b u t' u') (hnone : a.const? = none) (hsu : At S w s u)
    (ha : a.Every (OfConst (S.constant w))) (hb : S.constant w b) :
    ∃ w', w ≤ w' ∧ At S w' s u' ∧ t'.Every (OfConst (S.constant w')) ∧
      ∀ w₁, w' ≤ w₁ → ∀ t l lb, Becomes S n d w₁ scope t (.binary l o.symbol a (.const lb b)) →
        Becomes S n d w₁ scope t t' := by
  obtain ⟨hpures, hregroups⟩ := (hd.operators ho).2 hpure
  induction h generalizing w with
  | both => cases hnone
  | @all _ _ lc _ b c j k _ _ _ hc hj hk =>
    obtain ⟨-, ha, hconst⟩ := ha
    obtain ⟨w₁, hw₁, hsu₁, hjc, hjy⟩ := applyBinary_ahead law hpures ha hb hsu hj
    obtain ⟨w₂, hw₂, hsu₂, hkc, hky⟩ :=
      applyBinary_ahead law hpures hjc (S.constant_mono hw₁ hconst) hsu₁ hk
    refine ⟨w₂, hw₁.trans hw₂, hsu₂, hkc, fun w₃ hw₃ t l lb ht => ?_⟩
    have hleft : Becomes S n d w₃ scope t (.binary l o.symbol (.const l j) (.const lc c)) :=
      ht.regroupLeft hd ho (hregroups hc) (S.yields_mono (hw₂.trans hw₃) hjy)
    exact hleft.regroupBoth hd ho (hregroups hc) (S.yields_mono hw₃ hky)
  | deeper hc hx hj _ ih =>
    obtain ⟨-, ha, hconst⟩ := ha
    obtain ⟨w₁, hw₁, hsu₁, hjc, hjy⟩ := applyBinary_ahead law hpures hconst hb hsu hj
    obtain ⟨w₂, hw₂, hsu₂, htc, hbecomes⟩ := ih hx hsu₁ (everyConst_mono hw₁ ha) hjc
    refine ⟨w₂, hw₁.trans hw₂, hsu₂, htc, fun w₃ hw₃ t l lb ht => ?_⟩
    refine hbecomes w₃ hw₃ t l lb ?_
    exact ht.regroupRight hd ho (hregroups hc) (S.yields_mono (hw₂.trans hw₃) hjy)
  | right hc hx hj =>
    obtain ⟨-, ha, hconst⟩ := ha
    obtain ⟨w₁, hw₁, hsu₁, hjc, hjy⟩ := applyBinary_ahead law hpures hconst hb hsu hj
    refine ⟨w₁, hw₁, hsu₁, ⟨trivial, everyConst_mono hw₁ ha, hjc⟩, fun w₂ hw₂ t l lb ht => ?_⟩
    exact ht.regroupRight hd ho (hregroups hc) (S.yields_mono hw₂ hjy)
  | left hc hy hj =>
    obtain ⟨-, hconst, ha⟩ := ha
    obtain ⟨w₁, hw₁, hsu₁, hjc, hjy⟩ := applyBinary_ahead law hpures hconst hb hsu hj
    refine ⟨w₁, hw₁, hsu₁, ⟨trivial, hjc, everyConst_mono hw₁ ha⟩, fun w₂ hw₂ t l lb ht => ?_⟩
    exact ht.regroupLeft hd ho (hregroups hc) (S.yields_mono hw₂ hjy)

/-- The folded form of a tree, in a world that knows the lists folding has made. -/
structure FoldsTo (S : Setting H W) (n : Nat) (d : Dialect H) (scope : List String) (w : World H)
    (s u' : Store H W) (t t' : Tree (Value H)) (w' : World H) : Prop where
  le : w ≤ w'
  stores : At S w' s u'
  constants : t'.Every (OfConst (S.constant w'))
  becomes : Becomes S n d w' scope t t'

/-- What is assumed of a tree: its own constants agree with themselves, and no `let` and no call is
of a conditional. -/
def Admitted (S : Setting H W) (w : World H) (node : Tree (Value H)) : Prop :=
  Straight node ∧ OfConst (fun v => Values S w v v ∧ S.constant w v) node

theorem fallback?_agree (hd : Registered S d w) {name : String} {v : Value H}
    (h : fallback? d scope name = some v) : Values S w v v := by
  unfold fallback? at h
  split at h
  · cases h
  · cases hc : d.constant? name with
    | some v' =>
      simp only [hc] at h
      cases h
      exact (hd.constants hc).1
    | none =>
      simp only [hc] at h
      split at h
      · obtain ⟨f, hf, rfl⟩ := Option.map_eq_some_iff.1 h
        exact .closure (hd.functions hf).1
      · cases h

theorem Becomes.ident (hd : Registered S d w₀) (hw : w₀ ≤ w) (line : Line) (name : String) :
    Becomes S n d w scope (.ident line name) (.ident line name) := by
  intro s s' c hc u v _ hv
  obtain ⟨rfl, rfl⟩ := hd.compiles.1 hc
  refine ⟨_, v, hd.compiles.2 ⟨rfl, rfl⟩, hv, ?_⟩
  cases hf : fallback? d scope name with
  | none => exact .var
  | some v => exact .fallback ((fallback?_agree hd hf).mono hw)

theorem Becomes.ident_const (hd : Registered S d w₀) (hw : w₀ ≤ w) {line : Line} {name : String}
    {v : Value H} (hname : name ∉ scope) (hv : d.constant? name = some v) :
    Becomes S n d w scope (.ident line name) (.const line v) := by
  intro s s' c hc u v' _ hv'
  obtain ⟨rfl, rfl⟩ := hd.compiles.1 hc
  refine ⟨_, v', hd.compiles.2 ⟨rfl, rfl⟩, hv', ?_⟩
  have hf : fallback? d scope name = some v := by simp [fallback?, hname, hv]
  rw [hf]
  exact .constant (hd.reserved.2 (by rw [hv]; rfl)) hname ((hd.constants hv).1.mono hw)

/-- A `let` of a value that is no conditional stays the kind of `let` it is. -/
theorem Becomes.bound (hd : Registered S d w₀) {line : Line} {name : String}
    {value value' inner inner' : Tree (Value H)} {u u' : Store H W}
    (hfold : Folds (S.machine n) d (valueScope name scope value) value u value' u')
    (hcond : value.isCond = false)
    (hvalue : Becomes S n d w (valueScope name scope value) value value')
    (hinner : Becomes S n d w (name :: scope) inner inner') :
    Becomes S n d w scope (.letIn line name value inner) (.letIn line name value' inner') := by
  have hclosure' := hfold.isClosure_of_not_cond hcond
  cases value with
  | closure l params body =>
    obtain ⟨body', -, rfl⟩ := hfold.step
    exact .letRec hd hvalue hinner
  | _ => exact .letIn hd rfl hclosure' hvalue hinner

/-- An operation becomes what its folded operands are folded to. -/
theorem foldBinary?_becomes (law : Lawful S) (hd : Registered S d w₀) {line : Line} {op : String}
    {left left' right right' t' : Tree (Value H)} {s u u' : Store H W}
    (h : foldBinary? (S.machine n) d line op left' right' u = .ok (some t') u') (hsu : At S w s u)
    (hleft : left'.Every (OfConst (S.constant w))) (hright : right'.Every (OfConst (S.constant w)))
    (hl : Becomes S n d w scope left left') (hr : Becomes S n d w scope right right') :
    ∃ w', FoldsTo S n d scope w s u' (.binary line op left right) t' w' := by
  obtain ⟨hn, -⟩ | ⟨o, b, t, ho, hpure, hb, ht, hj⟩ := foldBinary?_ok h
  · cases hn
  · cases ht
    obtain ⟨lb, rfl⟩ := const?_eq_some hb
    cases hconst : left'.const? with
    | some a =>
      obtain ⟨la, rfl⟩ := const?_eq_some hconst
      cases hj with
      | both hk =>
        obtain ⟨w₁, hw₁, hsu₁, hkc, hky⟩ :=
          applyBinary_ahead law ((hd.operators ho).2 hpure).1 hleft hright hsu hk
        exact ⟨w₁, hw₁, hsu₁, hkc, .binary_const hd ho (hl.mono hw₁) (hr.mono hw₁) hky⟩
    | none =>
      obtain rfl := operator?_symbol ho
      obtain ⟨w₁, hw₁, hsu₁, hc₁, hjoined⟩ :=
        joins_becomes law hd ho hpure hj hconst hsu hleft hright
      exact ⟨w₁, hw₁, hsu₁, hc₁,
        hjoined w₁ le_rfl _ line lb (.binary hd (hl.mono hw₁) (hr.mono hw₁))⟩

mutual

/-- A tree becomes what it is folded to. -/
theorem fold_becomes (law : Lawful S) (hd : Registered S d w₀) (t : Tree (Value H))
    {scope : List String} {w : World H} {s u u' : Store H W} {t' : Tree (Value H)}
    (h : Folds (S.machine n) d scope t u t' u') (hw : w₀ ≤ w) (hsu : At S w s u)
    (ht : t.Every (Admitted S w₀)) :
    ∃ w', FoldsTo S n d scope w s u' t t' w' := by
  have hstep := h.step
  match t with
  | .ident line name =>
    obtain ⟨rfl, ⟨v, hname, hv, rfl⟩ | ⟨-, rfl⟩⟩ := hstep
    · exact ⟨w, le_rfl, hsu, S.constant_mono hw (hd.constants hv).2, .ident_const hd hw hname hv⟩
    · exact ⟨w, le_rfl, hsu, trivial, .ident hd hw line name⟩
  | .const line v =>
    obtain ⟨rfl, rfl⟩ := hstep
    obtain ⟨hv, hconst⟩ := ht.2
    exact ⟨w, le_rfl, hsu, S.constant_mono hw hconst, .const hd (hv.mono hw)⟩
  | .letIn line name value inner =>
    obtain ⟨value', inner', u₁, hv, hi, rfl⟩ := hstep
    obtain ⟨⟨hcond, -⟩, htv, hti⟩ := ht
    obtain ⟨w₁, hw₁, hsu₁, hc₁, hb₁⟩ := fold_becomes law hd value hv hw hsu htv
    obtain ⟨w₂, hw₂, hsu₂, hc₂, hb₂⟩ := fold_becomes law hd inner hi (hw.trans hw₁) hsu₁ hti
    exact ⟨w₂, hw₁.trans hw₂, hsu₂, ⟨trivial, everyConst_mono hw₂ hc₁, hc₂⟩,
      .bound hd hv hcond (hb₁.mono hw₂) hb₂⟩
  | .cond line test yes no =>
    obtain ⟨-, htt, hty, htn⟩ := ht
    obtain ⟨test', u₁, htest, hrest⟩ := hstep
    obtain ⟨w₁, hw₁, hsu₁, hc₁, hb₁⟩ := fold_becomes law hd test htest hw hsu htt
    obtain ⟨v, truth, b, hv, htruth, hread, hf⟩ | ⟨-, yes', no', u₂, hy, hn, rfl⟩ := hrest
    · obtain ⟨l, rfl⟩ := const?_eq_some hv
      have hbranch : ∃ w', FoldsTo S n d scope w₁ s u' (if b then yes else no) t' w' := by
        cases b with
        | true => exact fold_becomes law hd yes hf (hw.trans hw₁) hsu₁ hty
        | false => exact fold_becomes law hd no hf (hw.trans hw₁) hsu₁ htn
      obtain ⟨w₂, hw₂, hsu₂, hc₂, hb₂⟩ := hbranch
      exact ⟨w₂, hw₁.trans hw₂, hsu₂, hc₂, .decided hd htruth hread (hb₁.mono hw₂) hb₂⟩
    · obtain ⟨w₂, hw₂, hsu₂, hc₂, hb₂⟩ := fold_becomes law hd yes hy (hw.trans hw₁) hsu₁ hty
      obtain ⟨w₃, hw₃, hsu₃, hc₃, hb₃⟩ :=
        fold_becomes law hd no hn ((hw.trans hw₁).trans hw₂) hsu₂ htn
      exact ⟨w₃, (hw₁.trans hw₂).trans hw₃, hsu₃,
        ⟨trivial, everyConst_mono (hw₂.trans hw₃) hc₁, everyConst_mono hw₃ hc₂, hc₃⟩,
        .cond hd (hb₁.mono (hw₂.trans hw₃)) (hb₂.mono hw₃) hb₃⟩
  | .unary line op operand =>
    obtain ⟨operand', u₁, ho, hrest⟩ := hstep
    obtain ⟨w₁, hw₁, hsu₁, hc₁, hb₁⟩ := fold_becomes law hd operand ho hw hsu ht.2
    obtain ⟨v, o, k, hv, hop, hrun, rfl⟩ | ⟨-, rfl, rfl⟩ := hrest
    · obtain ⟨l, rfl⟩ := const?_eq_some hv
      obtain ⟨w₂, hw₂, hsu₂, hkc, hky⟩ :=
        law.ahead (hd.unaries hop).2 (List.forall_mem_singleton.2 hc₁) hsu₁ hrun
      exact ⟨w₂, hw₁.trans hw₂, hsu₂, hkc, .unary_const hd hop (hb₁.mono hw₂) hky⟩
    · exact ⟨w₁, hw₁, hsu₁, ⟨trivial, hc₁⟩, .unary hd hb₁⟩
  | .binary line op left right =>
    obtain ⟨left', right', u₁, u₂, hl, hr, hrest⟩ := hstep
    obtain ⟨w₁, hw₁, hsu₁, hc₁, hb₁⟩ := fold_becomes law hd left hl hw hsu ht.2.1
    obtain ⟨w₂, hw₂, hsu₂, hc₂, hb₂⟩ := fold_becomes law hd right hr (hw.trans hw₁) hsu₁ ht.2.2
    have hc₁ := everyConst_mono hw₂ hc₁
    obtain hfold | ⟨hfold, rfl⟩ := hrest
    · obtain ⟨w₃, hw₃, hsu₃, hc₃, hb₃⟩ :=
        foldBinary?_becomes law hd hfold hsu₂ hc₁ hc₂ (hb₁.mono hw₂) hb₂
      exact ⟨w₃, (hw₁.trans hw₂).trans hw₃, hsu₃, hc₃, hb₃⟩
    · obtain ⟨-, rfl⟩ | ⟨o, b, t, -, -, -, ht, -⟩ := foldBinary?_ok hfold
      · exact ⟨w₂, hw₁.trans hw₂, hsu₂, ⟨trivial, hc₁, hc₂⟩, .binary hd (hb₁.mono hw₂) hb₂⟩
      · cases ht
  | .closure line params body =>
    obtain ⟨body', hb, rfl⟩ := hstep
    obtain ⟨w₁, hw₁, hsu₁, hc₁, hb₁⟩ := fold_becomes law hd body hb hw hsu ht.2
    exact ⟨w₁, hw₁, hsu₁, ⟨trivial, hc₁⟩, .closure hd hb₁⟩
  | .list line items =>
    obtain ⟨items', u₁, hi, hrest⟩ := hstep
    obtain ⟨w₁, hw₁, hsu₁, hc₁, hb₁⟩ := foldAll_becomes law hd items hi hw hsu ht.2
    obtain ⟨vs, v, -, hvs, hnew, rfl⟩ | ⟨-, rfl, rfl⟩ := hrest
    · cases hnew
      obtain ⟨w₂, hw₂, hright, hsu₂⟩ :=
        hsu₁.newRight (c := { source := .given vs none, items := some vs }) (.inl rfl)
      have hlist := law.constantList (everyItem_const hvs (everyItem_const_mono hw₂ hc₁)) hright
      exact ⟨w₂, hw₁.trans hw₂, hsu₂, hlist, .list_const hd (hb₁.mono hw₂) hvs hright⟩
    · exact ⟨w₁, hw₁, hsu₁, ⟨trivial, hc₁⟩, .list hd hb₁⟩
  | .index line source position =>
    obtain ⟨source', position', u₁, hs, hp, rfl⟩ := hstep
    obtain ⟨w₁, hw₁, hsu₁, hc₁, hb₁⟩ := fold_becomes law hd source hs hw hsu ht.2.1
    obtain ⟨w₂, hw₂, hsu₂, hc₂, hb₂⟩ := fold_becomes law hd position hp (hw.trans hw₁) hsu₁ ht.2.2
    exact ⟨w₂, hw₁.trans hw₂, hsu₂, ⟨trivial, everyConst_mono hw₂ hc₁, hc₂⟩,
      .index hd (hb₁.mono hw₂) hb₂⟩
  | .map line entries =>
    obtain ⟨entries', u₁, he, hrest⟩ := hstep
    obtain ⟨w₁, hw₁, hsu₁, hc₁, hb₁⟩ := foldEntries_becomes law hd entries he hw hsu ht.2
    obtain ⟨vs, v, -, hvs, hnew, rfl⟩ | ⟨-, rfl, rfl⟩ := hrest
    · cases hnew
      exact ⟨w₁, hw₁, hsu₁.congr rfl rfl hsu₁.idleLeft hsu₁.idleRight hsu₁.memory,
        law.constantMap (everyEntry_const hvs hc₁), .map_const hd hb₁ hvs⟩
    · exact ⟨w₁, hw₁, hsu₁, ⟨trivial, hc₁⟩, .map hd hb₁⟩
  | .field line record key =>
    obtain ⟨record', hr, rfl⟩ := hstep
    obtain ⟨w₁, hw₁, hsu₁, hc₁, hb₁⟩ := fold_becomes law hd record hr hw hsu ht.2
    exact ⟨w₁, hw₁, hsu₁, ⟨trivial, hc₁⟩, .field hd hb₁⟩
  | .call line callee args =>
    obtain ⟨args', u₁, ha, hrest⟩ := hstep
    obtain ⟨⟨hcond, -⟩, htc, hta⟩ := ht
    obtain ⟨w₁, hw₁, hsu₁, hc₁, hb₁⟩ := foldAll_becomes law hd args ha hw hsu hta
    obtain ⟨name, f, hf, ⟨vs, v, hpure, -, hvs, hrun, rfl⟩ | ⟨-, rfl, rfl⟩⟩ |
      ⟨hf, callee', hc, rfl⟩ := hrest
    · have hpures := (hd.functions (function?_of_static? hf)).2 hpure
      obtain ⟨w₂, hw₂, hsu₂, hkc, hky⟩ := law.ahead hpures (everyItem_const hvs hc₁) hsu₁ hrun
      exact ⟨w₂, hw₁.trans hw₂, hsu₂, hkc, .call_const hd hf (hb₁.mono hw₂) hvs hky⟩
    · obtain ⟨l, m, rfl⟩ := static?_eq_some hf
      exact ⟨w₁, hw₁, hsu₁, ⟨trivial, trivial, hc₁⟩,
        .callStatic hd (hw.trans hw₁) hf ha.length_eq hb₁⟩
    · obtain ⟨w₂, hw₂, hsu₂, hc₂, hb₂⟩ := fold_becomes law hd callee hc (hw.trans hw₁) hsu₁ htc
      exact ⟨w₂, hw₁.trans hw₂, hsu₂, ⟨trivial, hc₂, everyItem_const_mono hw₂ hc₁⟩,
        .call hd hf (hc.static?_eq_none hcond hf) hb₂ (hb₁.mono hw₂)⟩
  | .method line receiver name args =>
    obtain ⟨receiver', args', u₁, hr, ha, rfl⟩ := hstep
    obtain ⟨w₁, hw₁, hsu₁, hc₁, hb₁⟩ := fold_becomes law hd receiver hr hw hsu ht.2.1
    obtain ⟨w₂, hw₂, hsu₂, hc₂, hb₂⟩ := foldAll_becomes law hd args ha (hw.trans hw₁) hsu₁ ht.2.2
    exact ⟨w₂, hw₁.trans hw₂, hsu₂, ⟨trivial, everyConst_mono hw₂ hc₁, hc₂⟩,
      .method hd (hb₁.mono hw₂) hb₂⟩

theorem foldAll_becomes (law : Lawful S) (hd : Registered S d w₀) (ts : List (Tree (Value H)))
    {scope : List String} {w : World H} {s u u' : Store H W} {ts' : List (Tree (Value H))}
    (h : FoldsAll (S.machine n) d scope ts u ts' u') (hw : w₀ ≤ w) (hsu : At S w s u)
    (ht : Tree.EveryItem (Admitted S w₀) ts) :
    ∃ w', w ≤ w' ∧ At S w' s u' ∧ Tree.EveryItem (OfConst (S.constant w')) ts' ∧
      BecomeAll S n d w' scope ts ts' := by
  match ts with
  | [] =>
    obtain ⟨rfl, rfl⟩ := h.nil
    exact ⟨w, le_rfl, hsu, trivial, .nil⟩
  | t :: rest =>
    obtain ⟨t', rest', u₁, hhead, hrest, rfl⟩ := h.cons
    obtain ⟨w₁, hw₁, hsu₁, hc₁, hb₁⟩ := fold_becomes law hd t hhead hw hsu ht.1
    obtain ⟨w₂, hw₂, hsu₂, hc₂, hb₂⟩ := foldAll_becomes law hd rest hrest (hw.trans hw₁) hsu₁ ht.2
    exact ⟨w₂, hw₁.trans hw₂, hsu₂, ⟨everyConst_mono hw₂ hc₁, hc₂⟩, .cons (hb₁.mono hw₂) hb₂⟩

theorem foldEntries_becomes (law : Lawful S) (hd : Registered S d w₀)
    (es : List (String × Tree (Value H))) {scope : List String} {w : World H} {s u u' : Store H W}
    {es' : List (String × Tree (Value H))} (h : FoldsEntries (S.machine n) d scope es u es' u')
    (hw : w₀ ≤ w) (hsu : At S w s u) (ht : Tree.EveryEntry (Admitted S w₀) es) :
    ∃ w', w ≤ w' ∧ At S w' s u' ∧ Tree.EveryEntry (OfConst (S.constant w')) es' ∧
      BecomeEntries S n d w' scope es es' := by
  match es with
  | [] =>
    obtain ⟨rfl, rfl⟩ := h.nil
    exact ⟨w, le_rfl, hsu, trivial, .nil⟩
  | (key, t) :: rest =>
    obtain ⟨t', rest', u₁, hhead, hrest, rfl⟩ := h.cons
    obtain ⟨w₁, hw₁, hsu₁, hc₁, hb₁⟩ := fold_becomes law hd t hhead hw hsu ht.1
    obtain ⟨w₂, hw₂, hsu₂, hc₂, hb₂⟩ :=
      foldEntries_becomes law hd rest hrest (hw.trans hw₁) hsu₁ ht.2
    exact ⟨w₂, hw₁.trans hw₂, hsu₂, ⟨everyConst_mono hw₂ hc₁, hc₂⟩, .cons (hb₁.mono hw₂) hb₂⟩

end

end Agreement

end Formula
