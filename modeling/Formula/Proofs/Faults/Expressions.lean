import Formula.Engine
import Formula.Proofs.Faults.Trees

/-!
Expressions under a regime. Folding a tree that is placed gives such a tree: what it makes by
itself stands at the line of the node it is made of, and where it moves a closure literal up to a
`let`, the literal sees one more name. So the code of an expression fits, folded or not; making
the expression fails at a line of the tree, and evaluating it ends in a fault that may get out.
-/
namespace Formula
namespace Faults

open Compilation (compile)
open Folding

variable {H W : Type} {R : Regime H W} {m : Machine H W} {d : Dialect H} {base : String → Prop}
  {lines : Line → Prop}

theorem holds_const? {t : Tree (Value H)} {scope : List String} {v : Value H}
    (ht : Throughout (Placed R d base lines) scope t) (hv : t.const? = some v) : R.Holds v := by
  obtain ⟨line, rfl⟩ := const?_eq_some hv
  exact ht.2

theorem holdsAll_values? {ts : List (Tree (Value H))} {scope : List String} {vs : List (Value H)}
    (hts : ThroughoutAll (Placed R d base lines) scope ts) (hvs : values? ts = some vs) :
    R.HoldsAll vs := by
  induction ts generalizing vs with
  | nil =>
    cases hvs
    exact fun v hv => by cases hv
  | cons t rest ih =>
    simp only [values?, List.mapM_cons, Option.bind_eq_bind, Option.bind_eq_some_iff] at hvs
    obtain ⟨v, hv, ws, hws, hvs⟩ := hvs
    cases hvs
    exact Regime.HoldsAll.cons (holds_const? hts.1 hv) (ih hts.2 hws)

theorem holdsFields_entryValues? {es : List (String × Tree (Value H))} {scope : List String}
    {vs : List (String × Value H)} (hes : ThroughoutEntries (Placed R d base lines) scope es)
    (hvs : entryValues? es = some vs) : R.HoldsFields vs := by
  induction es generalizing vs with
  | nil =>
    cases hvs
    exact fun p hp => by cases hp
  | cons e rest ih =>
    simp only [entryValues?, List.mapM_cons, Option.bind_eq_bind, Option.bind_eq_some_iff,
      Option.map_eq_some_iff] at hvs
    obtain ⟨p, ⟨v, hv, rfl⟩, ws, hws, hvs⟩ := hvs
    cases hvs
    exact List.forall_mem_cons.2 ⟨holds_const? hes.1 hv, ih hes.2 hws⟩

/-- What folding gives: a tree that is placed, and a closure literal for a closure literal. -/
structure Refolded (R : Regime H W) (d : Dialect H) (base : String → Prop) (lines : Line → Prop)
    (scope : List String) (t : Tree (Value H)) (f : Folded H) : Prop where
  placed : Throughout (Placed R d base lines) scope f.tree
  closure : t.isClosure = true → f.tree.isClosure = true

section

variable {scope : List String} {t t' : Tree (Value H)}

theorem Refolded.made (ht' : Throughout (Placed R d base lines) scope t')
    (hclosure : t.isClosure = false) : Refolded R d base lines scope t (made t') :=
  ⟨ht', fun h => by rw [hclosure] at h; cases h⟩

theorem Refolded.rebuild {kept : Bool} (ht : Throughout (Placed R d base lines) scope t)
    (ht' : Throughout (Placed R d base lines) scope t')
    (hclosure : t.isClosure = true → t'.isClosure = true) :
    Refolded R d base lines scope t (rebuild t kept t') := by
  cases kept with
  | true => exact ⟨ht, id⟩
  | false => exact ⟨ht', hclosure⟩

/-- The value of a `let` is looked at again once it is folded, and may then be a closure literal
that sees one more name. -/
theorem Refolded.value {name : String} {f : Folded H}
    (h : Refolded R d base lines (valueScope name scope t) t f) :
    Throughout (Placed R d base lines) (valueScope name scope f.tree) f.tree := by
  refine h.placed.mono widens_placed fun other hother => ?_
  rw [valueScope_eq] at hother ⊢
  cases hc : t.isClosure with
  | true =>
    rw [h.closure hc]
    rwa [hc] at hother
  | false =>
    simp only [hc, Bool.false_eq_true, if_false] at hother
    split
    · exact List.mem_cons_of_mem _ hother
    · exact hother

end

theorem lines_or {l other : Line} (hl : lines l) (hother : lines other) : lines (l.or other) := by
  unfold Line.or
  split
  · exact hl
  · exact hother

theorem ensures_applyBinary (hR : Lawful R) (hm : Serves R m) {o : Operator H}
    (ho : R.Trusts o.callback) {line : Line} (hline : lines line) {a b : Value H}
    (ha : R.Holds a) (hb : R.Holds b) :
    Ensures R R.Holds (fun e _ => lines e.line) (applyBinary m o line a b) :=
  (ensures_callback hR hm ho (Regime.holdsAll_two ha hb)).mapFault fun _ => hline

/-- A tree, if there is one, is placed. -/
def PlacedIf (R : Regime H W) (d : Dialect H) (base : String → Prop) (lines : Line → Prop)
    (scope : List String) (r : Option (Tree (Value H))) : Prop :=
  ∀ t, r = some t → Throughout (Placed R d base lines) scope t

section

variable {scope : List String}

theorem placedIf_none : PlacedIf R d base lines scope none := fun _ h => by cases h

theorem placedIf_some {t : Tree (Value H)} (h : Throughout (Placed R d base lines) scope t) :
    PlacedIf R d base lines scope (some t) := fun _ ht => Option.some.inj ht ▸ h

/-- Constants that are joined stand at the line of the operation, and so does the operation that is
left. -/
theorem ensures_combine (hR : Lawful R) (hm : Serves R m) {o : Operator H}
    (ho : R.Trusts o.callback) {line : Line} (hline : lines line)
    (hadmits : R.Admits .operation line) (left : Tree (Value H)) {b : Value H}
    (hleft : Throughout (Placed R d base lines) scope left) (hb : R.Holds b) :
    Ensures R (PlacedIf R d base lines scope) (fun e _ => lines e.line)
      (combine m o line left b) := by
  have node (op : String) (x y : Tree (Value H)) :
      Placed R d base lines scope (.binary line op x y) := by
    refine ⟨hline, fun site hsite => ?_⟩
    cases hsite
    exact hadmits
  have apply {a b : Value H} (ha : R.Holds a) (hb : R.Holds b) :=
    ensures_applyBinary hR hm ho hline ha hb
  fun_induction combine m o line left b with
  | case1 => exact (apply hleft.2 hb).bind fun v hv => .pure (placedIf_some ⟨hline, hv⟩)
  | case2 => exact .pure placedIf_none
  | case3 l op lc c b _ la a =>
    refine (apply hleft.2.1.2 hb).bind fun joined hjoined => ?_
    refine (apply hjoined hleft.2.2.2).bind fun v hv => ?_
    exact .pure (placedIf_some ⟨hline, hv⟩)
  | case4 l op lc c b _ x _ ih =>
    refine (apply hleft.2.2.2 hb).bind fun joined hjoined => ?_
    refine (ih joined hleft.2.1 hjoined).bind fun r hr => ?_
    cases r with
    | some t => exact .pure hr
    | none => exact .pure (placedIf_some ⟨node op x _, hleft.2.1, hline, hjoined⟩)
  | case5 => exact .pure placedIf_none
  | case6 l op la a y b =>
    refine (apply hleft.2.1.2 hb).bind fun joined hjoined => ?_
    exact .pure (placedIf_some ⟨node op _ y, ⟨hline, hjoined⟩, hleft.2.2⟩)
  | case7 => exact .pure placedIf_none

theorem ensures_foldBinary? (hR : Lawful R) (hm : Serves R m) (hd : Provides R d) {line : Line}
    (hline : lines line) (hadmits : R.Admits .operation line) (op : String)
    {left right : Tree (Value H)} (hleft : Throughout (Placed R d base lines) scope left)
    (hright : Throughout (Placed R d base lines) scope right) :
    Ensures R (PlacedIf R d base lines scope) (fun e _ => lines e.line)
      (foldBinary? m d line op left right) := by
  unfold foldBinary?
  cases ho : d.operator? op with
  | none => exact .pure placedIf_none
  | some o =>
    cases hb : right.const? with
    | none => exact .pure placedIf_none
    | some b =>
      dsimp only
      cases o.isPure with
      | true =>
        exact ensures_combine hR hm (hd.operators ho) hline hadmits left hleft
          (holds_const? hright hb)
      | false => exact .pure placedIf_none

theorem ensures_foldCall? (hm : Serves R m) {line : Line} (hline : lines line) (name : String)
    {f : Function H} (hf : R.Runs f) {fs : List (Folded H)}
    (hfs : ThroughoutAll (Placed R d base lines) scope (trees fs)) :
    Ensures R R.Maybe (fun e _ => lines e.line) (foldCall? m line name f fs) := by
  unfold foldCall?
  cases f.isPure with
  | false => exact .pure Regime.maybe_none
  | true =>
    cases f.arity.accepts fs.length with
    | false =>
      simp only [Bool.not_true, Bool.not_false, Bool.false_eq_true, if_false, if_true]
      exact Ensures.bind (Q := fun _ => False) (.fault fun _ => hline) fun _ h => h.elim
    | true =>
      simp only [Bool.not_true, Bool.false_eq_true, if_false]
      rw [constants?_eq]
      cases hvs : values? (trees fs) with
      | none => exact .pure Regime.maybe_none
      | some vs =>
        refine Ensures.map ?_ fun v => Regime.maybe_some
        exact (hm.call hf (holdsAll_values? hfs hvs)).mapFault fun _ => hline

end

mutual

/-- A tree that is placed folds to one that is, or fails at one of its lines. -/
theorem ensures_fold (hR : Lawful R) (hm : Serves R m) (hd : Provides R d) (t : Tree (Value H))
    {scope : List String} (ht : Throughout (Placed R d base lines) scope t) :
    Ensures R (Refolded R d base lines scope t) (fun e _ => lines e.line) (fold m d t scope) := by
  match t with
  | .ident line name =>
    simp only [fold]
    cases hc : if scope.contains name then none else d.constant? name with
    | none => exact .pure ⟨ht, id⟩
    | some v =>
      have hconst : d.constant? name = some v := by
        split at hc
        · cases hc
        · exact hc
      exact .pure (.made ⟨ht.1, hd.constants hconst⟩ rfl)
  | .const .. => exact .pure ⟨ht, id⟩
  | .letIn line name value inner =>
    refine (ensures_fold hR hm hd value ht.2.1).bind fun v hv => ?_
    refine (ensures_fold hR hm hd inner ht.2.2).bind fun i hi => .pure ?_
    exact .rebuild ht ⟨ht.1, hv.value, hi.placed⟩ (fun h => by cases h)
  | .cond line test yes no =>
    refine (ensures_fold hR hm hd test ht.2.1).bind fun t' ht' => ?_
    have hy := ensures_fold hR hm hd yes ht.2.2.1
    have hn := ensures_fold hR hm hd no ht.2.2.2
    have both : Ensures R (Refolded R d base lines scope (.cond line test yes no))
        (fun e _ => lines e.line) (do
          let y ← fold m d yes scope
          let n ← fold m d no scope
          return rebuild (.cond line test yes no) (t'.kept && y.kept && n.kept)
            (.cond line t'.tree y.tree n.tree)) := by
      refine hy.bind fun y hy => hn.bind fun n hn => .pure ?_
      exact .rebuild ht ⟨ht.1, ht'.placed, hy.placed, hn.placed⟩ (fun h => by cases h)
    cases hv : t'.tree.const? with
    | none => exact both
    | some v =>
      cases d.truth with
      | none => exact both
      | some truth =>
        dsimp only
        match truth.read m.host v with
        | some true => exact hy.bind fun y hy => .pure (.made hy.placed rfl)
        | some false => exact hn.bind fun n hn => .pure (.made hn.placed rfl)
        | none =>
          have hshow := ensures_inspect hm (F := fun _ _ => True) (holds_const? ht'.placed hv)
          exact hshow.lift.bind fun text _ => .fault fun _ => ht.1.1
  | .unary line op operand =>
    refine (ensures_fold hR hm hd operand ht.2).bind fun t' ht' => ?_
    have same : Refolded R d base lines scope (.unary line op operand)
        (rebuild (.unary line op operand) t'.kept (.unary line op t'.tree)) :=
      .rebuild ht ⟨ht.1, ht'.placed⟩ (fun h => by cases h)
    cases hv : t'.tree.const? with
    | none => exact .pure same
    | some v =>
      cases ho : d.unary? op with
      | none => exact .pure same
      | some o =>
        have hcall := ensures_callback hR hm (hd.unaries ho)
          (Regime.holdsAll_one (holds_const? ht'.placed hv))
        refine Ensures.bind (hcall.mapFault fun _ => ht.1.1) fun w hw => ?_
        exact .pure (.made ⟨ht.1.1, hw⟩ rfl)
  | .binary line op left right =>
    refine (ensures_fold hR hm hd left ht.2.1).bind fun a ha => ?_
    refine (ensures_fold hR hm hd right ht.2.2).bind fun b hb => ?_
    refine (ensures_foldBinary? hR hm hd ht.1.1 (ht.1.2 _ rfl) op ha.placed hb.placed).bind
      fun r hr => ?_
    cases r with
    | some t' => exact .pure (.made (hr t' rfl) rfl)
    | none => exact .pure (.rebuild ht ⟨ht.1, ha.placed, hb.placed⟩ (fun h => by cases h))
  | .closure line params body =>
    refine (ensures_fold hR hm hd body ht.2).bind fun b hb => .pure ?_
    exact .rebuild ht ⟨ht.1, hb.placed⟩ id
  | .list line items =>
    refine (ensures_foldAll hR hm hd items ht.2).bind fun fs hfs => ?_
    cases hvs : if d.lists then constants? fs else none with
    | none => exact .pure (.rebuild ht ⟨ht.1, hfs⟩ (fun h => by cases h))
    | some vs =>
      have hvalues : values? (trees fs) = some vs := by
        split at hvs
        · rwa [constants?_eq] at hvs
        · cases hvs
      refine (ensures_newList (holdsAll_values? hfs hvalues)).bind fun v hv => ?_
      exact .pure (.made ⟨ht.1.1, hv⟩ rfl)
  | .index line source position =>
    refine (ensures_fold hR hm hd source ht.2.1).bind fun a ha => ?_
    refine (ensures_fold hR hm hd position ht.2.2).bind fun b hb => .pure ?_
    exact .rebuild ht ⟨ht.1, ha.placed, hb.placed⟩ (fun h => by cases h)
  | .map line entries =>
    refine (ensures_foldEntries hR hm hd entries ht.2).bind fun fs hfs => ?_
    cases hvs : if d.maps then entryConstants? fs else none with
    | none => exact .pure (.rebuild ht ⟨ht.1, hfs⟩ (fun h => by cases h))
    | some vs =>
      have hvalues : entryValues? (entryTrees fs) = some vs := by
        split at hvs
        · rwa [entryConstants?_eq] at hvs
        · cases hvs
      have hfields := holdsFields_entryValues? hfs hvalues
      refine (ensures_newMap (Regime.HoldsFields.map hfields)).bind fun v hv => ?_
      exact .pure (.made ⟨ht.1.1, hv⟩ rfl)
  | .field line record key =>
    refine (ensures_fold hR hm hd record ht.2).bind fun r hr => .pure ?_
    exact .rebuild ht ⟨ht.1, hr.placed⟩ (fun h => by cases h)
  | .call line callee args =>
    refine (ensures_foldAll hR hm hd args ht.2.2).bind fun fs hfs => ?_
    cases hstatic : d.static? scope callee with
    | some p =>
      obtain ⟨name, f⟩ := p
      have hf := hd.functions (function?_of_static? hstatic)
      refine (ensures_foldCall? hm ht.1.1 name hf hfs).bind fun r hr => ?_
      cases r with
      | none => exact .pure (.rebuild ht ⟨ht.1, ht.2.1, hfs⟩ (fun h => by cases h))
      | some v =>
        obtain ⟨l, other, rfl⟩ := static?_eq_some hstatic
        exact .pure (.made ⟨lines_or ht.2.1.1 ht.1.1, hr v rfl⟩ rfl)
    | none =>
      refine (ensures_fold hR hm hd callee ht.2.1).bind fun c hc => .pure ?_
      exact .rebuild ht ⟨ht.1, hc.placed, hfs⟩ (fun h => by cases h)
  | .method line receiver name args =>
    refine (ensures_fold hR hm hd receiver ht.2.1).bind fun r hr => ?_
    refine (ensures_foldAll hR hm hd args ht.2.2).bind fun fs hfs => .pure ?_
    exact .rebuild ht ⟨ht.1, hr.placed, hfs⟩ (fun h => by cases h)

theorem ensures_foldAll (hR : Lawful R) (hm : Serves R m) (hd : Provides R d)
    (ts : List (Tree (Value H))) {scope : List String}
    (hts : ThroughoutAll (Placed R d base lines) scope ts) :
    Ensures R (fun fs => ThroughoutAll (Placed R d base lines) scope (trees fs))
      (fun e _ => lines e.line) (foldAll m d ts scope) := by
  match ts with
  | [] => exact .pure trivial
  | t :: rest =>
    refine (ensures_fold hR hm hd t hts.1).bind fun f hf => ?_
    exact (ensures_foldAll hR hm hd rest hts.2).bind fun fs hfs => .pure ⟨hf.placed, hfs⟩

theorem ensures_foldEntries (hR : Lawful R) (hm : Serves R m) (hd : Provides R d)
    (es : List (String × Tree (Value H))) {scope : List String}
    (hes : ThroughoutEntries (Placed R d base lines) scope es) :
    Ensures R (fun fs => ThroughoutEntries (Placed R d base lines) scope (entryTrees fs))
      (fun e _ => lines e.line) (foldEntries m d es scope) := by
  match es with
  | [] => exact .pure trivial
  | (_, t) :: rest =>
    refine (ensures_fold hR hm hd t hes.1).bind fun f hf => ?_
    exact (ensures_foldEntries hR hm hd rest hes.2).bind fun fs hfs => .pure ⟨hf.placed, hfs⟩

end

/-- All that an evaluation of the tree can start from fits: what the dialect brings in, the
constants of the tree, and what the outermost scope binds. -/
structure Furnished (R : Regime H W) (d : Dialect H) (t : Tree (Value H)) (root : Env H) :
    Prop where
  dialect : Provides R d
  constants : ∀ line v, .const line v ∈ t.nodes → R.Holds v
  scope : Fits R (.env root)

/-- A fault of making an expression, at one of the lines. -/
def Located (lines : Line → Prop) : Fault → Prop
  | .fold e => lines e.line
  | .compile e => lines e.line
  | .eval _ => False

section

variable (hR : Lawful R) (hm : Serves R m) (hd : Provides R d) (hrules : d.rules = none)
  {t : Tree (Value H)} (ht : Throughout (Placed R d base lines) [] t)

include hR hm hd ht

theorem ensures_prepare :
    Ensures R (Throughout (Placed R d base lines) []) (fun e _ => Located lines e)
      (Engine.prepare m d t) := by
  unfold Engine.prepare
  cases d.foldConstants with
  | false => exact .pure ht
  | true =>
    have hfold : Ensures R (Refolded R d base lines [] t) (fun e _ => Located lines e)
        ((Engine.optimize m d t).mapFault .fold) :=
      (ensures_fold hR hm hd t ht).mapFault fun he => he
    exact hfold.bind fun f hf => .pure hf.placed

include hrules

theorem ensures_expression :
    Ensures R (fun x => Fits R (.code base [] x.code)) (fun e _ => Located lines e) (do
      let tree ← Engine.prepare m d t
      let code ← (compile m d tree []).mapFault .compile
      return ({ tree, code } : Expression H)) := by
  refine (ensures_prepare hR hm hd ht).bind fun tree htree => ?_
  have hcompile : Ensures R (fun c => Fits R (.code base [] c)) (fun e _ => Located lines e)
      ((compile m d tree []).mapFault .compile) :=
    (ensures_compile hm hd hrules tree htree).mapFault fun he => he
  exact hcompile.bind fun code hcode => .pure hcode

/-- An expression is made of code that fits. -/
theorem fits_of_generate {x : Expression H} {s s' : Store H W} (hs : Sound R s)
    (h : Engine.generate m d t s = .ok x s') : Fits R (.code base [] x.code) ∧ Sound R s' :=
  (ensures_expression hR hm hd hrules ht).value hs (catchPanic_eq_ok h)

end

section

variable (hR : Lawful R) {n : Nat} {x : Expression H} {env : Env H}
  (hx : Fits R (.code base [] x.code))
  (hbase : ∀ name, base name → (env.find? name).isSome = true) (henv : Fits R (.env env))

include hR hx hbase henv

/-- The value of an evaluation fits, so that others can start from it. -/
theorem eval_ok {v : Value H} {s s' : Store H W} (hs : Sound R s)
    (h : Engine.eval (.ofHost R.host n) x env s = .ok v s') : R.Holds v ∧ Sound R s' := by
  have houtcome := outcome_exec hR n hx hbase henv hs
  rwa [(Run.mapFault_ok _).1 (catchPanic_eq_ok h)] at houtcome

/-- An evaluation ends in a fault that may get out and was raised in it, or because the host
panics. -/
theorem eval_fault {e : Fault} {s s' : Store H W} (hs : Sound R s)
    (h : Engine.eval (.ofHost R.host n) x env s = .error (.fault e) s') :
    ∃ e₁, e = .eval e₁ ∧ ((R.Reports R.final ⟨n, .code x.code env, s⟩ e₁ s' ∧ Sound R s') ∨
      ∃ message, e₁ = ⟨.panic message, .unknown⟩) := by
  obtain hrun | ⟨message, rfl⟩ := catchPanic_eq_fault h
  · obtain ⟨e₁, he₁, hexec⟩ := mapFault_eq_fault hrun
    have houtcome := outcome_exec hR n hx hbase henv hs
    rw [hexec] at houtcome
    exact ⟨e₁, he₁, .inl houtcome⟩
  · exact ⟨_, rfl, .inr ⟨message, rfl⟩⟩

end

end Faults

end Formula
