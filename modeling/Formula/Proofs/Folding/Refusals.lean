import Formula.Dialect.Standard
import Formula.Proofs.Compilation.Refusals
import Formula.Proofs.Folding.Bindings

/-!
Folding and what compilation refuses. A tree that compiles is folded to one without refusals,
with one exception: where the callee of a call is a conditional and folding decides on a branch
that names a registered function, the call becomes a call of this function by name. The number of
its arguments, which was to be looked at when the call is made, is then looked at by the compiler.
-/
namespace Formula
namespace Folding

open Compilation

variable {H W : Type} {m : Machine H W} {d : Dialect H}

/-- A call whose callee is a conditional that folding decides in favour of a registered function,
which does not take so many arguments. -/
def Exposes (m : Machine H W) (d : Dialect H) (e : CompileError) (node : Tree (Value H)) : Prop :=
  ∃ line callee args scope l name f s s', node = .call line callee args ∧ callee.isCond = true ∧
    Folds m d scope callee s (.ident l name) s' ∧ name ∉ scope ∧ d.function? name = some f ∧
    misfit? f line name args.length = some e

/-- The names around a folded tree are those around the given one. A `let` that folding has made
recursive adds its name, but only where there are closures. -/
def Surrounds (d : Dialect H) (scope around : List String) : Prop :=
  (∀ name ∈ scope, name ∈ around) ∧ (d.closures = true ∨ ∀ name ∈ around, name ∈ scope)

theorem Surrounds.refl (d : Dialect H) (scope : List String) : Surrounds d scope scope :=
  ⟨fun _ h => h, .inr fun _ h => h⟩

theorem Surrounds.append {scope around : List String} (h : Surrounds d scope around)
    (names : List String) : Surrounds d (names ++ scope) (names ++ around) := by
  refine ⟨fun name hname => ?_, h.2.imp_right fun hback name hname => ?_⟩
  · exact List.mem_append.2 ((List.mem_append.1 hname).imp_right (h.1 name))
  · exact List.mem_append.2 ((List.mem_append.1 hname).imp_right (hback name))

theorem Surrounds.cons {scope around : List String} (h : Surrounds d scope around) (name : String) :
    Surrounds d (name :: scope) (name :: around) := h.append [name]

theorem Surrounds.reveal {scope around : List String} (h : Surrounds d scope around)
    (hclosures : d.closures = true) (name : String) : Surrounds d scope (name :: around) :=
  ⟨fun other hother => List.mem_cons_of_mem _ (h.1 other hother), .inl hclosures⟩

/-- Names that are bound around a tree hide functions from it, and only they do. -/
theorem Surrounds.static? {scope around : List String} (h : Surrounds d scope around)
    (callee : Tree (Value H)) : d.static? around callee = d.static? scope callee ∨
      d.static? around callee = none ∧ d.closures = true := by
  cases callee with
  | ident line name =>
    simp only [Dialect.static?, List.contains_iff_mem]
    by_cases hscope : name ∈ scope
    · left
      rw [if_pos hscope, if_pos (h.1 name hscope)]
    · by_cases haround : name ∈ around
      · obtain hclosures | hback := h.2
        · exact .inr ⟨if_pos haround, hclosures⟩
        · exact absurd (hback name haround) hscope
      · left
        rw [if_neg hscope, if_neg haround]
  | _ => exact .inl rfl

theorem or_ne_some {r r' : Option CompileError} {e : CompileError} (h : r ≠ some e)
    (h' : r' ≠ some e) : r.or r' ≠ some e := by
  cases r with
  | none => exact h'
  | some _ => exact h

theorem lacking?_eq_none {present : Bool} {line : Line} {node capability : String} :
    lacking? present line node capability = none ↔ present = true := by
  cases present <;> simp [lacking?]

theorem lacking?_ne_some {present : Bool} (h : present = true) {line : Line}
    {node capability : String} {e : CompileError} :
    lacking? present line node capability ≠ some e := by
  rw [lacking?_eq_none.2 h]
  exact (Option.some_ne_none e).symm

/-- The parts of a `let` that compiles compile, the value under its own name if it is a closure. -/
theorem refusal?_letIn_eq_none {line : Line} {name : String} {value inner : Tree (Value H)}
    {scope : List String} (h : refusal? d (.letIn line name value inner) scope = none) :
    refusal? d value (valueScope name scope value) = none ∧
      refusal? d inner (name :: scope) = none := by
  cases value with
  | closure l params body =>
    simp only [refusal?, Option.or_eq_none_iff, lacking?_eq_none, valueScope] at h ⊢
    exact ⟨⟨h.1, h.2.1⟩, h.2.2⟩
  | _ => exact Option.or_eq_none_iff.1 h

theorem refusal?_letIn_ne_some {line : Line} {name : String} {value inner : Tree (Value H)}
    {scope : List String} {e : CompileError}
    (hclosures : value.isClosure = true → d.closures = true)
    (hvalue : refusal? d value (valueScope name scope value) ≠ some e)
    (hinner : refusal? d inner (name :: scope) ≠ some e) :
    refusal? d (.letIn line name value inner) scope ≠ some e := by
  cases value with
  | closure l params body =>
    have hbody : refusal? d body (params ++ name :: scope) ≠ some e := by
      simpa only [refusal?, valueScope, lacking?_eq_none.2 (hclosures rfl), Option.none_or]
        using hvalue
    exact or_ne_some (lacking?_ne_some (hclosures rfl)) (or_ne_some hbody hinner)
  | _ => exact or_ne_some hvalue hinner

/-- Where a closure literal is revealed, there are closures. -/
theorem Reveals.closures {scope : List String} {t : Tree (Value H)} {s : Store H W}
    (hr : Reveals m d scope t s) (h : refusal? d t scope = none) : d.closures = true := by
  induction hr with
  | literal =>
    rw [refusal?, Option.or_eq_none_iff, lacking?_eq_none] at h
    exact h.1
  | @cond _ _ _ yes no _ _ _ _ b _ _ _ _ ih =>
    simp only [refusal?, Option.or_eq_none_iff] at h
    obtain ⟨-, -, hyes, hno⟩ := h
    cases b with
    | true => exact ih hyes
    | false => exact ih hno

/-- Constants that are joined bring no refusal. -/
theorem Joins.refusal?_ne_some {o : Operator H} (ho : d.operator? o.symbol = some o) {line : Line}
    {a t : Tree (Value H)} {b : Value H} {s s' : Store H W} (h : Joins m o line a b s t s')
    {around : List String} {e : CompileError} (ha : refusal? d a around ≠ some e) :
    refusal? d t around ≠ some e := by
  induction h with
  | both | all => exact (Option.some_ne_none e).symm
  | deeper _ _ _ _ ih =>
    refine ih ?_
    simpa [refusal?, ho] using ha
  | right | left => simpa [refusal?, ho] using ha

theorem refusal?_callee {scope around : List String} (hs : Surrounds d scope around)
    {callee callee' : Tree (Value H)} {s s' : Store H W} (h : Folds m d scope callee s callee' s')
    (hstatic : d.static? scope callee = none) {name : String} {f : Function H}
    (hstatic' : d.static? around callee' = some (name, f)) :
    callee.isCond = true ∧ name ∉ scope ∧ d.function? name = some f ∧
      ∃ l, callee' = .ident l name := by
  obtain ⟨l, other, rfl⟩ := static?_eq_some hstatic'
  obtain hsame | ⟨hnone, -⟩ := hs.static? (.ident l other)
  · rw [hsame] at hstatic'
    have hcond : callee.isCond = true := by
      cases hc : callee.isCond with
      | true => rfl
      | false =>
        rw [h.static?_eq_none hc hstatic] at hstatic'
        cases hstatic'
    by_cases hmem : other ∈ scope
    · simp [Dialect.static?, hmem] at hstatic'
    · simp only [Dialect.static?, List.contains_iff_mem, if_neg hmem, Option.map_eq_some_iff,
        Prod.mk.injEq] at hstatic'
      obtain ⟨g, hg, rfl, rfl⟩ := hstatic'
      exact ⟨hcond, hmem, hg, l, rfl⟩
  · rw [hnone] at hstatic'
    cases hstatic'

mutual

/-- A folded tree has no refusal that the given one does not expose. -/
theorem refusal?_folds {e : CompileError} (t : Tree (Value H)) {scope around : List String}
    (hs : Surrounds d scope around) (ht : refusal? d t scope = none)
    (hno : t.Every fun node => ¬ Exposes m d e node) {s s' : Store H W} {t' : Tree (Value H)}
    (h : Folds m d scope t s t' s') : refusal? d t' around ≠ some e := by
  have hstep := h.step
  match t with
  | .ident line name =>
    obtain ⟨-, ⟨v, -, -, rfl⟩ | ⟨-, rfl⟩⟩ := hstep
    · exact (Option.some_ne_none e).symm
    · exact (Option.some_ne_none e).symm
  | .const line v =>
    obtain ⟨-, rfl⟩ := hstep
    exact (Option.some_ne_none e).symm
  | .letIn line name value inner =>
    obtain ⟨value', inner', u, hv, hi, rfl⟩ := hstep
    obtain ⟨hvalue, hinner⟩ := refusal?_letIn_eq_none ht
    have hclosures (hc : value'.isClosure = true) : d.closures = true :=
      (hv.isClosure_iff.1 hc).closures hvalue
    -- a value that was no closure literal may have become one, and then sees its own name
    have hsv : Surrounds d (valueScope name scope value) (valueScope name around value') := by
      rw [valueScope_eq, valueScope_eq]
      cases hc : value.isClosure with
      | true =>
        have hc' : value'.isClosure = true := by
          rw [hv.isClosure_iff]
          cases value with
          | closure l params body => exact .literal l params body s
          | _ => cases hc
        rw [hc']
        exact hs.cons name
      | false =>
        cases hc' : value'.isClosure with
        | true => exact hs.reveal (hclosures hc') name
        | false => exact hs
    exact refusal?_letIn_ne_some hclosures (refusal?_folds value hsv hvalue hno.2.1 hv)
      (refusal?_folds inner (hs.cons name) hinner hno.2.2 hi)
  | .cond line test yes no =>
    simp only [refusal?, Option.or_eq_none_iff, lacking?_eq_none] at ht
    obtain ⟨htruth, htest, hyes, hno'⟩ := ht
    obtain ⟨test', u, hf, ⟨v, truth, b, -, -, -, hb⟩ | ⟨-, yes', no', w, hy, hn, rfl⟩⟩ := hstep
    · cases b with
      | true => exact refusal?_folds yes hs hyes hno.2.2.1 hb
      | false => exact refusal?_folds no hs hno' hno.2.2.2 hb
    · refine or_ne_some (lacking?_ne_some htruth) (or_ne_some ?_ (or_ne_some ?_ ?_))
      · exact refusal?_folds test hs htest hno.2.1 hf
      · exact refusal?_folds yes hs hyes hno.2.2.1 hy
      · exact refusal?_folds no hs hno' hno.2.2.2 hn
  | .unary line op operand =>
    obtain ⟨operand', u, hf, ⟨v, o, w, -, -, -, rfl⟩ | ⟨-, -, rfl⟩⟩ := hstep
    · exact (Option.some_ne_none e).symm
    · cases ho : d.unary? op with
      | none => simp [refusal?, ho] at ht
      | some o =>
        simp only [refusal?, ho] at ht ⊢
        exact refusal?_folds operand hs ht hno.2 hf
  | .binary line op left right =>
    cases ho : d.operator? op with
    | none => simp [refusal?, ho] at ht
    | some o =>
      simp only [refusal?, ho, Option.or_eq_none_iff] at ht
      obtain ⟨left', right', u, w, hl, hr, hf | ⟨-, rfl⟩⟩ := hstep
      · obtain ⟨hn, -⟩ | ⟨p, b, t, hp, -, -, hsome, hj⟩ := foldBinary?_ok hf
        · cases hn
        · cases hsome
          have hsymbol : d.operator? p.symbol = some p := by
            rw [operator?_symbol hp]
            exact hp
          exact hj.refusal?_ne_some hsymbol (refusal?_folds left hs ht.1 hno.2.1 hl)
      · simp only [refusal?, ho]
        exact or_ne_some (refusal?_folds left hs ht.1 hno.2.1 hl)
          (refusal?_folds right hs ht.2 hno.2.2 hr)
  | .closure line params body =>
    rw [refusal?, Option.or_eq_none_iff, lacking?_eq_none] at ht
    obtain ⟨body', hb, rfl⟩ := hstep
    exact or_ne_some (lacking?_ne_some ht.1)
      (refusal?_folds body (hs.append params) ht.2 hno.2 hb)
  | .list line items =>
    rw [refusal?, Option.or_eq_none_iff, lacking?_eq_none] at ht
    obtain ⟨items', u, hi, ⟨vs, v, -, -, -, rfl⟩ | ⟨-, -, rfl⟩⟩ := hstep
    · exact (Option.some_ne_none e).symm
    · exact or_ne_some (lacking?_ne_some ht.1) (refusalAll?_folds items hs ht.2 hno.2 hi)
  | .index line source position =>
    simp only [refusal?, Option.or_eq_none_iff, lacking?_eq_none] at ht
    obtain ⟨source', position', u, hso, hp, rfl⟩ := hstep
    exact or_ne_some (lacking?_ne_some ht.1) (or_ne_some
      (refusal?_folds source hs ht.2.1 hno.2.1 hso) (refusal?_folds position hs ht.2.2 hno.2.2 hp))
  | .map line entries =>
    rw [refusal?, Option.or_eq_none_iff, lacking?_eq_none] at ht
    obtain ⟨entries', u, he, ⟨vs, v, -, -, -, rfl⟩ | ⟨-, -, rfl⟩⟩ := hstep
    · exact (Option.some_ne_none e).symm
    · exact or_ne_some (lacking?_ne_some ht.1) (refusalEntries?_folds entries hs ht.2 hno.2 he)
  | .field line record key =>
    rw [refusal?, Option.or_eq_none_iff, lacking?_eq_none] at ht
    obtain ⟨record', hr, rfl⟩ := hstep
    exact or_ne_some (lacking?_ne_some ht.1) (refusal?_folds record hs ht.2 hno.2 hr)
  | .call line callee args =>
    obtain ⟨hnode, hcallee, hargs⟩ := hno
    obtain ⟨args', u, ha, ⟨name, f, hst, ⟨vs, v, -, -, -, -, rfl⟩ | ⟨-, -, rfl⟩⟩ |
      ⟨hst, callee', hc, rfl⟩⟩ := hstep
    · exact (Option.some_ne_none e).symm
    · rw [refusal?, hst] at ht
      obtain ⟨hfit, hta⟩ := Option.or_eq_none_iff.1 ht
      have hrest := refusalAll?_folds args hs hta hargs ha
      obtain ⟨l, other, rfl⟩ := static?_eq_some hst
      obtain hsame | ⟨hnone, hclosures⟩ := hs.static? (.ident l other)
      · simp only [refusal?, hsame, hst, ha.length_eq, hfit]
        exact hrest
      · simp only [refusal?, hnone]
        exact or_ne_some (lacking?_ne_some hclosures) hrest
    · rw [refusal?, hst] at ht
      simp only [Option.or_eq_none_iff, lacking?_eq_none] at ht
      obtain ⟨hclosures, htc, hta⟩ := ht
      have hrest := refusalAll?_folds args hs hta hargs ha
      cases hst' : d.static? around callee' with
      | none =>
        simp only [refusal?, hst']
        exact or_ne_some (lacking?_ne_some hclosures)
          (or_ne_some (refusal?_folds callee hs htc hcallee hc) hrest)
      | some p =>
        obtain ⟨name, f⟩ := p
        obtain ⟨hcond, hmem, hf, l, rfl⟩ := refusal?_callee hs hc hst hst'
        simp only [refusal?, hst', ha.length_eq]
        refine or_ne_some (fun hmisfit => hnode ?_) hrest
        exact ⟨line, callee, args, scope, l, name, f, u, s', rfl, hcond, hc, hmem, hf, hmisfit⟩
  | .method line receiver name args =>
    simp only [refusal?, Option.or_eq_none_iff, lacking?_eq_none] at ht
    obtain ⟨receiver', args', u, hr, ha, rfl⟩ := hstep
    exact or_ne_some (lacking?_ne_some ht.1) (or_ne_some
      (refusal?_folds receiver hs ht.2.1 hno.2.1 hr)
      (refusalAll?_folds args hs ht.2.2 hno.2.2 ha))

theorem refusalAll?_folds {e : CompileError} (ts : List (Tree (Value H)))
    {scope around : List String} (hs : Surrounds d scope around)
    (ht : refusalAll? d ts scope = none)
    (hno : Tree.EveryItem (fun node => ¬ Exposes m d e node) ts) {s s' : Store H W}
    {ts' : List (Tree (Value H))} (h : FoldsAll m d scope ts s ts' s') :
    refusalAll? d ts' around ≠ some e := by
  match ts with
  | [] =>
    obtain ⟨-, rfl⟩ := h.nil
    exact (Option.some_ne_none e).symm
  | t :: rest =>
    obtain ⟨t', rest', u, hf, hrest, rfl⟩ := h.cons
    obtain ⟨ht, hts⟩ := Option.or_eq_none_iff.1 ht
    exact or_ne_some (refusal?_folds t hs ht hno.1 hf) (refusalAll?_folds rest hs hts hno.2 hrest)

theorem refusalEntries?_folds {e : CompileError} (es : List (String × Tree (Value H)))
    {scope around : List String} (hs : Surrounds d scope around)
    (ht : refusalEntries? d es scope = none)
    (hno : Tree.EveryEntry (fun node => ¬ Exposes m d e node) es) {s s' : Store H W}
    {es' : List (String × Tree (Value H))} (h : FoldsEntries m d scope es s es' s') :
    refusalEntries? d es' around ≠ some e := by
  match es with
  | [] =>
    obtain ⟨-, rfl⟩ := h.nil
    exact (Option.some_ne_none e).symm
  | (key, t) :: rest =>
    obtain ⟨t', rest', u, hf, hrest, rfl⟩ := h.cons
    obtain ⟨ht, hts⟩ := Option.or_eq_none_iff.1 ht
    exact or_ne_some (refusal?_folds t hs ht hno.1 hf)
      (refusalEntries?_folds rest hs hts hno.2 hrest)

end

/-- Folding keeps a tree compilable but for the calls it exposes. If a tree compiles and is folded,
then compiling the folded tree ends in code if it has no refusal, in its refusal if it has one, and
otherwise only as showing one of its callees does; and a refusal it has is that of a call of the
given tree whose callee is a conditional that folding has decided in favour of a function that does
not take so many arguments. -/
theorem optimize_refusal_exposed (hrules : d.rules = none) {t : Tree (Value H)} {c : Code H}
    {s s' r r' : Store H W} {f : Folded H} (hc : compile m d t [] s = .ok c s')
    (ho : Engine.optimize m d t r = .ok f r') :
    Settles (Unshown m f.tree) (refusal? d f.tree []) (compile m d f.tree []) ∧
    ∀ e, refusal? d f.tree [] = some e → ∃ node ∈ t.nodes, Exposes m d e node := by
  refine ⟨compile_settles hrules f.tree [] (every_shown m f.tree), fun e he => ?_⟩
  have hfold : Folds m d [] t r f.tree r' := ⟨f.kept, ho⟩
  refine Classical.byContradiction fun hnone => ?_
  have hno : t.Every fun node => ¬ Exposes m d e node :=
    (Tree.every_iff t).2 fun node hnode hexposes => hnone ⟨node, hnode, hexposes⟩
  exact refusal?_folds t (.refl d []) (refusal?_of_compiled hrules hc) hno hfold he

namespace Exposing

open Rebinding (machine start)

/-- The call of the given callee with two arguments, where `b` asks for it. -/
def guarded (callee : Tree (Value Empty)) : Tree (Value Empty) :=
  .cond ⟨1⟩ (.ident ⟨1⟩ "b")
    (.call ⟨2⟩ callee [.const ⟨2⟩ (.int 1), .const ⟨2⟩ (.int 2)])
    (.const ⟨3⟩ (.int 7))

/-- The root function, behind a conditional. -/
def chosen : Tree (Value Empty) :=
  .cond ⟨2⟩ (.const ⟨2⟩ (.bool true)) (.ident ⟨2⟩ "sqrt") (.const ⟨2⟩ (.int 0))

def refused : CompileError := ⟨.arityMismatch "sqrt" 1 2, ⟨2⟩⟩

/-- The code of the given tree: nothing in it looks at the number of arguments. -/
def code : Code Empty :=
  .cond ⟨1⟩ .strict (.var ⟨1⟩ "b" none)
    (.call ⟨2⟩ "if true then sqrt else 0"
      (.cond ⟨2⟩ .strict (.const (.bool true))
        (.var ⟨2⟩ "sqrt" (some (.closure (Dialect.standardFunction .sqrt)))) (.const (.int 0)))
      [.const (.int 1), .const (.int 2)])
    (.const (.int 7))

theorem compile_chosen :
    compile machine Dialect.standard (guarded chosen) [] start = .ok code start := by
  rfl

theorem optimize_chosen :
    Engine.optimize machine Dialect.standard (guarded chosen) start =
      .ok ⟨guarded (.ident ⟨2⟩ "sqrt"), false⟩ start := by
  rfl

theorem refusal?_chosen :
    refusal? Dialect.standard (guarded (.ident ⟨2⟩ "sqrt")) [] = some refused := by
  rfl

end Exposing

open Exposing Rebinding in
theorem optimize_refusal_exposed_chosen :
    (compile machine Dialect.standard (guarded Exposing.chosen) [] start = .ok code start ∧
      Engine.optimize machine Dialect.standard (guarded Exposing.chosen) start =
        .ok ⟨guarded (.ident ⟨2⟩ "sqrt"), false⟩ start) ∧
    Settles (Unshown machine (guarded (.ident ⟨2⟩ "sqrt"))) (some refused)
      (compile machine Dialect.standard (guarded (.ident ⟨2⟩ "sqrt")) []) ∧
    ∃ node ∈ (guarded Exposing.chosen).nodes, Exposes machine Dialect.standard refused node := by
  have h := optimize_refusal_exposed rfl compile_chosen Exposing.optimize_chosen
  exact ⟨⟨compile_chosen, Exposing.optimize_chosen⟩, h.1, h.2 refused refusal?_chosen⟩

open Exposing Rebinding in
/-- Folding can make a tree that compiles one that is refused, for a call that is never made. -/
theorem optimize_uncompilable :
    (¬ ∀ (t : Tree (Value Empty)) (c : Code Empty) (s s' r r' : Store Empty Unit) (f : Folded Empty),
      compile machine Dialect.standard t [] s = .ok c s' →
      Engine.optimize machine Dialect.standard t r = .ok f r' →
      ∃ c' u', compile machine Dialect.standard f.tree [] s = .ok c' u') ∧
    Evaluation.exec machine code (Scope.bindAll .empty [("b", .bool false)]) start =
      .ok (.int 7) start := by
  refine ⟨fun h => ?_, rfl⟩
  obtain ⟨c', u', hc⟩ := h _ _ _ _ _ _ _ compile_chosen Exposing.optimize_chosen
  have hnone := refusal?_of_compiled rfl hc
  rw [refusal?_chosen] at hnone
  cases hnone

end Folding

end Formula
