import Formula.Proofs.Compilation.Rules
import Formula.Proofs.Folding.Bindings
import Formula.Dialect.Standard

/-!
Folding of trees that depend on nothing but constants. Folding such a tree and evaluating its code
carry out the same operations in the same order on the same store: they end in the same value, or
in the same fault, which folding reports as the source of its own.
-/
namespace Formula

/-- The fault of an evaluation that a fault of folding tells of: the one of the callback that was
run, at the line of the operation unless it has its own, or that of a condition. -/
def FoldError.reported? : FoldError → Option EvalError
  | ⟨.operator _ source, line⟩ => some (source.atLine line)
  | ⟨.unary _ source, line⟩ => some (source.atLine line)
  | ⟨.call _ source, line⟩ => some (source.atLine line)
  | ⟨.notABool value, line⟩ => some ⟨.notABool value, line⟩
  | ⟨.arityMismatch .., _⟩ => none

namespace Folding

open Compilation (compile compileAll compileEntries)
open Evaluation (exec execAll execEntries)

variable {H W : Type} {m : Machine H W} {d : Dialect H} {env : Env H}

mutual

/-- Trees of constants, names of constants that the scope does not bind, and operations, literals
and calls by name that can be carried out ahead of time. -/
def Constant (d : Dialect H) (env : Env H) : Tree (Value H) → Prop
  | .const .. => True
  | .ident _ name => (d.constant? name).isSome = true ∧ env.find? name = none
  | .cond _ test yes no => Constant d env test ∧ Constant d env yes ∧ Constant d env no
  | .unary _ op operand => (d.unary? op).isSome = true ∧ Constant d env operand
  | .binary _ op left right => (∃ o, d.operator? op = some o ∧ o.isPure = true) ∧
      Constant d env left ∧ Constant d env right
  | .list _ items => ConstantAll d env items
  | .map _ entries => ConstantEntries d env entries
  | .call _ callee args => (∃ line name f, callee = .ident line name ∧
      d.function? name = some f ∧ f.isPure = true ∧ f.arity.accepts args.length = true) ∧
      ConstantAll d env args
  | _ => False

def ConstantAll (d : Dialect H) (env : Env H) : List (Tree (Value H)) → Prop
  | [] => True
  | t :: rest => Constant d env t ∧ ConstantAll d env rest

def ConstantEntries (d : Dialect H) (env : Env H) : List (String × Tree (Value H)) → Prop
  | [] => True
  | (_, t) :: rest => Constant d env t ∧ ConstantEntries d env rest

end

/-- A node that the host does not compile by itself. -/
def Declined (d : Dialect H) : Tree (Value H) → Prop
  | .ident _ name => d.rules.bind (·.ident name) = none
  | .unary _ op _ => d.rules.any (·.pairs op) = false
  | _ => True

variable {ε α β γ δ : Type}

/-- Related values in the same store, or the same way to stop there: a fault of an evaluation and
a fault of folding that tells of it. -/
inductive Mirrored (R : α → β → Prop) :
    EStateM.Result (Stop FoldError) (Store H W) α → EStateM.Result (Stop EvalError) (Store H W) β →
      Prop
  | ok {a : α} {b : β} (h : R a b) (s : Store H W) : Mirrored R (.ok a s) (.ok b s)
  | fault {e : FoldError} {e' : EvalError} (h : e.reported? = some e') (s : Store H W) :
    Mirrored R (.error (.fault e) s) (.error (.fault e') s)
  | panic (message : String) (s : Store H W) :
    Mirrored R (.error (.panic message) s) (.error (.panic message) s)
  | exhausted (s : Store H W) : Mirrored R (.error .exhausted s) (.error .exhausted s)

def Mirrors (R : α → β → Prop) (x : Run H W FoldError α) (y : Run H W EvalError β) : Prop :=
  ∀ s, Mirrored R (x s) (y s)

theorem Mirrors.pure {R : α → β → Prop} {a : α} {b : β} (h : R a b) :
    Mirrors R (pure a : Run H W FoldError α) (pure b : Run H W EvalError β) :=
  fun s => .ok h s

theorem Mirrors.bind {R : α → β → Prop} {S : γ → δ → Prop} {x : Run H W FoldError α}
    {y : Run H W EvalError β} {f : α → Run H W FoldError γ} {g : β → Run H W EvalError δ}
    (hx : Mirrors R x y) (hf : ∀ a b, R a b → Mirrors S (f a) (g b)) :
    Mirrors S (x >>= f) (y >>= g) := by
  intro s
  have hs := hx s
  change Mirrored S (EStateM.bind x f s) (EStateM.bind y g s)
  unfold EStateM.bind
  generalize x s = first, y s = second at hs
  cases hs with
  | ok h u => exact hf _ _ h u
  | fault h u => exact .fault h u
  | panic message u => exact .panic message u
  | exhausted u => exact .exhausted u

/-- What is only done to the result of folding. -/
theorem Mirrors.map {R : α → β → Prop} {S : γ → β → Prop} {x : Run H W FoldError α}
    {y : Run H W EvalError β} {f : α → γ} (hx : Mirrors R x y) (hf : ∀ a b, R a b → S (f a) b) :
    Mirrors S (x >>= fun a => Pure.pure (f a)) y := by
  rw [← bind_pure y]
  exact hx.bind fun a b h => .pure (hf a b h)

/-- A callback that is run on both sides, its fault wrapped here and given a line there. -/
theorem mirrors_callback {x : Run H W EvalError α} {wrap : EvalError → FoldError} {line : Line}
    (h : ∀ e, (wrap e).reported? = some (e.atLine line)) :
    Mirrors Eq (x.mapFault wrap) (x.atLine line) := by
  intro s
  simp only [Run.atLine, Run.mapFault]
  cases x s with
  | ok a u => exact .ok rfl u
  | error stop u =>
    cases stop with
    | fault e => exact .fault (h e) u
    | panic message => exact .panic message u
    | exhausted => exact .exhausted u

theorem mirrors_lift (x : Run H W Empty α) :
    Mirrors Eq (x.lift : Run H W FoldError α) (x.lift : Run H W EvalError α) := by
  intro s
  simp only [Run.lift, Run.mapFault]
  cases x s with
  | ok a u => exact .ok rfl u
  | error stop u =>
    cases stop with
    | fault e => exact e.elim
    | panic message => exact .panic message u
    | exhausted => exact .exhausted u

/-- The folded tree is the constant. -/
def Holds (f : Folded H) (v : Value H) : Prop := ∃ line, f.tree = .const line v

theorem holds_const (line : Line) (v : Value H) (kept : Bool) : Holds ⟨.const line v, kept⟩ v :=
  ⟨line, rfl⟩

theorem Holds.const? {f : Folded H} {v : Value H} (h : Holds f v) : f.tree.const? = some v := by
  obtain ⟨line, hf⟩ := h
  rw [hf]
  rfl

/-- What folding and compiling make of a constant tree. -/
def Settled (m : Machine H W) (d : Dialect H) (env : Env H) (t : Tree (Value H)) : Prop :=
  ∃ c, compile m d t [] = pure c ∧ Mirrors Holds (fold m d t []) (exec m c env)

def SettledAll (m : Machine H W) (d : Dialect H) (env : Env H) (ts : List (Tree (Value H))) :
    Prop :=
  ∃ cs, compileAll m d ts [] = pure cs ∧
    Mirrors (fun fs vs => fs.length = ts.length ∧ constants? fs = some vs) (foldAll m d ts [])
      (execAll m cs env)

def SettledEntries (m : Machine H W) (d : Dialect H) (env : Env H)
    (es : List (String × Tree (Value H))) : Prop :=
  ∃ cs, compileEntries m d es [] = pure cs ∧
    Mirrors (fun fs vs => entryConstants? fs = some vs) (foldEntries m d es [])
      (execEntries m cs env)

variable {line : Line}

theorem settled_cond {truth : Truth H} (htruth : d.truth = some truth)
    {test yes no : Tree (Value H)} (ht : Settled m d env test) (hy : Settled m d env yes) (hn : Settled m d env no) :
    Settled m d env (.cond line test yes no) := by
  obtain ⟨test', hct, hmt⟩ := ht
  obtain ⟨yes', hcy, hmy⟩ := hy
  obtain ⟨no', hcn, hmn⟩ := hn
  refine ⟨.cond line truth test' yes' no', ?_, hmt.bind fun f v hf => ?_⟩
  · simp only [compile, htruth, hct, hcy, hcn, pure_bind]
  · simp only [hf.const?, htruth]
    cases truth.read m.host v with
    | none => exact (mirrors_lift (v.inspect m)).bind fun _ text htext s => htext ▸ .fault rfl s
    | some b =>
      cases b with
      | true => exact hmy.map fun _ _ hg => hg
      | false => exact hmn.map fun _ _ hg => hg

theorem settled_unary {op : String} {o : UnaryOperator H} (ho : d.unary? op = some o)
    (hrule : d.rules.any (·.pairs op) = false) {operand : Tree (Value H)}
    (h : Settled m d env operand) : Settled m d env (.unary line op operand) := by
  obtain ⟨operand', hc, hm⟩ := h
  refine ⟨.unary line o.callback operand', ?_, hm.bind fun f v hf => ?_⟩
  · simp only [compile, hrule, Bool.false_eq_true, if_false, ho, hc, pure_bind]
  · simp only [hf.const?, ho]
    refine (mirrors_callback fun _ => rfl).map fun a b hab => ?_
    exact hab ▸ holds_const line a false

theorem settled_binary {op : String} {o : Operator H} (ho : d.operator? op = some o)
    (hpure : o.isPure = true) {left right : Tree (Value H)} (hl : Settled m d env left)
    (hr : Settled m d env right) : Settled m d env (.binary line op left right) := by
  obtain ⟨left', hcl, hml⟩ := hl
  obtain ⟨right', hcr, hmr⟩ := hr
  refine ⟨.binary line o.callback left' right', ?_, hml.bind fun f a hf => ?_⟩
  · simp only [compile, ho, hcl, hcr, pure_bind]
  · refine hmr.bind fun g b hg => ?_
    obtain ⟨l, hf⟩ := hf
    simp only [foldBinary?, ho, hg.const?, hpure, if_true, hf, combine, applyBinary, bind_assoc,
      pure_bind]
    refine (mirrors_callback fun _ => rfl).map fun a b hab => ?_
    exact hab ▸ holds_const line a false

theorem settled_list (hlists : d.lists = true) {items : List (Tree (Value H))}
    (h : SettledAll m d env items) : Settled m d env (.list line items) := by
  obtain ⟨items', hc, hm⟩ := h
  refine ⟨.list items', ?_, hm.bind fun fs vs hfs => ?_⟩
  · simp only [compile, Compilation.require, hlists, if_true, hc, pure_bind]
  · simp only [hlists, if_true, hfs.2]
    exact fun s => .ok (holds_const line _ false) _

theorem settled_map (hmaps : d.maps = true) {entries : List (String × Tree (Value H))}
    (h : SettledEntries m d env entries) : Settled m d env (.map line entries) := by
  obtain ⟨entries', hc, hm⟩ := h
  refine ⟨.map entries', ?_, hm.bind fun fs vs hfs => ?_⟩
  · simp only [compile, Compilation.require, hmaps, if_true, hc, pure_bind]
  · simp only [hmaps, if_true, hfs]
    exact fun s => .ok (holds_const line _ false) _

theorem settled_call {l : Line} {name : String} {f : Function H} {args : List (Tree (Value H))}
    (hf : d.function? name = some f) (hpure : f.isPure = true)
    (haccepts : f.arity.accepts args.length = true) (h : SettledAll m d env args) :
    Settled m d env (.call line (.ident l name) args) := by
  obtain ⟨args', hc, hm⟩ := h
  have hstatic : d.static? [] (.ident l name) = some (name, f) := by
    simp [Dialect.static?, hf]
  refine ⟨.callStatic line f args', ?_, hm.bind fun fs vs hfs => ?_⟩
  · simp only [compile, hstatic, haccepts, if_true, hc, pure_bind]
  · obtain ⟨hlength, hconstants⟩ := hfs
    simp only [hstatic, foldCall?, hpure, hlength, haccepts, hconstants, Bool.not_true,
      Bool.false_eq_true, if_false, map_eq_pure_bind, bind_assoc, pure_bind]
    refine (mirrors_callback fun _ => rfl).map fun a b hab => ?_
    exact hab ▸ holds_const _ a false

mutual

theorem settled {truth : Truth H} (htruth : d.truth = some truth) (hlists : d.lists = true)
    (hmaps : d.maps = true) (t : Tree (Value H)) (ht : Constant d env t)
    (hd : t.Every (Declined d)) : Settled m d env t := by
  match t with
  | .const line v => exact ⟨.const v, rfl, .pure (holds_const line v true)⟩
  | .ident line name =>
    obtain ⟨hconstant, hfree⟩ := ht
    obtain ⟨v, hv⟩ := Option.isSome_iff_exists.1 hconstant
    have hrule : d.rules.bind (·.ident name) = none := hd
    refine ⟨.var line name (some v), ?_, ?_⟩
    · simp only [compile, hrule, Compilation.fallback?, List.contains_nil, Bool.false_eq_true,
        if_false, hv]
    · simp only [fold, List.contains_nil, Bool.false_eq_true, if_false, hv, exec,
        Evaluation.lookup, hfree]
      exact .pure (holds_const line v false)
  | .cond line test yes no =>
    exact settled_cond htruth (settled htruth hlists hmaps test ht.1 hd.2.1)
      (settled htruth hlists hmaps yes ht.2.1 hd.2.2.1)
      (settled htruth hlists hmaps no ht.2.2 hd.2.2.2)
  | .unary line op operand =>
    obtain ⟨o, ho⟩ := Option.isSome_iff_exists.1 ht.1
    exact settled_unary ho hd.1 (settled htruth hlists hmaps operand ht.2 hd.2)
  | .binary line op left right =>
    obtain ⟨⟨o, ho, hpure⟩, hl, hr⟩ := ht
    exact settled_binary ho hpure (settled htruth hlists hmaps left hl hd.2.1)
      (settled htruth hlists hmaps right hr hd.2.2)
  | .list line items => exact settled_list hlists (settledAll htruth hlists hmaps items ht hd.2)
  | .map line entries =>
    exact settled_map hmaps (settledEntries htruth hlists hmaps entries ht hd.2)
  | .call line callee args =>
    obtain ⟨⟨l, name, f, rfl, hf, hpure, haccepts⟩, hargs⟩ := ht
    exact settled_call hf hpure haccepts (settledAll htruth hlists hmaps args hargs hd.2.2)
  | .letIn .. | .closure .. | .index .. | .field .. | .method .. => exact ht.elim

theorem settledAll {truth : Truth H} (htruth : d.truth = some truth) (hlists : d.lists = true)
    (hmaps : d.maps = true) (ts : List (Tree (Value H))) (ht : ConstantAll d env ts)
    (hd : Tree.EveryItem (Declined d) ts) : SettledAll m d env ts := by
  match ts with
  | [] => exact ⟨[], rfl, .pure ⟨rfl, rfl⟩⟩
  | t :: rest =>
    obtain ⟨c, hc, hm⟩ := settled htruth hlists hmaps t ht.1 hd.1
    obtain ⟨cs, hcs, hms⟩ := settledAll htruth hlists hmaps rest ht.2 hd.2
    refine ⟨c :: cs, ?_, hm.bind fun f v hf => ?_⟩
    · simp only [compileAll, hc, hcs, pure_bind]
    · refine hms.bind fun fs vs hfs => .pure ⟨?_, ?_⟩
      · rw [List.length_cons, List.length_cons, hfs.1]
      · simp [constants?, List.mapM_cons, hf.const?, show fs.mapM _ = some vs from hfs.2]

theorem settledEntries {truth : Truth H} (htruth : d.truth = some truth) (hlists : d.lists = true)
    (hmaps : d.maps = true) (es : List (String × Tree (Value H))) (ht : ConstantEntries d env es)
    (hd : Tree.EveryEntry (Declined d) es) : SettledEntries m d env es := by
  match es with
  | [] => exact ⟨[], rfl, .pure rfl⟩
  | (key, t) :: rest =>
    obtain ⟨c, hc, hm⟩ := settled htruth hlists hmaps t ht.1 hd.1
    obtain ⟨cs, hcs, hms⟩ := settledEntries htruth hlists hmaps rest ht.2 hd.2
    refine ⟨(key, c) :: cs, ?_, hm.bind fun f v hf => ?_⟩
    · simp only [compileEntries, hc, hcs, pure_bind]
    · refine hms.bind fun fs vs hfs => .pure ?_
      simp [entryConstants?, List.mapM_cons, hf.const?, show fs.mapM _ = some vs from hfs]

end

/-- A tree of constants, none of whose nodes the host compiles by itself, is folded to a single
constant just if evaluating it, where its names are not bound, gives this value. Folding ends in a
fault just if that evaluation does, and tells of the same fault; where the host panics, so do
both. -/
theorem optimize_constant_exact (htruth : d.truth.isSome = true) (hlists : d.lists = true)
    (hmaps : d.maps = true) {t : Tree (Value H)} (ht : Constant d env t)
    (hd : t.Every (Declined d)) (s : Store H W) :
    ∃ c, compile m d t [] s = .ok c s ∧
      (∀ v s', Engine.eval m ⟨t, c⟩ env s = .ok v s' ↔
        ∃ line kept, Engine.optimize m d t s = .ok ⟨.const line v, kept⟩ s') ∧
      (∀ e s', Engine.eval m ⟨t, c⟩ env s = .error (.fault (.eval e)) s' ↔
        (∃ e₀, Engine.optimize m d t s = .error (.fault e₀) s' ∧ e₀.reported? = some e) ∨
        ∃ message, Engine.optimize m d t s = .error (.panic message) s' ∧
          e = ⟨.panic message, .unknown⟩) ∧
      (∀ f s', Engine.optimize m d t s = .ok f s' → ∃ line v, f.tree = .const line v) ∧
      (∀ e₀ s', Engine.optimize m d t s = .error (.fault e₀) s' → ∃ e, e₀.reported? = some e) := by
  obtain ⟨truth, htruth⟩ := Option.isSome_iff_exists.1 htruth
  obtain ⟨c, hc, hm⟩ := settled (m := m) htruth hlists hmaps t ht hd
  refine ⟨c, by rw [hc]; rfl, ?_⟩
  have hs := hm s
  simp only [Engine.optimize, Engine.eval, Engine.guarded, Run.catchPanic, Run.mapFault]
  generalize fold m d t [] s = folded, exec m c env s = result at hs ⊢
  cases hs with
  | @ok f v hv u =>
    obtain ⟨tree, kept⟩ := f
    obtain ⟨line, rfl⟩ := hv
    simp
  | @fault e₀ e he u =>
    refine ⟨by simp, fun e' s' => ⟨?_, ?_⟩, by simp, by simp [he]⟩
    · intro h
      cases h
      exact .inl ⟨e₀, rfl, he⟩
    · rintro (⟨e₁, h, he'⟩ | ⟨message, h, -⟩)
      · cases h
        cases he.symm.trans he'
        rfl
      · cases h
  | panic message u =>
    refine ⟨by simp, fun e s' => ⟨?_, ?_⟩, by simp, by simp⟩
    · intro h
      cases h
      exact .inr ⟨message, rfl, rfl⟩
    · rintro (⟨e₁, h, -⟩ | ⟨other, h, rfl⟩)
      · cases h
      · cases h
        rfl
  | exhausted u => simp

namespace Constants

open Rebinding (machine start)

/-- A map of a list of computed items and of the branch that a condition picks. -/
def tree : Tree (Value Empty) :=
  .map ⟨1⟩ [
    ("items", .list ⟨2⟩ [
      .binary ⟨2⟩ "+" (.const ⟨2⟩ (.int 1))
        (.binary ⟨2⟩ "*" (.const ⟨2⟩ (.int 2)) (.const ⟨2⟩ (.int 3))),
      .unary ⟨2⟩ "-" (.ident ⟨2⟩ "pi")]),
    ("chosen", .cond ⟨3⟩ (.ident ⟨3⟩ "true")
      (.call ⟨3⟩ (.ident ⟨3⟩ "max") [.const ⟨3⟩ (.int 4), .const ⟨3⟩ (.int 7)])
      (.unary ⟨4⟩ "!" (.const ⟨4⟩ (.str "text"))))]

theorem constant_tree : Constant Dialect.standard .empty tree := by
  refine ⟨⟨⟨⟨_, rfl, rfl⟩, trivial, ⟨_, rfl, rfl⟩, trivial, trivial⟩, ⟨rfl, rfl, rfl⟩, trivial⟩, ?_⟩
  refine ⟨⟨⟨rfl, rfl⟩, ⟨⟨_, _, _, rfl, rfl, rfl, rfl⟩, trivial, trivial, trivial⟩, rfl, trivial⟩, ?_⟩
  trivial

theorem declined_tree : tree.Every (Declined Dialect.standard) := by
  simp [tree, Tree.Every, Tree.EveryItem, Tree.EveryEntry, Declined, Dialect.standard]

/-- A host that compiles the name of a constant by itself. -/
def overruled : Dialect Empty where
  constants := [("answer", .int 1)]
  truth := some .strict
  lists := true
  maps := true
  rules := some {
    ident := fun name => if name = "answer" then some (.constant (.int 42)) else none
    pairs := fun _ => false }

end Constants

open Constants Rebinding in
theorem optimize_constant_exact_tree :
    (Constant Dialect.standard .empty tree ∧ tree.Every (Declined Dialect.standard)) ∧
    ∃ c, compile machine Dialect.standard tree [] start = .ok c start ∧
      ∀ v s', Engine.eval machine ⟨tree, c⟩ .empty start = .ok v s' ↔
        ∃ line kept, Engine.optimize machine Dialect.standard tree start =
          .ok ⟨.const line v, kept⟩ s' := by
  obtain ⟨c, hc, hv, -⟩ :=
    optimize_constant_exact (m := machine) rfl rfl rfl constant_tree declined_tree start
  exact ⟨⟨constant_tree, declined_tree⟩, c, hc, hv⟩

open Constants Rebinding in
/-- What the host compiles by itself, folding does not ask it for. -/
theorem optimize_constant_overruled :
    ¬ ∀ (d : Dialect Empty) (t : Tree (Value Empty)) (c : Code Empty) (s s' : Store Empty Unit),
      d.truth.isSome = true → d.lists = true → d.maps = true → Constant d .empty t →
      compile machine d t [] s = .ok c s' →
      ∀ v s', Engine.eval machine ⟨t, c⟩ .empty s = .ok v s' ↔
        ∃ line kept, Engine.optimize machine d t s = .ok ⟨.const line v, kept⟩ s' := by
  intro h
  have hv := h overruled (.ident ⟨1⟩ "answer") (.const (.int 42)) start start rfl rfl rfl
    ⟨rfl, rfl⟩ rfl (.int 42) start
  obtain ⟨line, kept, hf⟩ := hv.1 rfl
  cases hf

end Folding

end Formula
