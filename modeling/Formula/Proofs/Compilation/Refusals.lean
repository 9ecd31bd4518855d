import Formula.Proofs.Compilation.Rules

/-!
What compilation refuses. Whether a tree can be compiled depends on the tree, the dialect and the
names bound around it, and on nothing else: `refusal?` finds the first node that is refused,
without making any code. Compiling ends in exactly this refusal, or in code if there is none. The
only other end is that of showing a callee, which runs the lists in its constants.
-/
namespace Formula

variable {H W : Type}

namespace Tree

variable {V : Type}

mutual

/-- All nodes of a tree, a node before those below it. -/
def nodes : Tree V → List (Tree V)
  | .ident line name => [.ident line name]
  | .const line v => [.const line v]
  | .letIn line name value inner =>
    .letIn line name value inner :: (nodes value ++ nodes inner)
  | .cond line test yes no => .cond line test yes no :: (nodes test ++ (nodes yes ++ nodes no))
  | .unary line op operand => .unary line op operand :: nodes operand
  | .binary line op left right => .binary line op left right :: (nodes left ++ nodes right)
  | .closure line params body => .closure line params body :: nodes body
  | .list line items => .list line items :: nodesAll items
  | .index line source position => .index line source position :: (nodes source ++ nodes position)
  | .map line entries => .map line entries :: nodesEntries entries
  | .field line record key => .field line record key :: nodes record
  | .call line callee args => .call line callee args :: (nodes callee ++ nodesAll args)
  | .method line receiver name args =>
    .method line receiver name args :: (nodes receiver ++ nodesAll args)

def nodesAll : List (Tree V) → List (Tree V)
  | [] => []
  | t :: rest => nodes t ++ nodesAll rest

def nodesEntries : List (String × Tree V) → List (Tree V)
  | [] => []
  | (_, t) :: rest => nodes t ++ nodesEntries rest

end

mutual

theorem every_iff {P : Tree V → Prop} (t : Tree V) : t.Every P ↔ ∀ node ∈ t.nodes, P node := by
  match t with
  | .ident .. => simp [Every, nodes]
  | .const .. => simp [Every, nodes]
  | .letIn _ _ value inner =>
    simp [Every, nodes, every_iff value, every_iff inner, or_imp, forall_and]
  | .cond _ test yes no =>
    simp [Every, nodes, every_iff test, every_iff yes, every_iff no, or_imp, forall_and]
  | .unary _ _ operand => simp [Every, nodes, every_iff operand]
  | .binary _ _ left right =>
    simp [Every, nodes, every_iff left, every_iff right, or_imp, forall_and]
  | .closure _ _ body => simp [Every, nodes, every_iff body]
  | .list _ items => simp [Every, nodes, everyItem_iff items]
  | .index _ source position =>
    simp [Every, nodes, every_iff source, every_iff position, or_imp, forall_and]
  | .map _ entries => simp [Every, nodes, everyEntry_iff entries]
  | .field _ record _ => simp [Every, nodes, every_iff record]
  | .call _ callee args =>
    simp [Every, nodes, every_iff callee, everyItem_iff args, or_imp, forall_and]
  | .method _ receiver _ args =>
    simp [Every, nodes, every_iff receiver, everyItem_iff args, or_imp, forall_and]

theorem everyItem_iff {P : Tree V → Prop} (ts : List (Tree V)) :
    EveryItem P ts ↔ ∀ node ∈ nodesAll ts, P node := by
  match ts with
  | [] => simp [EveryItem, nodesAll]
  | t :: rest =>
    simp [EveryItem, nodesAll, every_iff t, everyItem_iff rest, or_imp, forall_and]

theorem everyEntry_iff {P : Tree V → Prop} (es : List (String × Tree V)) :
    EveryEntry P es ↔ ∀ node ∈ nodesEntries es, P node := by
  match es with
  | [] => simp [EveryEntry, nodesEntries]
  | (_, t) :: rest =>
    simp [EveryEntry, nodesEntries, every_iff t, everyEntry_iff rest, or_imp, forall_and]

end

end Tree

namespace Compilation

variable {m : Machine H W} {d : Dialect H} {α β : Type}

/-- The refusal of a node whose capability is missing. -/
def lacking? (present : Bool) (line : Line) (node capability : String) : Option CompileError :=
  if present then none else some ⟨.missingCapability node capability, line⟩

/-- The refusal of a call of a registered function with a number of arguments it does not take. -/
def misfit? (f : Function H) (line : Line) (name : String) (args : Nat) : Option CompileError :=
  if f.arity.accepts args then none
  else some ⟨.arityMismatch name (f.arity.fixed?.getD 0) args, line⟩

mutual

/-- The first refusal of a tree below some bound names. -/
def refusal? (d : Dialect H) : Tree (Value H) → List String → Option CompileError
  | .ident .., _ => none
  | .const .., _ => none
  | .letIn line name (.closure _ params body) inner, scope =>
    (lacking? d.closures line "let" "closure handler").or
      ((refusal? d body (params ++ name :: scope)).or (refusal? d inner (name :: scope)))
  | .letIn _ name value inner, scope =>
    (refusal? d value scope).or (refusal? d inner (name :: scope))
  | .cond line test yes no, scope =>
    (lacking? d.truth.isSome line "if" "boolean coercion").or
      ((refusal? d test scope).or ((refusal? d yes scope).or (refusal? d no scope)))
  | .unary line op operand, scope =>
    match d.unary? op with
    | none => some ⟨.unknownUnary op, line⟩
    | some _ => refusal? d operand scope
  | .binary line op left right, scope =>
    match d.operator? op with
    | none => some ⟨.unknownOperator op, line⟩
    | some _ => (refusal? d left scope).or (refusal? d right scope)
  | .closure line params body, scope =>
    (lacking? d.closures line "closure" "closure handler").or (refusal? d body (params ++ scope))
  | .list line items, scope =>
    (lacking? d.lists line "list literal" "list handler").or (refusalAll? d items scope)
  | .index line source position, scope =>
    (lacking? d.lists line "list access" "list handler").or
      ((refusal? d source scope).or (refusal? d position scope))
  | .map line entries, scope =>
    (lacking? d.maps line "map literal" "map handler").or (refusalEntries? d entries scope)
  | .field line record _, scope =>
    (lacking? d.maps line "map access" "map handler").or (refusal? d record scope)
  | .call line callee args, scope =>
    match d.static? scope callee with
    | some (name, f) => (misfit? f line name args.length).or (refusalAll? d args scope)
    | none =>
      (lacking? d.closures line "function call" "closure handler").or
        ((refusal? d callee scope).or (refusalAll? d args scope))
  | .method line receiver _ args, scope =>
    (lacking? (d.maps && d.closures || d.methods) line "method call" "method handler").or
      ((refusal? d receiver scope).or (refusalAll? d args scope))

def refusalAll? (d : Dialect H) : List (Tree (Value H)) → List String → Option CompileError
  | [], _ => none
  | t :: rest, scope => (refusal? d t scope).or (refusalAll? d rest scope)

def refusalEntries? (d : Dialect H) : List (String × Tree (Value H)) → List String →
    Option CompileError
  | [], _ => none
  | (_, t) :: rest, scope => (refusal? d t scope).or (refusalEntries? d rest scope)

end

/-- The computation ends in a value if there is no refusal and in the refusal if there is one,
unless it stops in an allowed way. -/
def Settles (P : Stop Empty → Prop) (refusal : Option CompileError) (x : Run H W CompileError α) :
    Prop :=
  ∀ s, match x s with
    | .ok _ _ => refusal = none
    | .error (.fault e) _ => refusal = some e
    | .error (.panic message) _ => P (.panic message)
    | .error .exhausted _ => P .exhausted

variable {P : Stop Empty → Prop} {r r' : Option CompileError}

theorem Settles.pure (a : α) : Settles P none (pure a : Run H W CompileError α) := fun _ => rfl

theorem Settles.fault (e : CompileError) : Settles P (some e) (Run.fault e : Run H W _ α) :=
  fun _ => rfl

theorem Settles.bind {x : Run H W CompileError α} {f : α → Run H W CompileError β}
    (hx : Settles P r x) (hf : ∀ a, Settles P r' (f a)) : Settles P (r.or r') (x >>= f) := by
  intro s
  have hs := hx s
  cases h : x s with
  | ok a u =>
    rw [h] at hs
    rw [Run.bind_apply_ok h, show r = none from hs, Option.none_or]
    exact hf a u
  | error stop u =>
    rw [h] at hs
    rw [Run.bind_apply_error h]
    cases stop with
    | fault e => rw [show r = some e from hs]; rfl
    | panic message => exact hs
    | exhausted => exact hs

/-- What is done after the last check refuses nothing. -/
theorem Settles.map {x : Run H W CompileError α} {f : α → Run H W CompileError β}
    (hx : Settles P r x) (hf : ∀ a, Settles P none (f a)) : Settles P r (x >>= f) := by
  have h := hx.bind hf
  rwa [Option.or_none] at h

theorem settles_require (present : Bool) (line : Line) (node capability : String) :
    Settles P (lacking? present line node capability)
      (require present line node capability : Run H W CompileError Unit) := by
  cases present with
  | true => exact .pure ()
  | false => exact .fault _

theorem settles_newSlot? (d : Dialect H) (params : List String) (body : Tree (Value H)) :
    Settles P none (newSlot? d params body : Run H W CompileError (Option SlotRef)) := by
  unfold newSlot?
  cases d.marshal with
  | none => exact .pure none
  | some marshal => exact fun _ => rfl

/-- Showing the callee of the node, if it is a call, stops in an allowed way if at all. -/
def Shown (m : Machine H W) (P : Stop Empty → Prop) (node : Tree (Value H)) : Prop :=
  ∀ line callee args, node = .call line callee args →
    ∀ s stop s', callee.text m s = .error stop s' → P stop

theorem settles_text {callee : Tree (Value H)}
    (h : ∀ s stop s', callee.text m s = .error stop s' → P stop) :
    Settles P none ((callee.text m).lift : Run H W CompileError String) := by
  intro s
  simp only [Run.lift, Run.mapFault]
  cases ht : callee.text m s with
  | ok text u => trivial
  | error stop u =>
    cases stop with
    | fault e => exact e.elim
    | panic message => exact h s _ u ht
    | exhausted => exact h s _ u ht

mutual

/-- Compiling refuses what `refusal?` finds, and nothing else. -/
theorem compile_settles (hrules : d.rules = none) (t : Tree (Value H)) (scope : List String)
    (hshown : t.Every (Shown m P)) : Settles P (refusal? d t scope) (compile m d t scope) := by
  match t with
  | .ident line name =>
    simp only [compile, hrules, Option.bind, refusal?]
    exact .pure _
  | .const line v => exact .pure _
  | .letIn line name value inner =>
    obtain ⟨-, hvalue, hinner⟩ := hshown
    have hi := compile_settles hrules inner (name :: scope) hinner
    match value with
    | .closure l params body =>
      have hb := compile_settles hrules body (params ++ name :: scope) hvalue.2
      refine (settles_require _ _ _ _).bind fun _ => ?_
      refine hb.bind fun _ => ?_
      exact (settles_newSlot? d params body).bind fun _ => hi.map fun _ => .pure _
    | .ident .. | .const .. | .letIn .. | .cond .. | .unary .. | .binary .. | .list .. | .index ..
    | .map .. | .field .. | .call .. | .method .. =>
      exact (compile_settles hrules _ scope hvalue).bind fun _ => hi.map fun _ => .pure _
  | .cond line test yes no =>
    obtain ⟨-, htest, hyes, hno⟩ := hshown
    simp only [compile, refusal?]
    cases d.truth with
    | none => exact .fault _
    | some truth =>
      refine (compile_settles hrules test scope htest).bind fun _ => ?_
      refine (compile_settles hrules yes scope hyes).bind fun _ => ?_
      exact (compile_settles hrules no scope hno).map fun _ => .pure _
  | .unary line op operand =>
    simp only [compile, hrules, Option.any, Bool.false_eq_true, if_false, refusal?]
    cases d.unary? op with
    | none => exact .fault _
    | some o => exact (compile_settles hrules operand scope hshown.2).map fun _ => .pure _
  | .binary line op left right =>
    obtain ⟨-, hleft, hright⟩ := hshown
    simp only [compile, refusal?]
    cases d.operator? op with
    | none => exact .fault _
    | some o =>
      refine (compile_settles hrules left scope hleft).bind fun _ => ?_
      exact (compile_settles hrules right scope hright).map fun _ => .pure _
  | .closure line params body =>
    refine (settles_require _ _ _ _).bind fun _ => ?_
    refine (compile_settles hrules body (params ++ scope) hshown.2).map fun _ => ?_
    exact (settles_newSlot? d params body).map fun _ => .pure _
  | .list line items =>
    refine (settles_require _ _ _ _).bind fun _ => ?_
    exact (compileAll_settles hrules items scope hshown.2).map fun _ => .pure _
  | .index line source position =>
    obtain ⟨-, hsource, hposition⟩ := hshown
    refine (settles_require _ _ _ _).bind fun _ => ?_
    refine (compile_settles hrules source scope hsource).bind fun _ => ?_
    exact (compile_settles hrules position scope hposition).map fun _ => .pure _
  | .map line entries =>
    refine (settles_require _ _ _ _).bind fun _ => ?_
    exact (compileEntries_settles hrules entries scope hshown.2).map fun _ => .pure _
  | .field line record key =>
    refine (settles_require _ _ _ _).bind fun _ => ?_
    exact (compile_settles hrules record scope hshown.2).map fun _ => .pure _
  | .call line callee args =>
    obtain ⟨hnode, hcallee, hargs⟩ := hshown
    have ha := compileAll_settles hrules args scope hargs
    simp only [compile, refusal?]
    cases d.static? scope callee with
    | some p =>
      obtain ⟨name, f⟩ := p
      simp only [misfit?]
      cases f.arity.accepts args.length with
      | true => exact ha.map fun _ => .pure _
      | false => exact .fault _
    | none =>
      refine (settles_require _ _ _ _).bind fun _ => ?_
      refine (settles_text (hnode line callee args rfl)).bind fun _ => ?_
      refine (compile_settles hrules callee scope hcallee).bind fun _ => ?_
      exact ha.map fun _ => .pure _
  | .method line receiver name args =>
    obtain ⟨-, hreceiver, hargs⟩ := hshown
    refine (settles_require _ _ _ _).bind fun _ => ?_
    refine (compile_settles hrules receiver scope hreceiver).bind fun _ => ?_
    exact (compileAll_settles hrules args scope hargs).map fun _ => .pure _

theorem compileAll_settles (hrules : d.rules = none) (ts : List (Tree (Value H)))
    (scope : List String) (hshown : Tree.EveryItem (Shown m P) ts) :
    Settles P (refusalAll? d ts scope) (compileAll m d ts scope) := by
  match ts with
  | [] => exact .pure _
  | t :: rest =>
    refine (compile_settles hrules t scope hshown.1).bind fun _ => ?_
    exact (compileAll_settles hrules rest scope hshown.2).map fun _ => .pure _

theorem compileEntries_settles (hrules : d.rules = none) (es : List (String × Tree (Value H)))
    (scope : List String) (hshown : Tree.EveryEntry (Shown m P) es) :
    Settles P (refusalEntries? d es scope) (compileEntries m d es scope) := by
  match es with
  | [] => exact .pure _
  | (_, t) :: rest =>
    refine (compile_settles hrules t scope hshown.1).bind fun _ => ?_
    exact (compileEntries_settles hrules rest scope hshown.2).map fun _ => .pure _

end

/-- Showing a callee of the tree stops in this way, on some store. -/
def Unshown (m : Machine H W) (t : Tree (Value H)) (stop : Stop Empty) : Prop :=
  ∃ line callee args s s', .call line callee args ∈ t.nodes ∧ callee.text m s = .error stop s'

theorem every_shown (m : Machine H W) (t : Tree (Value H)) : t.Every (Shown m (Unshown m t)) := by
  refine (Tree.every_iff t).2 ?_
  rintro node hnode line callee args rfl s stop s' htext
  exact ⟨line, callee, args, s, s', hnode, htext⟩

/-- A tree that has been compiled has no refusal. -/
theorem refusal?_of_compiled (hrules : d.rules = none) {t : Tree (Value H)} {scope : List String}
    {s s' : Store H W} {c : Code H} (h : compile m d t scope s = .ok c s') :
    refusal? d t scope = none := by
  have hs := compile_settles hrules t scope (every_shown m t) s
  rw [h] at hs
  exact hs

end Compilation

end Formula
