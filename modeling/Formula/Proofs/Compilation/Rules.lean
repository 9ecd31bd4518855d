import Formula.Compilation
import Formula.Proofs.Run

/-!
Compilation as rules, for a dialect whose host compiles nothing by itself: which code a node
compiles to, given the code of its children. And what compiling does to the store: it makes
escalation records, and it shows the callees of calls, which runs the lists in them.
-/
namespace Formula

variable {H W : Type}

namespace Tree

variable {V : Type}

mutual

/-- The property holds of every node of the tree. -/
def Every (P : Tree V → Prop) : Tree V → Prop
  | .ident line name => P (.ident line name)
  | .const line v => P (.const line v)
  | .letIn line name value inner =>
    P (.letIn line name value inner) ∧ Every P value ∧ Every P inner
  | .cond line test yes no => P (.cond line test yes no) ∧ Every P test ∧ Every P yes ∧ Every P no
  | .unary line op operand => P (.unary line op operand) ∧ Every P operand
  | .binary line op left right => P (.binary line op left right) ∧ Every P left ∧ Every P right
  | .closure line params body => P (.closure line params body) ∧ Every P body
  | .list line items => P (.list line items) ∧ EveryItem P items
  | .index line source position =>
    P (.index line source position) ∧ Every P source ∧ Every P position
  | .map line entries => P (.map line entries) ∧ EveryEntry P entries
  | .field line record key => P (.field line record key) ∧ Every P record
  | .call line callee args => P (.call line callee args) ∧ Every P callee ∧ EveryItem P args
  | .method line receiver name args =>
    P (.method line receiver name args) ∧ Every P receiver ∧ EveryItem P args

def EveryItem (P : Tree V → Prop) : List (Tree V) → Prop
  | [] => True
  | t :: rest => Every P t ∧ EveryItem P rest

def EveryEntry (P : Tree V → Prop) : List (String × Tree V) → Prop
  | [] => True
  | (_, t) :: rest => Every P t ∧ EveryEntry P rest

end

mutual

theorem Every.imp {P Q : Tree V → Prop} (hPQ : ∀ node, P node → Q node) {t : Tree V}
    (h : Every P t) : Every Q t := by
  match t with
  | .ident .. => exact hPQ _ h
  | .const .. => exact hPQ _ h
  | .letIn .. => exact ⟨hPQ _ h.1, h.2.1.imp hPQ, h.2.2.imp hPQ⟩
  | .cond .. => exact ⟨hPQ _ h.1, h.2.1.imp hPQ, h.2.2.1.imp hPQ, h.2.2.2.imp hPQ⟩
  | .unary .. => exact ⟨hPQ _ h.1, h.2.imp hPQ⟩
  | .binary .. => exact ⟨hPQ _ h.1, h.2.1.imp hPQ, h.2.2.imp hPQ⟩
  | .closure .. => exact ⟨hPQ _ h.1, h.2.imp hPQ⟩
  | .list .. => exact ⟨hPQ _ h.1, h.2.imp hPQ⟩
  | .index .. => exact ⟨hPQ _ h.1, h.2.1.imp hPQ, h.2.2.imp hPQ⟩
  | .map .. => exact ⟨hPQ _ h.1, h.2.imp hPQ⟩
  | .field .. => exact ⟨hPQ _ h.1, h.2.imp hPQ⟩
  | .call .. => exact ⟨hPQ _ h.1, h.2.1.imp hPQ, h.2.2.imp hPQ⟩
  | .method .. => exact ⟨hPQ _ h.1, h.2.1.imp hPQ, h.2.2.imp hPQ⟩

theorem EveryItem.imp {P Q : Tree V → Prop} (hPQ : ∀ node, P node → Q node) {ts : List (Tree V)}
    (h : EveryItem P ts) : EveryItem Q ts := by
  match ts with
  | [] => trivial
  | t :: rest => exact ⟨h.1.imp hPQ, h.2.imp hPQ⟩

theorem EveryEntry.imp {P Q : Tree V → Prop} (hPQ : ∀ node, P node → Q node)
    {es : List (String × Tree V)} (h : EveryEntry P es) : EveryEntry Q es := by
  match es with
  | [] => trivial
  | (_, t) :: rest => exact ⟨h.1.imp hPQ, h.2.imp hPQ⟩

end

end Tree

namespace Compilation

variable {m : Machine H W} {d : Dialect H}

/-- What code a node compiles to, given what its children do. -/
def Step (m : Machine H W) (d : Dialect H) (scope : List String) :
    Tree (Value H) → Store H W → Code H → Store H W → Prop
  | .ident line name, s, c, s' => s' = s ∧ c = .var line name (fallback? d scope name)
  | .const _ v, s, c, s' => s' = s ∧ c = .const v
  | .letIn _ name (.closure line params body) inner, s, c, s' =>
    ∃ code u slot v inner', d.closures = true ∧
      compile m d body (params ++ name :: scope) s = .ok code u ∧
      newSlot? d params body u = .ok slot v ∧
      compile m d inner (name :: scope) v = .ok inner' s' ∧
      c = .letRec name (.mk name line params code slot) inner'
  | .letIn _ name value inner, s, c, s' =>
    ∃ value' u inner', compile m d value scope s = .ok value' u ∧
      compile m d inner (name :: scope) u = .ok inner' s' ∧ c = .letIn name value' inner'
  | .cond line test yes no, s, c, s' =>
    ∃ truth test' u yes' v no', d.truth = some truth ∧ compile m d test scope s = .ok test' u ∧
      compile m d yes scope u = .ok yes' v ∧ compile m d no scope v = .ok no' s' ∧
      c = .cond line truth test' yes' no'
  | .unary line op operand, s, c, s' =>
    ∃ o operand', d.unary? op = some o ∧ compile m d operand scope s = .ok operand' s' ∧
      c = .unary line o.callback operand'
  | .binary line op left right, s, c, s' =>
    ∃ o left' u right', d.operator? op = some o ∧ compile m d left scope s = .ok left' u ∧
      compile m d right scope u = .ok right' s' ∧ c = .binary line o.callback left' right'
  | .closure line params body, s, c, s' =>
    ∃ code u slot, d.closures = true ∧ compile m d body (params ++ scope) s = .ok code u ∧
      newSlot? d params body u = .ok slot s' ∧ c = .closure (.mk "closure" line params code slot)
  | .list _ items, s, c, s' =>
    ∃ items', d.lists = true ∧ compileAll m d items scope s = .ok items' s' ∧ c = .list items'
  | .index line source position, s, c, s' =>
    ∃ source' u position', d.lists = true ∧ compile m d source scope s = .ok source' u ∧
      compile m d position scope u = .ok position' s' ∧ c = .index line source' position'
  | .map _ entries, s, c, s' =>
    ∃ entries', d.maps = true ∧ compileEntries m d entries scope s = .ok entries' s' ∧
      c = .map entries'
  | .field line record key, s, c, s' =>
    ∃ record', d.maps = true ∧ compile m d record scope s = .ok record' s' ∧
      c = .field line record' key
  | .call line callee args, s, c, s' =>
    (∃ name f args', d.static? scope callee = some (name, f) ∧
      f.arity.accepts args.length = true ∧ compileAll m d args scope s = .ok args' s' ∧
      c = .callStatic line f args') ∨
    (∃ text u callee' v args', d.static? scope callee = none ∧ d.closures = true ∧
      callee.text m s = .ok text u ∧
      compile m d callee scope u = .ok callee' v ∧
      compileAll m d args scope v = .ok args' s' ∧ c = .call line text callee' args')
  | .method line receiver name args, s, c, s' =>
    ∃ receiver' u args', (d.maps && d.closures || d.methods) = true ∧
      compile m d receiver scope s = .ok receiver' u ∧ compileAll m d args scope u = .ok args' s' ∧
      c = .method line (d.maps && d.closures) d.methods receiver' name args'

theorem require_eq_ok {present : Bool} {line : Line} {node capability : String} {s s' : Store H W}
    {r : Unit} : (require present line node capability : Run H W CompileError Unit) s = .ok r s' ↔
      present = true ∧ s = s' := by
  cases present with
  | true =>
    constructor
    · intro h
      cases h
      exact ⟨rfl, rfl⟩
    · rintro ⟨-, rfl⟩
      rfl
  | false =>
    constructor
    · intro h
      cases h
    · rintro ⟨h, -⟩
      cases h

theorem pure_eq_ok {α ε : Type} {a b : α} {s s' : Store H W} :
    (pure a : Run H W ε α) s = .ok b s' ↔ a = b ∧ s = s' := by
  constructor
  · intro h
    cases h
    exact ⟨rfl, rfl⟩
  · rintro ⟨rfl, rfl⟩
    rfl

/-- The rules say when and to what a node compiles. -/
theorem compile_eq_ok (hrules : d.rules = none) {t : Tree (Value H)} {scope : List String}
    {s s' : Store H W} {c : Code H} :
    compile m d t scope s = .ok c s' ↔ Step m d scope t s c s' := by
  cases t with
  | ident line name =>
    simp only [compile, hrules, Option.bind, pure_eq_ok, Step]
    grind
  | const line v =>
    simp only [compile, pure_eq_ok, Step]
    grind
  | letIn line name value inner =>
    cases value
    all_goals
      simp only [compile, Run.bind_eq_ok, require_eq_ok, pure_eq_ok, Step]
      grind
  | cond line test yes no =>
    simp only [compile, Step]
    cases d.truth with
    | none => simp [missing]
    | some truth =>
      simp only [Run.bind_eq_ok, pure_eq_ok]
      grind
  | unary line op operand =>
    simp only [compile, hrules, Option.any, Bool.false_eq_true, if_false, Step]
    cases d.unary? op with
    | none => simp
    | some o =>
      simp only [Run.bind_eq_ok, pure_eq_ok]
      grind
  | binary line op left right =>
    simp only [compile, Step]
    cases d.operator? op with
    | none => simp
    | some o =>
      simp only [Run.bind_eq_ok, pure_eq_ok]
      grind
  | call line callee args =>
    cases hs : d.static? scope callee with
    | none =>
      simp only [compile, hs, Run.bind_eq_ok, require_eq_ok, Run.lift, Run.mapFault_ok, pure_eq_ok,
        Step]
      grind
    | some p =>
      obtain ⟨name, f⟩ := p
      cases ha : f.arity.accepts args.length with
      | false =>
        simp only [compile, hs, ha, Step]
        grind [Run.fault_apply]
      | true =>
        simp only [compile, hs, ha, Run.bind_eq_ok, pure_eq_ok, Step, if_true]
        grind
  | _ =>
    simp only [compile, Run.bind_eq_ok, require_eq_ok, pure_eq_ok, Step]
    grind

end Compilation

end Formula
