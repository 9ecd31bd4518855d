import Formula.Dialect
import Formula.Evaluation
import Formula.Tree

/-!
Folding: what depends on nothing but constants is computed ahead of time. A tree is folded
from the leaves up. Names of constants are replaced where nothing around them binds the name;
operations and calls of pure functions on constants are carried out; a conditional with a
constant test becomes the branch it selects; literals of constants become constants; and two
constants around a commutative operator are joined.

The result says whether the tree was kept as it is, because a tree that nothing was done to is
shared with the given one.
-/
namespace Formula
namespace Folding

variable {H W : Type}

/-- A folded tree; `kept` if it is the very tree that was given. -/
structure Folded (H : Type) where
  tree : Tree (Value H)
  kept : Bool

/-- A tree that is new. -/
def made (t : Tree (Value H)) : Folded H := ⟨t, false⟩

/-- The given tree if all of its children were kept, else the rebuilt one. -/
def rebuild (given : Tree (Value H)) (kept : Bool) (rebuilt : Tree (Value H)) : Folded H :=
  if kept then ⟨given, true⟩ else made rebuilt

/-- The constants of some nodes, if all of them are constants. -/
def constants? (ts : List (Folded H)) : Option (List (Value H)) := ts.mapM (·.tree.const?)

def allKept (ts : List (Folded H)) : Bool := ts.all (·.kept)

def trees (ts : List (Folded H)) : List (Tree (Value H)) := ts.map (·.tree)

def entryConstants? (es : List (String × Folded H)) : Option (List (String × Value H)) :=
  es.mapM fun (key, t) => t.tree.const?.map fun v => (key, v)

def allEntriesKept (es : List (String × Folded H)) : Bool := es.all (·.2.kept)

def entryTrees (es : List (String × Folded H)) : List (String × Tree (Value H)) :=
  es.map fun (key, t) => (key, t.tree)

/-- Applies a pure operator to two constants. -/
def applyBinary (m : Machine H W) (o : Operator H) (line : Line) (a b : Value H) :
    Run H W FoldError (Value H) :=
  (o.callback.run m [a, b]).mapFault fun e => ⟨.operator o.symbol e, line⟩

/-- Carries out an operation whose right operand is the constant `b`. Below a commutative operator
the constant moves into the left operand, to the constant that is nearest in its chain; `none` if
there is none. -/
def combine (m : Machine H W) (o : Operator H) (line : Line) :
    Tree (Value H) → Value H → Run H W FoldError (Option (Tree (Value H)))
  | .const _ a, b => do return some (.const line (← applyBinary m o line a b))
  | .binary _ op x (.const _ c), b => do
    if !o.commutative || op ≠ o.symbol then return none
    match x with
    | .const _ a =>
      let joined ← applyBinary m o line a b
      return some (.const line (← applyBinary m o line joined c))
    | x =>
      let joined ← applyBinary m o line c b
      match ← combine m o line x joined with
      | some t => return some t
      | none => return some (.binary line op x (.const line joined))
  | .binary _ op (.const _ a) y, b => do
    if !o.commutative || op ≠ o.symbol then return none
    return some (.binary line op (.const line (← applyBinary m o line a b)) y)
  | _, _ => pure none

/-- Folds a binary operation whose operands are folded. -/
def foldBinary? (m : Machine H W) (d : Dialect H) (line : Line) (op : String)
    (left right : Tree (Value H)) : Run H W FoldError (Option (Tree (Value H))) :=
  match d.operator? op, right.const? with
  | some o, some b => if o.isPure then combine m o line left b else pure none
  | _, _ => pure none

/-- The constant of a call of a pure function, if all arguments are constants. -/
def foldCall? (m : Machine H W) (line : Line) (name : String) (f : Function H)
    (args : List (Folded H)) : Run H W FoldError (Option (Value H)) := do
  if !f.isPure then return none
  if !f.arity.accepts args.length then
    Run.fault ⟨.arityMismatch name (f.arity.fixed?.getD 0) args.length, line⟩
  match constants? args with
  | none => return none
  | some vs => some <$> (m.call f vs).mapFault fun e => ⟨.call name e, line⟩

/-- The names that the value of a binding is folded under: a closure sees its own name. -/
def valueScope (name : String) (scope : List String) : Tree (Value H) → List String
  | .closure .. => name :: scope
  | _ => scope

mutual

def fold (m : Machine H W) (d : Dialect H) : Tree (Value H) → List String →
    Run H W FoldError (Folded H)
  | .ident line name, scope =>
    match if scope.contains name then none else d.constant? name with
    | some v => pure (made (.const line v))
    | none => pure ⟨.ident line name, true⟩
  | .const line v, _ => pure ⟨.const line v, true⟩
  | .letIn line name value inner, scope => do
    let v ← fold m d value (valueScope name scope value)
    let i ← fold m d inner (name :: scope)
    return rebuild (.letIn line name value inner) (v.kept && i.kept)
      (.letIn line name v.tree i.tree)
  | .cond line test yes no, scope => do
    let t ← fold m d test scope
    match t.tree.const?, d.truth with
    | some v, some truth =>
      match truth.read m.host v with
      | some true => return made (← fold m d yes scope).tree
      | some false => return made (← fold m d no scope).tree
      | none => Run.fault ⟨.notABool (← (v.inspect m).lift), line⟩
    | _, _ =>
      let y ← fold m d yes scope
      let n ← fold m d no scope
      return rebuild (.cond line test yes no) (t.kept && y.kept && n.kept)
        (.cond line t.tree y.tree n.tree)
  | .unary line op operand, scope => do
    let t ← fold m d operand scope
    match t.tree.const?, d.unary? op with
    | some v, some o =>
      let folded ← (o.callback.run m [v]).mapFault fun e => ⟨.unary op e, line⟩
      return made (.const line folded)
    | _, _ => return rebuild (.unary line op operand) t.kept (.unary line op t.tree)
  | .binary line op left right, scope => do
    let a ← fold m d left scope
    let b ← fold m d right scope
    match ← foldBinary? m d line op a.tree b.tree with
    | some t => return made t
    | none =>
      return rebuild (.binary line op left right) (a.kept && b.kept)
        (.binary line op a.tree b.tree)
  | .closure line params body, scope => do
    let b ← fold m d body (params ++ scope)
    return rebuild (.closure line params body) b.kept (.closure line params b.tree)
  | .list line items, scope => do
    let ts ← foldAll m d items scope
    match if d.lists then constants? ts else none with
    | some vs => return made (.const line (← Store.newList vs))
    | none => return rebuild (.list line items) (allKept ts) (.list line (trees ts))
  | .index line source position, scope => do
    let s ← fold m d source scope
    let p ← fold m d position scope
    return rebuild (.index line source position) (s.kept && p.kept) (.index line s.tree p.tree)
  | .map line entries, scope => do
    let es ← foldEntries m d entries scope
    match if d.maps then entryConstants? es else none with
    | some vs => return made (.const line (← Store.newMap (.ofList vs)))
    | none => return rebuild (.map line entries) (allEntriesKept es) (.map line (entryTrees es))
  | .field line record key, scope => do
    let r ← fold m d record scope
    return rebuild (.field line record key) r.kept (.field line r.tree key)
  | .call line callee args, scope => do
    let ts ← foldAll m d args scope
    match d.static? scope callee with
    | some (name, f) =>
      match ← foldCall? m line name f ts with
      | some v => return made (.const (callee.line.or line) v)
      | none => return rebuild (.call line callee args) (allKept ts) (.call line callee (trees ts))
    | none =>
      let c ← fold m d callee scope
      return rebuild (.call line callee args) (c.kept && allKept ts) (.call line c.tree (trees ts))
  | .method line receiver name args, scope => do
    let r ← fold m d receiver scope
    let ts ← foldAll m d args scope
    return rebuild (.method line receiver name args) (r.kept && allKept ts)
      (.method line r.tree name (trees ts))

def foldAll (m : Machine H W) (d : Dialect H) : List (Tree (Value H)) → List String →
    Run H W FoldError (List (Folded H))
  | [], _ => pure []
  | t :: rest, scope => do
    let f ← fold m d t scope
    return f :: (← foldAll m d rest scope)

def foldEntries (m : Machine H W) (d : Dialect H) : List (String × Tree (Value H)) →
    List String → Run H W FoldError (List (String × Folded H))
  | [], _ => pure []
  | (key, t) :: rest, scope => do
    let f ← fold m d t scope
    return (key, f) :: (← foldEntries m d rest scope)

end

end Folding

end Formula
