import Formula.Dialect
import Formula.Machine
import Formula.Tree.Text

/-!
From trees to code. Operators, functions and capabilities are resolved here once and for all,
so that running code looks up nothing by name but variables. The names bound around a node are
known: a local name hides the constant or function of the dialect that has the same one.

A node is refused before its children are looked at, and children from left to right.
-/
namespace Formula
namespace Compilation

variable {H W : Type}

def missing {α : Type} (line : Line) (node capability : String) : Run H W CompileError α :=
  Run.fault ⟨.missingCapability node capability, line⟩

def require (present : Bool) (line : Line) (node capability : String) : Run H W CompileError Unit :=
  if present then pure () else missing line node capability

/-- What a name stands for where no scope binds it. -/
def fallback? (d : Dialect H) (scope : List String) (name : String) : Option (Value H) :=
  if scope.contains name then none
  else
    match d.constant? name with
    | some v => some v
    | none => if d.closures then (d.function? name).map .closure else none

/-- An escalation record for a closure literal, if values can travel to native code. -/
def newSlot? (d : Dialect H) (params : List String) (body : Tree (Value H)) :
    Run H W CompileError (Option SlotRef) :=
  match d.marshal with
  | none => pure none
  | some marshal =>
    some <$> Store.newSlot { request := { params, body, marshal }, trigger := d.trigger }

def directive (line : Line) : Directive H → Run H W CompileError (Code H)
  | .constant v => pure (.const v)
  | .reject message => Run.fault ⟨.custom message, line⟩
  | .abort message => Run.panic message

mutual

def compile (m : Machine H W) (d : Dialect H) : Tree (Value H) → List String →
    Run H W CompileError (Code H)
  | .ident line name, scope =>
    match d.rules.bind (·.ident name) with
    | some r => directive line r
    | none => pure (.var line name (fallback? d scope name))
  | .const _ v, _ => pure (.const v)
  | .letIn line name (.closure closureLine params body) inner, scope => do
    require d.closures line "let" "closure handler"
    let code ← compile m d body (params ++ name :: scope)
    let slot ← newSlot? d params body
    let inner ← compile m d inner (name :: scope)
    return .letRec name (.mk name closureLine params code slot) inner
  | .letIn _ name value inner, scope => do
    let value ← compile m d value scope
    let inner ← compile m d inner (name :: scope)
    return .letIn name value inner
  | .cond line test yes no, scope => do
    match d.truth with
    | none => missing line "if" "boolean coercion"
    | some truth =>
      let test ← compile m d test scope
      let yes ← compile m d yes scope
      let no ← compile m d no scope
      return .cond line truth test yes no
  | .unary line op operand, scope => do
    if d.rules.any (·.pairs op) then return .pair (← compile m d operand [])
    match d.unary? op with
    | none => Run.fault ⟨.unknownUnary op, line⟩
    | some o => return .unary line o.callback (← compile m d operand scope)
  | .binary line op left right, scope => do
    match d.operator? op with
    | none => Run.fault ⟨.unknownOperator op, line⟩
    | some o =>
      let left ← compile m d left scope
      let right ← compile m d right scope
      return .binary line o.callback left right
  | .closure line params body, scope => do
    require d.closures line "closure" "closure handler"
    let code ← compile m d body (params ++ scope)
    let slot ← newSlot? d params body
    return .closure (.mk "closure" line params code slot)
  | .list line items, scope => do
    require d.lists line "list literal" "list handler"
    return .list (← compileAll m d items scope)
  | .index line source position, scope => do
    require d.lists line "list access" "list handler"
    let source ← compile m d source scope
    let position ← compile m d position scope
    return .index line source position
  | .map line entries, scope => do
    require d.maps line "map literal" "map handler"
    return .map (← compileEntries m d entries scope)
  | .field line record key, scope => do
    require d.maps line "map access" "map handler"
    return .field line (← compile m d record scope) key
  | .call line callee args, scope => do
    match d.static? scope callee with
    | some (name, f) =>
      if f.arity.accepts args.length then return .callStatic line f (← compileAll m d args scope)
      else Run.fault ⟨.arityMismatch name (f.arity.fixed?.getD 0) args.length, line⟩
    | none =>
      require d.closures line "function call" "closure handler"
      let text ← (callee.text m).lift
      let function ← compile m d callee scope
      return .call line text function (← compileAll m d args scope)
  | .method line receiver name args, scope => do
    let fields := d.maps && d.closures
    require (fields || d.methods) line "method call" "method handler"
    let receiver ← compile m d receiver scope
    return .method line fields d.methods receiver name (← compileAll m d args scope)

def compileAll (m : Machine H W) (d : Dialect H) : List (Tree (Value H)) → List String →
    Run H W CompileError (List (Code H))
  | [], _ => pure []
  | t :: rest, scope => do
    let code ← compile m d t scope
    return code :: (← compileAll m d rest scope)

def compileEntries (m : Machine H W) (d : Dialect H) : List (String × Tree (Value H)) →
    List String → Run H W CompileError (List (String × Code H))
  | [], _ => pure []
  | (key, t) :: rest, scope => do
    let code ← compile m d t scope
    return (key, code) :: (← compileEntries m d rest scope)

end

end Compilation

end Formula
