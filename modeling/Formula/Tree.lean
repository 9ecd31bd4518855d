import Formula.Line

/-!
Expression trees over an arbitrary type of constants. Every node carries the line it came
from; trees are never changed, only rebuilt.
-/
namespace Formula

inductive Tree (V : Type) where
  | ident (line : Line) (name : String)
  | const (line : Line) (value : V)
  | letIn (line : Line) (name : String) (value inner : Tree V)
  | cond (line : Line) (test yes no : Tree V)
  | unary (line : Line) (op : String) (operand : Tree V)
  | binary (line : Line) (op : String) (left right : Tree V)
  | closure (line : Line) (params : List String) (body : Tree V)
  | list (line : Line) (items : List (Tree V))
  | index (line : Line) (source position : Tree V)
  | map (line : Line) (entries : List (String × Tree V))
  | field (line : Line) (record : Tree V) (key : String)
  | call (line : Line) (callee : Tree V) (args : List (Tree V))
  | method (line : Line) (receiver : Tree V) (name : String) (args : List (Tree V))

namespace Tree

variable {V : Type}

instance : Inhabited (Tree V) := ⟨.ident .unknown ""⟩

def line : Tree V → Line
  | .ident l .. | .const l .. | .letIn l .. | .cond l .. | .unary l .. | .binary l ..
  | .closure l .. | .list l .. | .index l .. | .map l .. | .field l .. | .call l ..
  | .method l .. => l

/-- The same node at another line; its children keep theirs. -/
def withLine (l : Line) : Tree V → Tree V
  | .ident _ name => .ident l name
  | .const _ value => .const l value
  | .letIn _ name value inner => .letIn l name value inner
  | .cond _ test yes no => .cond l test yes no
  | .unary _ op operand => .unary l op operand
  | .binary _ op left right => .binary l op left right
  | .closure _ params body => .closure l params body
  | .list _ items => .list l items
  | .index _ source position => .index l source position
  | .map _ entries => .map l entries
  | .field _ record key => .field l record key
  | .call _ callee args => .call l callee args
  | .method _ receiver name args => .method l receiver name args

def const? : Tree V → Option V
  | .const _ value => some value
  | _ => none

def ident? : Tree V → Option String
  | .ident _ name => some name
  | _ => none

/-- The name of the kind of node, as faults report it. -/
def kind : Tree V → String
  | .ident .. => "identifier"
  | .const .. => "constant"
  | .letIn .. => "let"
  | .cond .. => "if"
  | .unary .. => "unary operation"
  | .binary .. => "operation"
  | .closure .. => "closure"
  | .list .. => "list literal"
  | .index .. => "list access"
  | .map .. => "map literal"
  | .field .. => "map access"
  | .call .. => "function call"
  | .method .. => "method call"

mutual

/-- Number of nodes. -/
def nodeCount : Tree V → Nat
  | .ident .. | .const .. => 1
  | .letIn _ _ value inner => 1 + value.nodeCount + inner.nodeCount
  | .cond _ test yes no => 1 + test.nodeCount + yes.nodeCount + no.nodeCount
  | .unary _ _ operand => 1 + operand.nodeCount
  | .binary _ _ left right => 1 + left.nodeCount + right.nodeCount
  | .closure _ _ body => 1 + body.nodeCount
  | .list _ items => 1 + nodeCountList items
  | .index _ source position => 1 + source.nodeCount + position.nodeCount
  | .map _ entries => 1 + nodeCountEntries entries
  | .field _ record _ => 1 + record.nodeCount
  | .call _ callee args => 1 + callee.nodeCount + nodeCountList args
  | .method _ receiver _ args => 1 + receiver.nodeCount + nodeCountList args

def nodeCountList : List (Tree V) → Nat
  | [] => 0
  | t :: ts => t.nodeCount + nodeCountList ts

def nodeCountEntries : List (String × Tree V) → Nat
  | [] => 0
  | (_, t) :: ts => t.nodeCount + nodeCountEntries ts

end

@[simp] theorem line_withLine (l : Line) (t : Tree V) : (t.withLine l).line = l := by
  cases t <;> rfl

theorem nodeCount_pos (t : Tree V) : 0 < t.nodeCount := by
  cases t <;> simp only [nodeCount] <;> omega

end Tree

end Formula
