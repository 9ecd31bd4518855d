import Formula.Tree
import Formula.Value.Text

/-!
Trees as text, on one line and with every binary operation in parentheses. Constants are
inspected, which runs the lists they hold.
-/
namespace Formula
namespace Tree

variable {H W : Type}

mutual

def text (m : Machine H W) : Tree (Value H) → Run H W Empty String
  | .ident _ name => pure name
  | .const _ v => v.inspect m
  | .letIn _ name value inner => do
    return "let " ++ name ++ "=" ++ (← text m value) ++ "; " ++ (← text m inner)
  | .cond _ test yes no => do
    return "if " ++ (← text m test) ++ " then " ++ (← text m yes) ++ " else " ++ (← text m no)
  | .unary _ op operand => do return op ++ (← text m operand)
  | .binary _ op left right => do
    return "(" ++ (← text m left) ++ op ++ (← text m right) ++ ")"
  | .closure _ params body => do
    return "(" ++ ", ".intercalate params ++ ")->" ++ (← text m body)
  | .list _ items => do return bracketed (← textList m items)
  | .index _ source position => do
    return (← text m source) ++ "[" ++ (← text m position) ++ "]"
  | .map _ entries => do return braced (← textEntries m entries)
  | .field _ record key => do return (← text m record) ++ "." ++ key
  | .call _ callee args => do
    return (← text m callee) ++ "(" ++ ", ".intercalate (← textList m args) ++ ")"
  | .method _ receiver name args => do
    return (← text m receiver) ++ "." ++ name ++ "(" ++ ", ".intercalate (← textList m args) ++ ")"

def textList (m : Machine H W) : List (Tree (Value H)) → Run H W Empty (List String)
  | [] => pure []
  | t :: rest => do
    let s ← text m t
    return s :: (← textList m rest)

def textEntries (m : Machine H W) : List (String × Tree (Value H)) → Run H W Empty (List String)
  | [] => pure []
  | (key, t) :: rest => do
    let s ← text m t
    return (key ++ ":" ++ s) :: (← textEntries m rest)

end

end Tree

end Formula
