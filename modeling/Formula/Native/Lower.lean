import Formula.Assoc
import Formula.Native.Error
import Formula.Native.Expr
import Formula.Tree

/-!
From closure bodies to C. A body can be lowered if it is made of parameters, constants with a
native form and operators with a template, and if every operation depends on a parameter:
what is constant alone is the host's to compute.
-/
namespace Formula
namespace Native

/-- How values travel to native code and back. `constant` may accept more than `toNative`,
because a constant of a body is only ever combined with a parameter. -/
structure Marshal (V : Type) where
  toNative : V → Option Float
  fromNative : Float → V
  constant : V → Option Float

/-- A closure body to escalate. -/
structure Request (V : Type) where
  params : List String
  body : Tree V
  marshal : Marshal V

/-- How a binary operator is written in C. -/
inductive BinaryTemplate where
  | infixed (symbol : String)
  | call (name : String)
  deriving DecidableEq, Repr

/-- How a unary operator is written in C. -/
inductive UnaryTemplate where
  | prefixed (symbol : String)
  | call (name : String)
  deriving DecidableEq, Repr

def BinaryTemplate.apply : BinaryTemplate → CExpr → CExpr → CExpr
  | .infixed symbol => .infixed symbol
  | .call name => .call2 name

def UnaryTemplate.apply : UnaryTemplate → CExpr → CExpr
  | .prefixed symbol => .prefixed symbol
  | .call name => .call1 name

structure Templates where
  binary : Assoc BinaryTemplate
  unary : Assoc UnaryTemplate

/-- The arithmetic of the standard dialect. -/
def Templates.standard : Templates where
  binary :=
    [("+", .infixed "+"), ("-", .infixed "-"), ("*", .infixed "*"), ("/", .infixed "/"),
      ("%", .call "fmod"), ("^", .call "pow")]
  unary := [("-", .prefixed "-")]

variable {V : Type}

def unsupported (t : Tree V) (what : String) : NativeError := .unsupported what t.line

def constantSubtree (t : Tree V) : NativeError := unsupported t (t.kind ++ " without a parameter")

/-- The C expression of a tree, and whether its value depends on a parameter. -/
def lower (params : List String) (constant : V → Option Float) (templates : Templates) :
    Tree V → Except NativeError (CExpr × Bool)
  | .ident line name =>
    match params.idxOf? name with
    | some i => .ok (.param i, true)
    | none => .error (.unsupported ("free variable " ++ name) line)
  | .const line v =>
    match constant v with
    | some x => .ok (.literal x, false)
    | none => .error (.unsupported "non numeric constant" line)
  | .unary line op operand =>
    match templates.unary.get? op with
    | none => .error (.unsupported ("unary operator " ++ op) line)
    | some template =>
      match lower params constant templates operand with
      | .error e => .error e
      | .ok (_, false) => .error (.unsupported "unary operation without a parameter" line)
      | .ok (e, true) => .ok (template.apply e, true)
  | .binary line op left right =>
    match templates.binary.get? op with
    | none => .error (.unsupported ("operator " ++ op) line)
    | some template =>
      match lower params constant templates left with
      | .error e => .error e
      | .ok (a, inLeft) =>
        match lower params constant templates right with
        | .error e => .error e
        | .ok (b, inRight) =>
          if inLeft || inRight then .ok (template.apply a b, true)
          else .error (.unsupported "operation without a parameter" line)
  | t => .error (unsupported t t.kind)

/-- The C expression of a whole body, which must depend on a parameter itself. -/
def Request.lower (r : Request V) (templates : Templates) : Except NativeError CExpr :=
  match Native.lower r.params r.marshal.constant templates r.body with
  | .error e => .error e
  | .ok (e, true) => .ok e
  | .ok (_, false) => .error (constantSubtree r.body)

/-- The source file that exports a lowered body under a symbol. -/
def sourceText (symbol : String) (params : Nat) (e : CExpr) : String :=
  let reads := (List.range params).map fun i =>
    "    const double p" ++ toString i ++ " = args[" ++ toString i ++ "];\n"
  "#include <math.h>\n\ndouble " ++ symbol ++ "(const double *args) \x7b\n" ++ String.join reads ++
    "    return " ++ e.text ++ ";\n\x7d\n"

def Request.source (r : Request V) (templates : Templates) (symbol : String) :
    Except NativeError String :=
  (r.lower templates).map (sourceText symbol r.params.length)

end Native

end Formula
