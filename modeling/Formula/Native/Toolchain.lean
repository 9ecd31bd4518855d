import Formula.Native.Lower

/-!
Native compilers. Escalating a body emits its source first, so that an unsupported body fails
before anything outside is touched; after that the compiler decides.
-/
namespace Formula
namespace Native

/-- The native code of a body, given the arguments in order. -/
abbrev Entry := List Float → Float

/-- What the configured compiler does. -/
inductive Compiler where
  /-- compiles what it is given -/
  | working
  /-- is not there -/
  | missing
  /-- exits with status one and says nothing -/
  | failing
  /-- succeeds without writing anything -/
  | silent
  deriving DecidableEq, Repr, Inhabited

structure Toolchain where
  compiler : Compiler := .working
  timeoutSeconds : Nat := 30
  templates : Templates := .standard

namespace Toolchain

/-- Whether the compiler can be run and says so. -/
def available (t : Toolchain) : Bool :=
  match t.compiler with
  | .working | .silent => true
  | .missing | .failing => false

/-- Produces the compiled body of a request. A cancellation is noticed while the compiler
runs, and before its time limit. -/
def build {V : Type} (t : Toolchain) (r : Request V) (cancelled : Bool) :
    Except NativeError CExpr := do
  let e ← r.lower t.templates
  match t.compiler with
  | .missing => .error .compilerNotFound
  | compiler =>
    if cancelled then .error .cancelled
    else if t.timeoutSeconds = 0 then .error (.timeout 0)
    else
      match compiler with
      | .missing => .error .compilerNotFound
      | .failing => .error (.compiler "exit status: 1" "")
      | .silent => .error (.load "no such file")
      | .working => if e.valid then .ok e else .error (.compiler "exit status: 1" "")

/-- Produces the native code of a request. -/
def escalate {V : Type} (t : Toolchain) (r : Request V) (cancelled : Bool) :
    Except NativeError Entry :=
  (t.build r cancelled).map fun e args => e.eval args

end Toolchain

end Native

end Formula
