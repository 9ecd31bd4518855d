import Formula.Line

/-!
Why a closure could not be escalated to native code. None of these reaches the caller of an
expression: the interpreted closure stays in charge.
-/
namespace Formula

inductive NativeError where
  | unsupported (what : String) (line : Line)
  | marshal (message : String)
  | notEscalatable
  | disabled
  | compilerNotFound
  | compiler (status stderr : String)
  | timeout (seconds : Nat)
  | load (message : String)
  | cancelled
  | queueFull
  | workerStopped
  deriving DecidableEq, Repr, Inhabited

namespace NativeError

def durationText (seconds : Nat) : String :=
  if seconds = 0 then "0ns" else toString seconds ++ "s"

def message : NativeError → String
  | .unsupported what line => line.text ++ ": node not supported by the jit: " ++ what
  | .marshal message => "value cannot be marshalled to a native number: " ++ message
  | .notEscalatable => "function is not a closure literal and cannot be escalated"
  | .disabled => "jit escalation is disabled"
  | .compilerNotFound => "no native compiler found"
  | .compiler status stderr => "native compiler exited with " ++ status ++ ": " ++ stderr
  | .timeout seconds => "native compiler did not finish within " ++ durationText seconds
  | .load message => "failed to load compiled artifact: " ++ message
  | .cancelled => "escalation was cancelled"
  | .queueFull => "jit queue is full"
  | .workerStopped => "jit worker is not running"

end NativeError

end Formula
