import ConsHeap.Failure

/-!
# What goes wrong with a command line

* `Reason`: what is wrong.
* `Trouble`: a reason and, when the commands come from a file, the number of the line.
-/

namespace ConsHeap.Console

/-- What is wrong. -/
inductive Reason where
  | io (text : String)
  | command (text : String)
  | unbound (name : String)
  | heap (error : HeapError)
  deriving DecidableEq

def Reason.message : Reason → String
  | io text => "IO Error: " ++ text
  | command text => "Command error: " ++ text
  | unbound name => s!"Name '{name}' is not bound"
  | heap error => "Heap error: " ++ error.message

/-- A reason, and the line it arose on if that has a number. -/
structure Trouble where
  reason : Reason
  line : Option Nat
  deriving DecidableEq

namespace Trouble

def message (t : Trouble) : String :=
  match t.line with
  | some n => s!"line {n}: " ++ t.reason.message
  | none => t.reason.message

/-- Input and output failures end a session, all else is reported and passed over. -/
def isFatal (t : Trouble) : Bool :=
  match t.reason with
  | .io _ => true
  | _ => false

end Trouble

end ConsHeap.Console
