import ConsHeap.Names
import ConsHeap.Value

/-!
# Operands

* `Operand`: an atom, or whatever is under a name.
* `Operand.value?`: the value of an operand. A name with nothing under it is returned as the error.
-/

namespace ConsHeap

/-- An atom, or the value under a name. -/
inductive Operand where
  | literal (v : Value)
  | named (name : String)
  deriving Inhabited

/-- The value of an operand, or the name that has none. -/
def Operand.value? (names : Names Value) : Operand → Except String Value
  | literal v => .ok v
  | named name =>
    match names.find? name with
    | some v => .ok v
    | none => .error name

end ConsHeap
