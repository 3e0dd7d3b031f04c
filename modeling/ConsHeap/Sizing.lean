import ConsHeap.Text.Blank
import ConsHeap.Text.Numeral

/-!
# Sizing of a heap

* `Sizing`: how much the tables of a heap grow at a time, and how far.
* `Sizing.ofEnvironment`: the standard sizing, changed by what the environment sets.
-/

namespace ConsHeap

/-- Page sizes and the most pages the tables may draw together. -/
structure Sizing where
  cellsPerPage : Nat
  rootsPerPage : Nat
  pageLimit : Option Nat
  deriving DecidableEq, Inhabited

/-- Settings by name. Each is the raw bytes of its text. -/
structure Environment where
  cellsPerPage : Option ByteArray
  rootsPerPage : Option ByteArray
  pageLimit : Option ByteArray

namespace Sizing

/-- Pages of 256 cells and of 64 roots, without a limit. -/
def standard : Sizing := ⟨256, 64, none⟩

/-- A positive number as text. -/
def positive? (text : String) : Option Nat := do
  let n ← Text.natural? text.toList
  if 0 < n then some n else none

/-- A setting counts when it is text and, without the blanks at its ends, a positive number. -/
def setting? (raw : Option ByteArray) : Option Nat := do
  let text ← String.fromUTF8? (← raw)
  positive? (String.ofList (Text.trim text.toList))

/-- The standard sizing with every setting that counts. -/
def ofEnvironment (env : Environment) : Sizing where
  cellsPerPage := (setting? env.cellsPerPage).getD standard.cellsPerPage
  rootsPerPage := (setting? env.rootsPerPage).getD standard.rootsPerPage
  pageLimit := (setting? env.pageLimit).or standard.pageLimit

end Sizing

end ConsHeap
