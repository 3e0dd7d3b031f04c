import ConsHeap.Text.Numeral

/-!
# Type tags

A tag is a sixteen-bit code. Its family says who looks after the values that carry it: atoms own
nothing, objects are counted, and conses are collected.

* `Tag.family`: the family a code falls into. Codes above the three ranges have none.
* `Tag.text`: a tag as it is written.
-/

namespace ConsHeap

/-- The code of a type. -/
structure Tag where
  code : UInt16
  deriving DecidableEq, Inhabited

/-- The ways in which values are kept. -/
inductive Family where
  | atom
  | object
  | cons
  deriving DecidableEq

namespace Tag

def nil : Tag := ⟨0x000⟩
def integer : Tag := ⟨0x001⟩
def character : Tag := ⟨0x002⟩
def boolean : Tag := ⟨0x003⟩
def text : Tag := ⟨0x100⟩
def symbol : Tag := ⟨0x101⟩
def closure : Tag := ⟨0x102⟩
def cons : Tag := ⟨0x200⟩

/-- The family of a tag: a block of 256 codes each, in order. -/
def family (t : Tag) : Option Family :=
  if t.code < 0x100 then some .atom
  else if t.code < 0x200 then some .object
  else if t.code < 0x300 then some .cons
  else none

/-- A tag as it is written, with three digits or more. -/
def shown (t : Tag) : String := "0x" ++ Text.hexadecimal 3 t.code.toNat

end Tag

end ConsHeap
