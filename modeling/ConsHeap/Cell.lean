import ConsHeap.Paging.Block
import ConsHeap.Value

/-!
# Cells

A cell holds two values and knows the slot that names it. A flag says which of the two tables that
slot is in.

* `Placement`: the flag and the slot number in one word, from which both can be read back.
* `Cell`: the two values, the tag, the generation of the storage, and the placement.
* `Cell.renew`: storage used again for a new cell. Handles of the generation before stop resolving.
-/

namespace ConsHeap

/-- A slot number in the low 31 bits and, in the top bit, whether it is a slot of the root
table. -/
structure Placement where
  word : UInt32
  deriving DecidableEq, Inhabited

namespace Placement

/-- The bit that marks a root. -/
def rootBit : UInt32 := 0x80000000

/-- The bits of the slot number. -/
def slotMask : UInt32 := 0x7fffffff

/-- The largest slot number that fits. -/
def maxSlot : Nat := 0x7fffffff

/-- The placement at a slot, its number taken modulo `2 ^ 31`. -/
def ofSlot (slot : Nat) (isRoot : Bool) : Placement :=
  ⟨(UInt32.ofNat slot &&& slotMask) ||| (if isRoot then rootBit else 0)⟩

def slot (p : Placement) : Nat := (p.word &&& slotMask).toNat

def isRoot (p : Placement) : Bool := p.word &&& rootBit != 0

/-- The slot number that was recorded, modulo `2 ^ 31`. -/
theorem slot_ofSlot (slot : Nat) (isRoot : Bool) :
    (ofSlot slot isRoot).slot = slot % 0x80000000 := by
  have hmask : slotMask.toNat = 2 ^ 31 - 1 := by decide
  have hflag : (if isRoot then rootBit else 0 : UInt32).toNat % 2 ^ 31 = 0 := by
    cases isRoot <;> decide
  simp only [ofSlot, Placement.slot, UInt32.toNat_and, UInt32.toNat_or, hmask,
    Nat.and_two_pow_sub_one_eq_mod, UInt32.toNat_ofNat', Nat.or_mod_two_pow, hflag, Nat.or_zero]
  omega

/-- The slot number that was recorded, when it is in range. -/
theorem slot_ofSlot_of_le {slot : Nat} {isRoot : Bool} (h : slot ≤ maxSlot) :
    (ofSlot slot isRoot).slot = slot := by
  rw [slot_ofSlot, Nat.mod_eq_of_lt (by unfold maxSlot at h; omega)]

/-- The flag that was recorded. -/
@[simp] theorem isRoot_ofSlot (slot : Nat) (isRoot : Bool) :
    (ofSlot slot isRoot).isRoot = isRoot := by
  have hclear : slotMask.toBitVec &&& rootBit.toBitVec = 0 := by decide
  have h : (ofSlot slot isRoot).word &&& rootBit = (if isRoot then rootBit else 0) := by
    apply UInt32.eq_of_toBitVec_eq
    simp only [ofSlot, UInt32.toBitVec_and, UInt32.toBitVec_or, BitVec.and_or_distrib_right,
      BitVec.and_assoc, hclear]
    cases isRoot <;> simp
  rw [Placement.isRoot, h]
  cases isRoot <;> decide

end Placement

/-- A pair of values in storage. -/
structure Cell where
  car : Value
  cdr : Value
  tag : Tag
  generation : UInt32
  placement : Placement
  deriving Inhabited

/-- The two values of a cell. -/
inductive Side where
  | car
  | cdr
  deriving DecidableEq

namespace Cell

/-- A cell that was never used, at a slot of the cons table. -/
def spare (slot : Nat) : Cell := ⟨.nil, .nil, .cons, 0, .ofSlot slot false⟩

def slot (c : Cell) : Nat := c.placement.slot

def isRoot (c : Cell) : Bool := c.placement.isRoot

/-- The cons handles in the two values, car first. -/
def handles (c : Cell) : List Handle := c.car.handles ++ c.cdr.handles

/-- The value on one side. -/
def child (c : Cell) : Side → Value
  | .car => c.car
  | .cdr => c.cdr

/-- The cell with the value on one side exchanged. -/
def setChild (c : Cell) (v : Value) : Side → Cell
  | .car => { c with car := v }
  | .cdr => { c with cdr := v }

/-- The cell at another slot, in the table that the flag names. -/
def place (c : Cell) (slot : Nat) (isRoot : Bool) : Cell :=
  { c with placement := .ofSlot slot isRoot }

/-- A cell that moves keeps its handles. -/
@[simp] theorem handles_place (c : Cell) (slot : Nat) (isRoot : Bool) :
    (c.place slot isRoot).handles = c.handles := rfl

@[simp] theorem isRoot_place (c : Cell) (slot : Nat) (isRoot : Bool) :
    (c.place slot isRoot).isRoot = isRoot := Placement.isRoot_ofSlot slot isRoot

theorem slot_place (c : Cell) {slot : Nat} {isRoot : Bool} (h : slot ≤ Placement.maxSlot) :
    (c.place slot isRoot).slot = slot := Placement.slot_ofSlot_of_le h

/-- The storage used for a new pair: the next generation, at the same slot. -/
def renew (c : Cell) (tag : Tag) (car cdr : Value) : Cell :=
  { c with tag, car, cdr, generation := c.generation + 1 }

/-- What one slot of a page of cells takes. -/
def layout : Paging.Layout := ⟨80, 8⟩

end Cell

end ConsHeap
