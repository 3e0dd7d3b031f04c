import ConsHeap.Storage

/-!
# The two tables

Every cell of a heap is named by one slot of one of two tables. The cons table has the cells that
are not rooted, and a cell's colour is the zone its slot is in:

    0        blackTop     greyBegin      greyTop       whiteTop      capacity
    |  black    |    gap      |    grey     |    white    |    free     |

Slots in the gap and the free tail hold spare cells. The root table has the rooted cells first,
each with a count, and spare cells after them.

* `Zones`: the cons table. `Zones.zone` is the zone of a slot.
* `Roots`: the root table.
* `Tables`: both, with the storage they draw on.
* `Tables.color?`: the colour of the cell at a location.
-/

namespace ConsHeap

/-- The parts of the cons table. -/
inductive Zone where
  | black
  | gap
  | grey
  | white
  | free
  deriving DecidableEq

/-- The colour of a live cell. -/
inductive Color where
  | black
  | grey
  | white
  | root
  deriving DecidableEq

def Color.shown : Color → String
  | black => "black"
  | grey => "grey"
  | white => "white"
  | root => "root"

/-- The colour of the cells in a zone. Cells in the gap and the free tail are not live. -/
def Zone.color : Zone → Option Color
  | black => some .black
  | grey => some .grey
  | white => some .white
  | gap | free => none

/-- The cons table. -/
structure Zones where
  slots : Array Location
  blackTop : Nat
  greyBegin : Nat
  greyTop : Nat
  whiteTop : Nat
  deriving Inhabited

namespace Zones

/-- A table without slots. -/
def empty : Zones := ⟨#[], 0, 0, 0, 0⟩

/-- The number of slots. -/
def capacity (z : Zones) : Nat := z.slots.size

/-- The zone of a slot. -/
def zone (z : Zones) (i : Nat) : Zone :=
  if i < z.blackTop then .black
  else if i < z.greyBegin then .gap
  else if i < z.greyTop then .grey
  else if i < z.whiteTop then .white
  else .free

/-- Holds when the free tail is empty. -/
def isFull (z : Zones) : Bool := z.whiteTop == z.capacity

/-- Holds when a cell is left to scan. -/
def hasGrey (z : Zones) : Bool := decide (z.greyBegin < z.greyTop)

/-- Holds when the gap has a slot. -/
def hasGap (z : Zones) : Bool := decide (z.blackTop < z.greyBegin)

/-- Holds when a black cell can come in without growth. -/
def canExtendBlack (z : Zones) : Bool := z.hasGap || !z.isFull

end Zones

/-- An entry of the root table. -/
structure RootEntry where
  location : Location
  count : Nat
  deriving DecidableEq, Inhabited

/-- The root table: the first `live` entries are roots. -/
structure Roots where
  entries : Array RootEntry
  live : Nat
  deriving Inhabited

namespace Roots

/-- A table without entries. -/
def empty : Roots := ⟨#[], 0⟩

/-- The number of entries. -/
def capacity (r : Roots) : Nat := r.entries.size

/-- Holds when no entry is spare. -/
def isFull (r : Roots) : Bool := r.live == r.capacity

/-- The rooted cells, in table order. -/
def locations (r : Roots) : List Location := (r.entries.toList.take r.live).map (·.location)

end Roots

/-- Both tables and the storage they draw on. -/
structure Tables where
  storage : Storage
  zones : Zones
  roots : Roots
  deriving Inhabited

/-- Actions on the tables. -/
abbrev TablesM := EStateM (Failure HeapError) Tables

namespace Tables

/-- Tables without slots or pages. -/
def ofLimit (limit : Option Nat) : Tables := ⟨.ofLimit limit, .empty, .empty⟩

/-- The colour of the cell at a location. A spare cell has none. -/
def color? (t : Tables) (l : Location) : Option Color := do
  let cell ← t.storage.get? l
  if cell.isRoot then some .root
  else if t.zones.slots[cell.slot]? = some l then (t.zones.zone cell.slot).color
  else none

/-- The tables when the system has other memory to give. -/
def supplied (t : Tables) (supply : Paging.Supply) : Tables :=
  { t with storage.budget.supply := supply }

/-- Run an action on the storage. -/
def onStorage {α : Type} (act : StorageM α) : TablesM α := fun t =>
  match t with
  | ⟨storage, zones, roots⟩ =>
    match act storage with
    | .ok a storage => .ok a ⟨storage, zones, roots⟩
    | .error e storage => .error e ⟨storage, zones, roots⟩

/-- The cell at a location. -/
def cellAt (l : Location) : TablesM Cell := do
  match (← get).storage.get? l with
  | some cell => return cell
  | none => fault (.missingCell l)

/-- Put a cell into the storage at a location. -/
def putCell (l : Location) (cell : Cell) : TablesM Unit :=
  modify fun t => { t with storage := t.storage.set l cell }

/-- Change the cell at a location. -/
def updateCell (l : Location) (f : Cell → Cell) : TablesM Unit := do
  putCell l (f (← cellAt l))

/-- Record the slot of a cell and the table the slot is in. -/
def place (l : Location) (slot : Nat) (isRoot : Bool) : TablesM Unit := do
  let cell ← cellAt l
  expect (slot ≤ Placement.maxSlot) .isSlotNumber
  putCell l (cell.place slot isRoot)

/-- Record a new slot of a cell in the table that it is in. -/
def renumber (l : Location) (slot : Nat) : TablesM Unit := do
  let cell ← cellAt l
  expect (slot ≤ Placement.maxSlot) .isSlotNumber
  putCell l (cell.place slot cell.isRoot)

end Tables

end ConsHeap
