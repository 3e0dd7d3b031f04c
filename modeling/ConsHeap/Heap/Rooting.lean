import ConsHeap.Heap.Shading

/-!
# Slots and roots

* `Heap.roomForCell`, `Heap.roomForRoot`: one page for a table that is full.
* `Heap.roomForBoth`: both, or neither.
* `Heap.fill`: the next free slot, with new contents in its storage.
* `Heap.root`: pins a cons. The first time it goes to the root table, then its count goes up.
* `Heap.unroot`: takes one count back. With the last one the cell returns as black.
-/

namespace ConsHeap.Heap

/-- Room for one more white cell. -/
def roomForCell : HeapM Unit := do
  let h ← get
  if h.tables.zones.isFull then onTables (Tables.growZones h.sizing.cellsPerPage)

/-- Room for one more root. -/
def roomForRoot : HeapM Unit := do
  let h ← get
  if h.tables.roots.isFull then onTables (Tables.growRoots h.sizing.rootsPerPage)

/-- The sizes of the tables and the number of their pages, to go back to. -/
structure Extent where
  slots : Nat
  entries : Nat
  pages : Nat

/-- The sizes as they are. -/
def extent (h : Heap) : Extent :=
  ⟨h.tables.zones.capacity, h.tables.roots.capacity, h.tables.storage.pages.size⟩

/-- Give up the last `n` pages. -/
def dropPages : Nat → HeapM Unit
  | 0 => return ()
  | n + 1 => do
    onTables (Tables.onStorage Storage.dropPage)
    dropPages n

/-- Undo the growth since a mark. -/
def shrinkTo (m : Extent) : HeapM Unit := do
  onTables (Tables.cutSlots m.slots)
  onTables (Tables.cutEntries m.entries)
  dropPages ((← get).tables.storage.pages.size - m.pages)

/-- Room for one more white cell and one more root. If there is no room for the root, there is none
for the cell. -/
def roomForBoth : HeapM Unit := do
  let m := (← get).extent
  try
    roomForCell
    roomForRoot
  catch e =>
    shrinkTo m
    throw e

/-- Make the first free slot white and put new contents into its storage. Returns the location and
the cell that was there. A slot must be free. -/
def fill (tag : Tag) (car cdr : Value) : HeapM (Location × Cell) := do
  let i ← onTables Tables.extendWhite
  let l ← onTables (Tables.slotAt i)
  let old ← onTables (Tables.cellAt l)
  onTables (Tables.updateCell l (·.renew tag car cdr))
  onTables (Tables.place l i false)
  return (l, old)

/-- A handle for the cell at a location. -/
def issue (l : Location) : HeapM Handle := do
  let cell ← onTables (Tables.cellAt l)
  return ⟨(← get).id, l, cell.generation⟩

/-- Move a live cell that is not rooted into the root table. An entry must be spare. -/
def toRoots (l : Location) : HeapM Unit := do
  let cell ← onTables (Tables.cellAt l)
  let hole ← onTables (Tables.takeOut cell.slot)
  let spare ← onTables (Tables.enrol l)
  let _ ← onTables (Tables.exchange hole spare)
  shadeContents l

/-- Pin a cons, or add one to its root count. -/
def root (v : Value) : HeapM Unit := do
  let (l, cell) ← answer ((← get).liveCell v)
  if cell.isRoot then
    let _ ← onTables (Tables.increase cell.slot)
  else
    roomForRoot
    toRoots l

/-- Move a root with a count of one back into the cons table, as black. -/
def toBlack (l : Location) (i : Nat) : HeapM Unit := do
  let h ← get
  unless h.tables.zones.canExtendBlack do
    onTables (Tables.growZones h.sizing.cellsPerPage)
  let _ ← onTables (Tables.decrease i)
  let parked ← onTables (Tables.dismiss i)
  let slot ← onTables Tables.extendBlack
  let spare ← onTables (Tables.exchange slot l)
  let _ ← onTables (Tables.park parked spare)
  shadeContents l

/-- Take one from the root count of a cons, and release it with the last one. -/
def unroot (v : Value) : HeapM Unit := do
  let (l, cell) ← answer ((← get).liveCell v)
  unless cell.isRoot do refuse .notRooted
  let entry ← onTables (Tables.entryAt cell.slot)
  if 1 < entry.count then
    let _ ← onTables (Tables.decrease cell.slot)
  else
    toBlack l cell.slot

end ConsHeap.Heap
