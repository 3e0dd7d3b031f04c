import ConsHeap.Heap.Basic

/-!
# Audit of a heap

* `Violation`: what may be wrong with the tables of a heap.
* `Heap.audit`: looks for the first violation, in the order of the constructors below: the
  boundaries, the slots of the cons table, the entries of the root table, the number of cells, and
  the references of black cells and roots.
* `Heap.check`: the same, as an error of the heap.
-/

namespace ConsHeap

/-- What may be wrong with the tables of a heap. -/
inductive Violation where
  /-- The boundaries of the zones are not in order. -/
  | disorder (z : Zones)
  /-- A slot of the cons table names a cell that records another place. -/
  | strayCell (i : Nat) (l : Location) (slot : Nat) (isRoot : Bool)
  /-- An entry of the root table names a cell that records another place. -/
  | strayRoot (i : Nat) (l : Location) (slot : Nat) (isRoot : Bool)
  /-- A root has no count. -/
  | uncounted (l : Location)
  /-- Two slots name the same cell. -/
  | repeated (l : Location)
  /-- Not every stored cell is named. -/
  | unnamed (stored named : Nat)
  /-- A black cell or a root refers to a dead cell. -/
  | dangling (parent : Location) (child : Handle)
  /-- A black cell or a root refers to a white cell. -/
  | unshaded (parent child : Location)

namespace Violation

def message : Violation → String
  | disorder z =>
    "zone boundaries out of order: Boundaries \x7b black_top: " ++ toString z.blackTop ++
      ", grey_begin: " ++ toString z.greyBegin ++ ", grey_top: " ++ toString z.greyTop ++
      ", white_top: " ++ toString z.whiteTop ++ ", capacity: " ++ toString z.capacity ++ " \x7d"
  | strayCell i l slot isRoot =>
    s!"cons slot {i} holds {l.shown} recording slot {slot} (root: {isRoot})"
  | strayRoot i l slot isRoot =>
    s!"root slot {i} holds {l.shown} recording slot {slot} (root: {isRoot})"
  | uncounted l => s!"root {l.shown} has a zero count"
  | repeated l => s!"{l.shown} appears in two slots"
  | unnamed stored named => s!"{stored} cells stored but {named} reachable from the tables"
  | dangling parent child => s!"{parent.shown} refers to dead cell {child.shown}"
  | unshaded parent child => s!"{parent.shown} refers to white cell {child.shown}"

end Violation

namespace Zones

/-- Holds when the boundaries are in order. -/
def isOrdered (z : Zones) : Bool :=
  z.blackTop ≤ z.greyBegin && z.greyBegin ≤ z.greyTop && z.greyTop ≤ z.whiteTop &&
    z.whiteTop ≤ z.capacity

end Zones

namespace Heap

/-- An audit step ends at a violation, or at a fault when a table names no cell. -/
abbrev Finding := Except (Failure Violation)

/-- Report a violation. -/
def found (v : Violation) : Finding Unit := .error (.error v)

/-- The cell at a location. -/
def auditedCell (h : Heap) (l : Location) : Finding Cell :=
  match h.cell? l with
  | some cell => .ok cell
  | none => .error (.fault (.missingCell l))

/-- A slot of the cons table names a cell that records it. -/
def auditSlot (h : Heap) (l : Location) (i : Nat) : Finding Unit := do
  let cell ← h.auditedCell l
  if cell.slot ≠ i ∨ cell.isRoot then found (.strayCell i l cell.slot cell.isRoot)

/-- An entry of the root table names a cell that records it, is counted when it is live, and is not
named by a slot of the cons table. That could only be the slot of the same number, because all
others name cells that record another number. -/
def auditEntry (h : Heap) (entry : RootEntry) (i : Nat) : Finding Unit := do
  let l := entry.location
  let cell ← h.auditedCell l
  let isLive := decide (i < h.tables.roots.live)
  if cell.slot ≠ i ∨ cell.isRoot ≠ isLive then found (.strayRoot i l cell.slot cell.isRoot)
  if isLive ∧ entry.count = 0 then found (.uncounted l)
  if h.tables.zones.slots[i]? = some l then found (.repeated l)

/-- A reference of a black cell or root leads to a live cell that is not white. -/
def auditReference (h : Heap) (parent : Location) (handle : Handle) : Finding Unit :=
  match h.resolve handle with
  | none => found (.dangling parent handle)
  | some child =>
    if h.tables.color? child = some .white then found (.unshaded parent child) else .ok ()

/-- The black cells and then the roots, in table order. -/
def scannedCells (h : Heap) : List Location :=
  h.tables.zones.slots.toList.take h.tables.zones.blackTop ++ h.tables.roots.locations

/-- The first violation, if there is one. -/
def audit (h : Heap) : Finding Unit := do
  let t := h.tables
  unless t.zones.isOrdered do found (.disorder t.zones)
  t.zones.slots.toList.zipIdx.forM fun (l, i) => h.auditSlot l i
  t.roots.entries.toList.zipIdx.forM fun (entry, i) => h.auditEntry entry i
  let named := t.zones.capacity + t.roots.capacity
  if named ≠ t.storage.cells then found (.unnamed t.storage.cells named)
  h.scannedCells.forM fun parent => do
    let cell ← h.auditedCell parent
    cell.handles.forM (h.auditReference parent)

/-- Whether the tables are as they should be. -/
def check (h : Heap) : Except (Failure HeapError) Unit :=
  match h.audit with
  | .ok () => .ok ()
  | .error e => .error (e.map fun v => .corrupt v.message)

end Heap

end ConsHeap
