import ConsHeap.Kinds
import ConsHeap.Sizing
import ConsHeap.Tables.Moves
import ConsHeap.Tables.Exchange

/-!
# Heaps

A heap owns its tables and knows the kinds of its objects. It answers for its own live cells only:
a handle resolves when it has the identity of this heap, its storage is still of the same generation,
and the cell there is live.

* `Heap.resolve`: the location that a handle stands for.
* `Heap.live`: the location of a value that has to be a live cons.
* `Heap.accepts`: whether a value may be stored, that is, whether all handles in it resolve.
* `Heap.child`, `Heap.color`, `Heap.slot`, `Heap.rootCount`, `Heap.occupancy`: what can be asked.
-/

namespace ConsHeap

/-- A heap of cells. -/
structure Heap where
  id : UInt32
  sizing : Sizing
  kinds : Kinds
  tables : Tables
  deriving Inhabited

/-- Actions on a heap. -/
abbrev HeapM := EStateM (Failure HeapError) Heap

/-- The number of cells in each zone, and the sizes of the tables. -/
structure Occupancy where
  black : Nat
  gap : Nat
  grey : Nat
  white : Nat
  free : Nat
  capacity : Nat
  roots : Nat
  rootCapacity : Nat
  pages : Nat
  deriving DecidableEq

namespace Heap

/-- A heap in which nothing is allocated yet. -/
def new (id : UInt32) (sizing : Sizing) : Heap :=
  ⟨id, sizing, .standard, .ofLimit sizing.pageLimit⟩

/-- The heap when the system has other memory to give. -/
def supplied (h : Heap) (supply : Paging.Supply) : Heap :=
  { h with tables := h.tables.supplied supply }

/-- The cell at a location. -/
def cell? (h : Heap) (l : Location) : Option Cell := h.tables.storage.get? l

/-- The location that a handle stands for. -/
def resolve (h : Heap) (handle : Handle) : Option Location :=
  match h.cell? handle.location with
  | none => none
  | some cell =>
    if handle.heap = h.id ∧ cell.generation = handle.generation ∧
        (h.tables.color? handle.location).isSome then
      some handle.location
    else none

/-- A handle resolves to its own location, when this heap issued it for the cell that lives there
now. -/
theorem resolve_eq_some_iff {h : Heap} {handle : Handle} {l : Location} :
    h.resolve handle = some l ↔
      handle.heap = h.id ∧ handle.location = l ∧ (h.tables.color? l).isSome ∧
        ∃ cell, h.cell? l = some cell ∧ cell.generation = handle.generation := by
  unfold resolve
  constructor
  · intro hr
    split at hr
    · cases hr
    · next cell hcell =>
      obtain ⟨⟨hid, hgen, hcolor⟩, hl⟩ := Option.ite_none_right_eq_some.1 hr
      cases hl
      exact ⟨hid, rfl, hcolor, cell, hcell, hgen⟩
  · rintro ⟨hid, rfl, hcolor, cell, hcell, hgen⟩
    simp [hid, hcolor, hcell, hgen]

/-- The location of a value that has to be a live cons. -/
def live (h : Heap) (v : Value) : Except HeapError Location :=
  match v.handle? with
  | none => .error (.wrongType .cons v.tag)
  | some handle =>
    match h.resolve handle with
    | none => .error .foreign
    | some l => .ok l

/-- The location and the cell of a value that has to be a live cons. -/
def liveCell (h : Heap) (v : Value) : Except HeapError (Location × Cell) := do
  let l ← h.live v
  match h.cell? l with
  | some cell => return (l, cell)
  | none => throw .foreign

/-- Holds of the values that may be stored in a cell. -/
def accepts (h : Heap) (v : Value) : Bool := v.handles.all fun handle => (h.resolve handle).isSome

/-- The value on one side of a cons. -/
def child (h : Heap) (side : Side) (v : Value) : Except HeapError Value := do
  let (_, cell) ← h.liveCell v
  return cell.child side

/-- The slot of a cons, in the table that it is in. -/
def slot (h : Heap) (v : Value) : Except HeapError Nat := do
  let (_, cell) ← h.liveCell v
  return cell.slot

/-- The colour of a cons. -/
def color (h : Heap) (v : Value) : Except HeapError Color := do
  let l ← h.live v
  match h.tables.color? l with
  | some c => return c
  | none => throw .foreign

/-- The root count of a rooted cons, and zero for any other value. -/
def rootCount (h : Heap) (v : Value) : Except Fault Nat :=
  match h.liveCell v with
  | .error _ => .ok 0
  | .ok (_, cell) =>
    if cell.isRoot then
      match h.tables.roots.entries[cell.slot]? with
      | some entry => .ok entry.count
      | none => .error (.outOfRange cell.slot h.tables.roots.capacity)
    else .ok 0

/-- The difference of two numbers, or a fault. -/
def gapBetween (low high : Nat) : Except Fault Nat :=
  if low ≤ high then .ok (high - low) else .error .negative

/-- The number of cells in each zone, and the sizes of the tables. -/
def occupancy (h : Heap) : Except Fault Occupancy := do
  let z := h.tables.zones
  return {
    black := z.blackTop
    gap := ← gapBetween z.blackTop z.greyBegin
    grey := ← gapBetween z.greyBegin z.greyTop
    white := ← gapBetween z.greyTop z.whiteTop
    free := ← gapBetween z.whiteTop z.capacity
    capacity := z.capacity
    roots := h.tables.roots.live
    rootCapacity := h.tables.roots.capacity
    pages := h.tables.storage.pages.size }

/-- Holds when no grey cell is left to scan. -/
def isScanned (h : Heap) : Bool := !h.tables.zones.hasGrey

/-- Run an action on the tables. -/
def onTables {α : Type} (act : TablesM α) : HeapM α := fun h =>
  match h with
  | ⟨id, sizing, kinds, tables⟩ =>
    match act tables with
    | .ok a tables => .ok a ⟨id, sizing, kinds, tables⟩
    | .error e tables => .error e ⟨id, sizing, kinds, tables⟩

/-- Refuse a value that may not be stored. -/
def checkChild (v : Value) : HeapM Unit := do
  unless (← get).accepts v do refuse .foreign

/-- Give an object tag a kind. -/
def register (tag : Tag) (kind : Kind) : HeapM Unit := do
  let kinds ← answer ((← get).kinds.register tag kind)
  modify fun h => { h with kinds }

end Heap

end ConsHeap
