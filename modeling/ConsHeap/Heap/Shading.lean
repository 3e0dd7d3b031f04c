import ConsHeap.Heap.Basic

/-!
# Shading

No root and no black cell refers to a white cell, by itself or through the objects it holds. So
before such a reference comes about, the white cell becomes grey.

* `Heap.shade`: a white cell becomes grey, any other stays.
* `Heap.shadeContents`: for a cell that has become root or black.
* `Heap.barrier`: for a value that was stored into a cell.
* `Heap.shadeValue`: for a caller that knows better.
-/

namespace ConsHeap.Heap

/-- A white cell becomes grey. -/
def shade (l : Location) : HeapM Unit := do
  if (← get).tables.color? l = some .white then
    let cell ← onTables (Tables.cellAt l)
    onTables (Tables.shade cell.slot)

/-- Every white cell that one of the handles stands for becomes grey, in order. -/
def shadeHandles (handles : List Handle) : HeapM Unit :=
  handles.forM fun handle => do
    match (← get).resolve handle with
    | some l => shade l
    | none => return ()

/-- Every white cell that a cell refers to becomes grey. -/
def shadeContents (l : Location) : HeapM Unit := do
  let cell ← onTables (Tables.cellAt l)
  shadeHandles cell.handles

/-- After `v` was stored into the cell at `l`: if that is root or black, every white cell that `v`
refers to becomes grey. -/
def barrier (l : Location) (v : Value) : HeapM Unit := do
  match (← get).tables.color? l with
  | some .root | some .black => shadeHandles v.handles
  | _ => return ()

/-- A white cons becomes grey, any other stays. -/
def shadeValue (v : Value) : HeapM Unit := do
  shade (← answer ((← get).live v))

end ConsHeap.Heap
