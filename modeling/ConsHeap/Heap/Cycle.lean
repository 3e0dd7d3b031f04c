import ConsHeap.Heap.Shading

/-!
# The collection cycle

A cycle starts with the children of every root grey. Scanning makes grey cells black and their
white children grey. When no grey cell is left, every white cell is unreachable, and a sweep
returns the white zone to the free tail. The contents of the cells stay there until their storage
is used again.

* `Heap.scan`: blackens up to a number of cells.
* `Heap.sweep`: reclaims the white cells and starts the next cycle.
* `Heap.collect`: both.
-/

namespace ConsHeap.Heap

/-- Blacken up to `budget` cells after `done` of them. The number of all is returned. -/
def scanFrom (done : Nat) : Nat → HeapM Nat
  | 0 => return done
  | budget + 1 => do
    match ← onTables Tables.blacken with
    | none => return done
    | some l =>
      shadeContents l
      scanFrom (done + 1) budget

/-- Blacken up to `budget` grey cells. Their number is returned. -/
def scan (budget : Nat) : HeapM Nat := scanFrom 0 budget

/-- The children of every root become grey, root by root. -/
def startCycle : HeapM Unit := do
  (← get).tables.roots.locations.forM shadeContents

/-- Reclaim every white cell and start the next cycle. The number of reclaimed cells is
returned. -/
def sweep : HeapM Nat := do
  unless (← get).isScanned do refuse .unscanned
  let count ← onTables Tables.reclaim
  onTables Tables.whiten
  startCycle
  return count

/-- More cells than any heap has. -/
def wholeHeap : Nat := UInt64.size - 1

/-- Scan everything, then sweep. -/
def collect : HeapM Nat := do
  let _ ← scan wholeHeap
  sweep

end ConsHeap.Heap
