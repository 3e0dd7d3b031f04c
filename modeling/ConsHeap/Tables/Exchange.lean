import ConsHeap.Tables.Basic

/-!
# Moves in the root table

A cell comes in from the cons table in exchange for a spare cell, and goes back the same way.

* `Tables.growRoots`: a page of spare entries.
* `Tables.enrol`: a cell becomes a root.
* `Tables.increase`, `Tables.decrease`: the count of a root.
* `Tables.dismiss`, `Tables.park`: a root leaves the table, and a spare cell takes its entry.
-/

namespace ConsHeap.Tables

/-- What an entry of the root table takes in memory. -/
def entryWidth : Nat := 16

/-- The entry at an index. -/
def entryAt (i : Nat) : TablesM RootEntry := do
  let entries := (← get).roots.entries
  match entries[i]? with
  | some entry => return entry
  | none => fault (.outOfRange i entries.size)

/-- Change the root table. -/
def modifyRoots (f : Roots → Roots) : TablesM Unit :=
  modify fun t => { t with roots := f t.roots }

/-- Exchange the entry at an index. -/
def writeEntry (i : Nat) (entry : RootEntry) : TablesM Unit :=
  modifyRoots fun r => { r with entries := r.entries.setIfInBounds i entry }

/-- Add a page of `count` spare entries. -/
def growRoots (count : Nat) : TablesM Unit := do
  let size := (← get).roots.capacity
  onStorage (Storage.reserve entryWidth size count)
  let new ← onStorage (Storage.addPage count size)
  modifyRoots fun r => { r with entries := r.entries ++ new.map (RootEntry.mk · 0) }

/-- Cut off the spare entries past `capacity`. -/
def cutEntries (capacity : Nat) : TablesM Unit := do
  expect ((← get).roots.live ≤ capacity) .keepsLiveRoots
  modifyRoots fun r => { r with entries := r.entries.take capacity }

/-- Add one to the count of a root. The new count is returned. -/
def increase (i : Nat) : TablesM Nat := do
  expect (i < (← get).roots.live) .isLiveRoot
  let entry ← entryAt i
  writeEntry i { entry with count := entry.count + 1 }
  return entry.count + 1

/-- Take one from the count of a root. The new count is returned. -/
def decrease (i : Nat) : TablesM Nat := do
  expect (i < (← get).roots.live) .isLiveRoot
  let entry ← entryAt i
  expect (0 < entry.count) .isCounted
  let count ← minus entry.count 1
  writeEntry i { entry with count }
  return count

/-- Add a root with a count of one. The spare cell whose entry it takes is returned. -/
def enrol (l : Location) : TablesM Location := do
  let r := (← get).roots
  expect (!r.isFull) .hasFreeRoot
  let spare ← entryAt r.live
  writeEntry r.live ⟨l, 1⟩
  place l r.live true
  modifyRoots fun r => { r with live := r.live + 1 }
  return spare.location

/-- Take a root with a count of zero out of the live entries. The last live entry comes to its
place, and the index of the entry that still names the retired cell is returned. -/
def dismiss (i : Nat) : TablesM Nat := do
  let r := (← get).roots
  expect (i < r.live) .isLiveRoot
  let entry ← entryAt i
  expect (entry.count == 0) .isCounted
  let last ← minus r.live 1
  if i ≠ last then
    let other ← entryAt last
    writeEntry i other
    writeEntry last entry
    renumber other.location i
    renumber entry.location last
  modifyRoots fun r => { r with live := last }
  return last

/-- Put a spare cell into an entry past the live ones. The location it named is returned. -/
def park (i : Nat) (incoming : Location) : TablesM Location := do
  expect ((← get).roots.live ≤ i) .isSpareRoot
  let outgoing ← entryAt i
  writeEntry i ⟨incoming, 0⟩
  place incoming i false
  return outgoing.location

end ConsHeap.Tables
