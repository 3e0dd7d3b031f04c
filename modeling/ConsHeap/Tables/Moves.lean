import ConsHeap.Tables.Basic

/-!
# Moves in the cons table

A cell goes from zone to zone by an exchange of two slots and a shift of the boundaries. Contents
of cells are never copied.

* `Tables.growZones`: a page of free slots.
* `Tables.extendWhite`: the first free slot becomes white.
* `Tables.takeOut`: a live cell leaves its zone.
* `Tables.shade`: a white cell becomes grey.
* `Tables.extendBlack`: a slot for one more black cell.
* `Tables.blacken`: the first grey cell becomes black.
* `Tables.reclaim`, `Tables.whiten`: the end of a cycle.
-/

namespace ConsHeap.Tables

/-- What a slot of the cons table takes in memory. -/
def slotWidth : Nat := Storage.locationWidth

/-- The location that a slot names. -/
def slotAt (i : Nat) : TablesM Location := do
  let slots := (← get).zones.slots
  match slots[i]? with
  | some l => return l
  | none => fault (.outOfRange i slots.size)

/-- Change the cons table. -/
def modifyZones (f : Zones → Zones) : TablesM Unit :=
  modify fun t => { t with zones := f t.zones }

/-- Let a slot name another location. -/
def writeSlot (i : Nat) (l : Location) : TablesM Unit :=
  modifyZones fun z => { z with slots := z.slots.setIfInBounds i l }

/-- Add a page of `count` free slots. -/
def growZones (count : Nat) : TablesM Unit := do
  let size := (← get).zones.capacity
  onStorage (Storage.reserve slotWidth size count)
  let new ← onStorage (Storage.addPage count size)
  modifyZones fun z => { z with slots := z.slots ++ new }

/-- Cut off the free slots past `capacity`. -/
def cutSlots (capacity : Nat) : TablesM Unit := do
  expect ((← get).zones.whiteTop ≤ capacity) .keepsLiveSlots
  modifyZones fun z => { z with slots := z.slots.take capacity }

/-- Exchange what two slots name, and record the slots in both cells. -/
def swap (i j : Nat) : TablesM Unit := do
  if i = j then return ()
  let a ← slotAt i
  let b ← slotAt j
  writeSlot i b
  writeSlot j a
  renumber b i
  renumber a j

/-- Let slot `i` name `incoming`. The location it named is returned. -/
def exchange (i : Nat) (incoming : Location) : TablesM Location := do
  let outgoing ← slotAt i
  writeSlot i incoming
  place incoming i false
  return outgoing

/-- The first free slot becomes white. -/
def extendWhite : TablesM Nat := do
  let z := (← get).zones
  expect (!z.isFull) .hasFreeSlot
  modifyZones fun z => { z with whiteTop := z.whiteTop + 1 }
  return z.whiteTop

/-- Take the cell at a slot out of its zone. The last cell of the zone fills its place. The slot in
which it is left, outside every live zone, is returned. -/
def takeOut (i : Nat) : TablesM Nat := do
  let z := (← get).zones
  match z.zone i with
  | .black =>
    let last ← minus z.blackTop 1
    swap i last
    modifyZones fun z => { z with blackTop := last }
    return last
  | .grey =>
    let lastGrey ← minus z.greyTop 1
    swap i lastGrey
    let lastWhite ← minus z.whiteTop 1
    swap lastGrey lastWhite
    modifyZones fun z => { z with greyTop := lastGrey, whiteTop := lastWhite }
    return lastWhite
  | .white =>
    let last ← minus z.whiteTop 1
    swap i last
    modifyZones fun z => { z with whiteTop := last }
    return last
  | .gap | .free => fault (.deadSlot i)

/-- The white cell at a slot becomes the last grey one. -/
def shade (i : Nat) : TablesM Unit := do
  let z := (← get).zones
  expect (z.zone i = .white) .isWhite
  swap i z.greyTop
  modifyZones fun z => { z with greyTop := z.greyTop + 1 }

/-- Make the black zone one slot larger. The new slot still names a spare cell, for the caller to
exchange. It is the first of the gap, if there is one. Otherwise the first white and the first grey
cell go to the end of their zones, so that a free slot comes to lie between black and grey; the
oldest grey cell is then the newest. -/
def extendBlack : TablesM Nat := do
  let z := (← get).zones
  if z.hasGap then
    modifyZones fun z => { z with blackTop := z.blackTop + 1 }
    return z.blackTop
  else
    expect (!z.isFull) .hasFreeSlot
    swap z.greyTop z.whiteTop
    swap z.greyBegin z.greyTop
    modifyZones fun z => { z with
      blackTop := z.blackTop + 1
      greyBegin := z.greyBegin + 1
      greyTop := z.greyTop + 1
      whiteTop := z.whiteTop + 1 }
    return z.greyBegin

/-- The first grey cell becomes the last black one. -/
def blacken : TablesM (Option Location) := do
  let z := (← get).zones
  if !z.hasGrey then return none
  if z.hasGap then swap z.blackTop z.greyBegin
  let l ← slotAt z.blackTop
  modifyZones fun z => { z with blackTop := z.blackTop + 1, greyBegin := z.greyBegin + 1 }
  return some l

/-- The white zone joins the free tail. The number of its cells is returned. -/
def reclaim : TablesM Nat := do
  let z := (← get).zones
  let count ← minus z.whiteTop z.greyTop
  modifyZones fun z => { z with whiteTop := z.greyTop }
  return count

/-- Start a cycle: black becomes white, and the gap joins the free tail. -/
def whiten : TablesM Unit := do
  let z := (← get).zones
  expect (!z.hasGrey && z.greyTop == z.whiteTop) .isScanned
  modifyZones fun z =>
    { z with whiteTop := z.blackTop, blackTop := 0, greyBegin := 0, greyTop := 0 }

end ConsHeap.Tables
