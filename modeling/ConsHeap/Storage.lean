import ConsHeap.Cell
import ConsHeap.Failure
import ConsHeap.Paging.Page

/-!
# Storage

The pages that hold all cells of a heap. Both tables draw their pages here, on one budget.

* `Storage.get?`: the cell at a location.
* `Storage.set`: another cell at a location. No other location sees it (`Storage.get?_set`).
* `Storage.addPage`: a page of spare cells.
* `Storage.dropPage`: undoes the last growth.
-/

namespace ConsHeap

open Paging

/-- All cells of a heap, by page. -/
structure Storage where
  pages : Array (Page Cell)
  budget : Budget
  cells : Nat
  deriving Inhabited

/-- Actions on storage. -/
abbrev StorageM := EStateM (Failure HeapError) Storage

namespace Storage

/-- Storage without pages. -/
def ofLimit (limit : Option Nat) : Storage := ⟨#[], .ofLimit limit, 0⟩

/-- The cell at a location. -/
def get? (s : Storage) (l : Location) : Option Cell :=
  s.pages[l.page.toNat]?.bind (·.get? l.offset.toNat)

/-- Holds of the locations that have a cell. -/
def contains (s : Storage) (l : Location) : Bool := (s.get? l).isSome

/-- The storage with another cell at a location. Where there is no cell, nothing changes. -/
def set (s : Storage) (l : Location) (c : Cell) : Storage :=
  { s with pages := s.pages.modify l.page.toNat (·.set l.offset.toNat c) }

/-- What is at a location after a cell was put there, or elsewhere. -/
theorem get?_set (s : Storage) (l m : Location) (c : Cell) :
    (s.set l c).get? m = if m = l then (s.get? m).map fun _ => c else s.get? m := by
  obtain ⟨p, o⟩ := l
  obtain ⟨q, r⟩ := m
  simp only [get?, set, Array.getElem?_modify, Location.mk.injEq]
  by_cases hp : q = p
  · subst hp
    cases s.pages[q.toNat]? with
    | none => simp
    | some page =>
      simp only [if_true, Option.map_some, Option.bind_some, Paging.Page.get?, Paging.Page.set,
        Array.getElem?_setIfInBounds, true_and]
      by_cases hr : r = o
      · subst hr; by_cases h : r.toNat < page.slots.size <;> simp [h]
      · have : o.toNat ≠ r.toNat := fun h => hr (UInt32.toNat_inj.1 h.symm)
        simp [hr, this]
  · have : p.toNat ≠ q.toNat := fun h => hp (UInt32.toNat_inj.1 h.symm)
    simp [hp, this]

/-- The locations of page `n` if it has `count` cells. -/
def pageLocations (n count : Nat) : List Location := (List.range count).map (.ofNat n)

/-- Every location that has a cell, by page and offset. -/
def locations (s : Storage) : List Location :=
  s.pages.toList.zipIdx.flatMap fun (page, n) => pageLocations n page.size

/-- Every location with a cell is listed. -/
theorem mem_locations {s : Storage} {l : Location} {c : Cell} (h : s.get? l = some c) :
    l ∈ s.locations := by
  obtain ⟨page, hp, hc⟩ := Option.bind_eq_some_iff.1 h
  rw [locations, List.mem_flatMap]
  refine ⟨(page, l.page.toNat), ?_, ?_⟩
  · rw [List.mk_mem_zipIdx_iff_getElem?, Array.getElem?_toList]; exact hp
  · obtain ⟨hlt, -⟩ := Array.getElem?_eq_some_iff.1 hc
    exact List.mem_map.2 ⟨l.offset.toNat, List.mem_range.2 hlt, Location.ofNat_toNat l⟩

/-- Every cell, by page and offset. -/
def allCells (s : Storage) : List Cell := s.pages.toList.flatMap (·.slots.toList)

/-- Run an action on the budget. -/
def onBudget {α : Type} (act : BudgetM α) : StorageM α := fun s =>
  match act s.budget with
  | .ok a budget => .ok a { s with budget }
  | .error e budget => .error (.error (.ofPage e)) { s with budget }

/-- Make room for `more` entries of `width` bytes after the `present` ones. -/
def reserve (width present more : Nat) : StorageM Unit := do
  match Paging.reserve (← get).budget.grants width present more with
  | .ok () => return ()
  | .error e => refuse (.ofPage e)

/-- What a location takes in memory. -/
def locationWidth : Nat := 8

/-- What the record of a page takes in memory. -/
def pageWidth : Nat := 24

/-- A page of `count` spare cells that record the slots from `first` on. The locations of the new
cells are returned. Slots beyond the largest number are refused before any memory is. -/
def addPage (count first : Nat) : StorageM (List Location) := do
  if wordLimit ≤ first + count ∨ Placement.maxSlot < first + count then
    refuse .badRequest
  reserve locationWidth 0 count
  reserve pageWidth (← get).pages.size 1
  let page ← onBudget (Page.make Cell.layout count fun i => Cell.spare (first + i))
  let number := (← get).pages.size
  modify fun s => { s with pages := s.pages.push page, cells := s.cells + count }
  return pageLocations number count

/-- Give up the last page. For undoing a growth whose cells are not in use. -/
def dropPage : StorageM Unit := do
  match (← get).pages.back? with
  | none => return ()
  | some page =>
    let cells ← minus (← get).cells page.size
    expect (0 < (← get).budget.used) .isCharged
    modify fun s => { pages := s.pages.pop, budget := s.budget.refund, cells }

end Storage

end ConsHeap
