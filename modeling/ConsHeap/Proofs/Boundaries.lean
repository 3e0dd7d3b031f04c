import ConsHeap.Proofs.Pages

/-!
# The boundaries of the zones

Cells and slots are exchanged in many places, but the boundaries of the zones are shifted in a few.

* `Tables.keeps_zones_updateCell`, `Tables.keeps_zones_place`: writing a cell leaves the cons table alone.
* `Zones.lower`: the end of the black zone and the begin of the grey one. Shading leaves both.
* `Heap.lower_of_sweep`, `Heap.lower_of_collect`: after a sweep both are zero, so there is no gap.
* `Memory.zones_fill`: a new cell shifts just the end of the white zone.
-/

namespace ConsHeap

variable {α γ : Type}

/-- The end of the black zone and the begin of the grey one, with the gap between them. -/
def Zones.lower (z : Zones) : Nat × Nat := (z.blackTop, z.greyBegin)

namespace Tables

/-! ## Cells are not part of the cons table -/

theorem keeps_zones_cellAt (l : Location) : Keeps zones (cellAt l) := by
  refine .bind .get fun t => ?_
  split
  · exact .pure _
  · exact keeps_fault _

theorem keeps_zones_putCell (l : Location) (c : Cell) : Keeps zones (putCell l c) := .change fun _ => rfl

theorem keeps_zones_updateCell (l : Location) (f : Cell → Cell) : Keeps zones (updateCell l f) :=
  (keeps_zones_cellAt l).bind fun _ => keeps_zones_putCell l _

theorem keeps_zones_place (l : Location) (i : Nat) (isRoot : Bool) : Keeps zones (place l i isRoot) :=
  (keeps_zones_cellAt l).bind fun _ => (keeps_expect _ _).bind fun _ => keeps_zones_putCell l _

theorem keeps_zones_renumber (l : Location) (i : Nat) : Keeps zones (renumber l i) :=
  (keeps_zones_cellAt l).bind fun _ => (keeps_expect _ _).bind fun _ => keeps_zones_putCell l _

theorem keeps_zones_slotAt (i : Nat) : Keeps zones (slotAt i) := by
  refine .bind .get fun t => ?_
  simp only
  split
  · exact .pure _
  · exact keeps_fault _

/-! ## Shading -/

/-- The lower boundaries of the cons table. -/
def lower (t : Tables) : Nat × Nat := t.zones.lower

theorem keeps_lower_writeSlot (i : Nat) (l : Location) : Keeps lower (writeSlot i l) := .change fun _ => rfl

theorem keeps_lower_swap (i j : Nat) : Keeps lower (swap i j) := by
  refine .ite (.pure _) ?_
  exact ((keeps_zones_slotAt i).comp Zones.lower).bind fun a =>
    ((keeps_zones_slotAt j).comp Zones.lower).bind fun b =>
    (keeps_lower_writeSlot i b).bind fun _ => (keeps_lower_writeSlot j a).bind fun _ =>
    ((keeps_zones_renumber b i).comp Zones.lower).bind fun _ => (keeps_zones_renumber a j).comp Zones.lower

/-- A white cell that becomes grey goes to the end of the grey zone. -/
theorem keeps_lower_shade (i : Nat) : Keeps lower (shade i) :=
  .bind .get fun _ => (keeps_expect _ _).bind fun _ => (keeps_lower_swap i _).bind fun _ =>
    .change fun _ => rfl

/-- At the end of a cycle nothing is black, and the gap is given up. -/
theorem lower_of_whiten {t u : Tables} (h : whiten t = .ok () u) : u.lower = (0, 0) := by
  rw [whiten, bind_get] at h
  obtain ⟨-, t₁, -, h⟩ := exists_of_bind_eq_ok h
  cases h
  rfl

end Tables

namespace Heap

variable {h h' : Heap} {n : Nat}

theorem keeps_tables_onTables {part : Tables → γ} {act : TablesM α} (h : Keeps part act) :
    Keeps (fun g : Heap => part g.tables) (onTables act) := by
  rintro ⟨id, sizing, kinds, t⟩
  have ht := h t
  cases hact : act t with
  | ok a u =>
    rw [hact] at ht
    rw [onTables_ok hact]
    exact ht
  | error e u =>
    rw [hact] at ht
    rw [onTables_error hact]
    exact ht

/-- The lower boundaries of the cons table. -/
def lower (h : Heap) : Nat × Nat := h.tables.lower

theorem keeps_lower_cellAt (l : Location) : Keeps lower (onTables (Tables.cellAt l)) :=
  keeps_tables_onTables ((Tables.keeps_zones_cellAt l).comp Zones.lower)

theorem keeps_lower_shade (l : Location) : Keeps lower (shade l) :=
  .bind .get fun _ => .ite
    ((keeps_lower_cellAt l).bind fun c => keeps_tables_onTables (Tables.keeps_lower_shade c.slot)) (.pure _)

theorem keeps_lower_shadeContents (l : Location) : Keeps lower (shadeContents l) := by
  refine (keeps_lower_cellAt l).bind fun c => .forM (fun handle => .bind .get fun h => ?_) c.handles
  split
  · exact keeps_lower_shade _
  · exact .pure _

theorem keeps_lower_startCycle : Keeps lower startCycle :=
  .bind .get fun _ => .forM keeps_lower_shadeContents _

/-- After a sweep nothing is black, and there is no gap. -/
theorem lower_of_sweep (hok : sweep h = .ok n h') : h'.lower = (0, 0) := by
  rw [sweep, bind_get] at hok
  split at hok
  · obtain ⟨count, h₁, -, hok⟩ := exists_of_bind_eq_ok hok
    obtain ⟨⟨⟩, h₂, hwhiten, hok⟩ := exists_of_bind_eq_ok hok
    obtain ⟨⟨⟩, h₃, hstart, hok⟩ := exists_of_bind_eq_ok hok
    cases hok
    obtain ⟨u, hu, rfl⟩ := exists_of_onTables_eq_ok hwhiten
    have hkept := keeps_lower_startCycle { h₁ with tables := u }
    rw [hstart] at hkept
    exact hkept.trans (Tables.lower_of_whiten hu)
  · -- a refused sweep does not answer
    obtain ⟨x, h₁, hrefused, -⟩ := exists_of_bind_eq_ok hok
    cases hrefused

/-- So it is after a collection, which ends with a sweep. -/
theorem lower_of_collect (hok : collect h = .ok n h') : h'.lower = (0, 0) := by
  obtain ⟨-, h₁, -, hsweep⟩ := exists_of_bind_eq_ok hok
  exact lower_of_sweep hsweep

end Heap

namespace Memory

variable {m m' : Memory} {tag : Tag} {car cdr : Value} {l : Location}

/-- A new cell shifts just the end of the white zone. -/
theorem zones_fill (hs : m.heap.tables.Sound) (hfull : m.heap.tables.zones.isFull = false)
    (hok : fill tag car cdr m = .ok l m') : m'.heap.tables.zones = m.heap.tables.zones.extended := by
  obtain ⟨⟨l', c⟩, m₁, hfill, hok⟩ := exists_of_bind_eq_ok hok
  obtain ⟨⟨⟩, m₂, hcar, hok⟩ := exists_of_bind_eq_ok hok
  obtain ⟨⟨⟩, m₃, hcdr, hok⟩ := exists_of_bind_eq_ok hok
  cases hcar
  cases hcdr
  cases hok
  obtain ⟨⟨id, sizing, kinds, t⟩, ledger⟩ := m
  obtain ⟨u, k, hu, rfl, -⟩ := Tables.extendWhite_ok hs.zones hfull
  -- after the shift only cells are written
  have hrest : Keeps (fun g : Heap => g.tables.zones) (do
      let l ← Heap.onTables (Tables.slotAt t.zones.whiteTop)
      let old ← Heap.onTables (Tables.cellAt l)
      Heap.onTables (Tables.updateCell l (·.renew tag car cdr))
      Heap.onTables (Tables.place l t.zones.whiteTop false)
      return (l, old) : HeapM (Location × Cell)) :=
    (Heap.keeps_tables_onTables (Tables.keeps_zones_slotAt _)).bind fun l =>
      (Heap.keeps_tables_onTables (Tables.keeps_zones_cellAt l)).bind fun _ =>
      (Heap.keeps_tables_onTables (Tables.keeps_zones_updateCell l _)).bind fun _ =>
      (Heap.keeps_tables_onTables (Tables.keeps_zones_place l _ _)).bind fun _ => .pure _
  have hkept := hrest ⟨id, sizing, kinds, { t with zones := t.zones.extended }⟩
  have hheap := heap_onHeap (Heap.fill tag car cdr) ⟨⟨id, sizing, kinds, t⟩, ledger⟩
  rw [hfill, Heap.fill, bind_ok (Heap.onTables_ok hu)] at hheap
  show m₁.heap.tables.zones = _
  rw [show m₁.heap = _ from hheap]
  exact hkept

end Memory

end ConsHeap
