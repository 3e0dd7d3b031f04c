import ConsHeap.Proofs.Ledger.Balance
import ConsHeap.Proofs.Memory.Effects
import Mathlib.Algebra.Order.BigOperators.Group.List
import Mathlib.Algebra.Order.Group.Nat
import Mathlib.Data.Fintype.OfMap
import Mathlib.Data.Fintype.Prod

/-!
# Objects in cells

Every cell of a heap holds its two values, be it live, dead or spare, until its storage is used again.

* `Cell.values`, `Heap.values`, `View.values`: the values in a cell, in all cells, and at a location.
* `View.held`: how often objects are held by cells.
* `View.Keeps`: changes after which every cell holds what it held. Cells that come in hold nothing.
* `View.held_store`: what a cell holds changes in one place.
* `View.Effect.keeps`: **operations that store nothing keep all that is held.**
* `Heap.held_view`, `Heap.all_view`: the cells of a view are those of all pages.
-/

namespace ConsHeap

open Ledger

/-- The two values in a cell. -/
def Cell.values (c : Cell) : List Value := [c.car, c.cdr]

/-- The values in all cells of a heap, on all pages. -/
def Heap.values (h : Heap) : List Value := h.tables.storage.allCells.flatMap Cell.values

/-- Whether an operation stores values. -/
def Operation.stores {α : Type} : Operation α → Bool
  | .cons .. | .rootedCons .. | .list _ | .setChild .. => true
  | _ => false

noncomputable instance : Fintype Location :=
  Fintype.ofInjective (fun l : Location => (l.page.toFin, l.offset.toFin)) fun l m h => by
    obtain ⟨hpage, hoffset⟩ := Prod.mk.inj h
    obtain ⟨p, o⟩ := l
    obtain ⟨q, r⟩ := m
    rw [Location.mk.injEq]
    exact ⟨UInt32.toFin_inj.1 hpage, UInt32.toFin_inj.1 hoffset⟩

namespace View

variable {v w g : View} {l m : Location} {c d : Cell} {op : Operation Value}
  {r : Except HeapError Result} {P : Value → Prop}

/-- The values in the cell at a location, if there is one. -/
def values (v : View) (l : Location) : List Value := (v.contents l).elim [] Cell.values

/-- How often objects are held by cells. -/
noncomputable def held (v : View) : Nat → Nat := ∑ l, holdersIn (v.values l)

/-- Holds when every value in a cell has a property. -/
def All (P : Value → Prop) (v : View) : Prop := ∀ l, ∀ x ∈ v.values l, P x

theorem All.of_contents (h : v.All P) (hc : v.contents l = some c) : P c.car ∧ P c.cdr := by
  have hvalues : v.values l = c.values := by rw [values, hc, Option.elim_some]
  have hl := h l
  rw [hvalues] at hl
  exact ⟨hl _ List.mem_cons_self, hl _ (List.mem_cons_of_mem _ List.mem_cons_self)⟩

/-! ## Changes that store nothing -/

/-- Every cell has the contents that it had, and cells that were never used may have come in. -/
def Keeps (v w : View) : Prop := ∃ g, v.Grows g ∧ w.contents = g.contents

theorem Keeps.of_contents (h : w.contents = v.contents) : v.Keeps w := ⟨v, .refl v, h⟩

theorem Grows.keeps (h : v.Grows w) : v.Keeps w := ⟨w, h, rfl⟩

/-- A cell that has come in holds no object. -/
theorem Grows.values (h : v.Grows w) (l : Location) :
    w.values l = v.values l ∨ v.values l = [] ∧ w.values l = [.nil, .nil] := by
  cases hv : v.contents l with
  | some c => exact .inl (by rw [View.values, View.values, hv, h.kept l c hv])
  | none =>
    cases hw : w.contents l with
    | none => exact .inl (by rw [View.values, View.values, hv, hw])
    | some c =>
      right
      rw [View.values, View.values, hv, hw, h.fresh l c hv hw]
      exact ⟨rfl, rfl⟩

theorem Keeps.values (h : v.Keeps w) (l : Location) :
    w.values l = v.values l ∨ v.values l = [] ∧ w.values l = [.nil, .nil] := by
  obtain ⟨g, hg, hcontents⟩ := h
  have hsame : w.values l = g.values l := by rw [View.values, View.values, hcontents]
  rw [hsame]
  exact hg.values l

/-- What is held by cells stays held. -/
theorem Keeps.held (h : v.Keeps w) : w.held = v.held := by
  refine Finset.sum_congr rfl fun l _ => ?_
  rcases h.values l with hl | ⟨hv, hw⟩
  · rw [hl]
  · rw [hv, hw]
    rfl

theorem Keeps.all (h : v.Keeps w) (hall : v.All P) (hnil : P .nil) : w.All P := by
  intro l x hx
  rcases h.values l with hl | ⟨-, hw⟩
  · rw [hl] at hx
    exact hall l x hx
  · rw [hw] at hx
    rcases List.mem_pair.1 hx with rfl | rfl <;> exact hnil

/-! ## Changes of one cell -/

theorem values_store (v : View) (l : Location) (d : Cell) (m : Location) :
    (v.store l d).values m = if m = l then d.values else v.values m := by
  by_cases hm : m = l
  · subst hm
    rw [if_pos rfl, values]
    simp [store]
  · rw [if_neg hm, values, values]
    simp [store, Function.update_of_ne hm]

/-- The values of one cell are exchanged. -/
theorem held_store (v : View) (l : Location) (d : Cell) :
    (v.store l d).held + holdersIn (v.values l) = v.held + holdersIn d.values := by
  classical
  have hrest : ∀ m ∈ Finset.univ.erase l, holdersIn ((v.store l d).values m) = holdersIn (v.values m) := by
    intro m hm
    rw [values_store, if_neg (Finset.mem_erase.1 hm).1]
  unfold View.held
  rw [← Finset.sum_erase_add _ _ (Finset.mem_univ l), Finset.sum_congr rfl hrest,
    ← Finset.sum_erase_add (f := fun m => holdersIn (v.values m)) _ (Finset.mem_univ l), values_store, if_pos rfl]
  exact add_right_comm ..

theorem All.store (h : v.All P) (hcar : P d.car) (hcdr : P d.cdr) : (v.store l d).All P := by
  intro m x hx
  rw [values_store] at hx
  split at hx
  · rcases List.mem_pair.1 hx with rfl | rfl
    · exact hcar
    · exact hcdr
  · exact h m x hx

/-! ## Operations -/

theorem Scans.contents {n : Nat} (h : v.Scans n w) : w.contents = v.contents := by
  induction h with
  | done => rfl
  | next _ _ ih => exact ih

/-- **Operations that store nothing keep all that is held.** -/
theorem Effect.keeps (he : v.Effect op r w) (hop : op.stores = false) : v.Keeps w := by
  cases he with
  | refused => exact .of_contents rfl
  | cons | rootedCons | list | listRefused | setChild => cases hop
  | rootAgain | unrootOne | shade | startCycle | sweep => exact .of_contents rfl
  | rootFirst _ _ hg => exact ⟨_, hg, rfl⟩
  | unrootLast _ _ _ hg => exact ⟨_, hg, rfl⟩
  | scan hs => exact .of_contents hs.contents
  | collect hc =>
    obtain ⟨hscans, -, -, -⟩ := hc
    exact .of_contents hscans.contents

end View

/-! ## All cells -/

/-- Pages and cells of sound tables are numbered by words. -/
theorem Tables.Sound.numbered {t : Tables} (h : t.Sound) : t.storage.Numbered where
  pages := Nat.le_of_lt h.pages_lt
  slots := by
    intro i page hpage
    have hmem : page.size ∈ t.storage.sizes :=
      List.mem_map.2 ⟨page, List.mem_of_getElem? (by rw [Array.getElem?_toList]; exact hpage), rfl⟩
    have hle := List.le_sum_of_mem hmem
    have hcells := h.cells
    have hslots := h.slots_le
    have hentries := h.entries_le
    rw [h.storage.cells] at hcells
    simp only [Placement.maxSlot] at hslots hentries
    simp only [UInt32.size]
    omega

/-- What the cells of a view hold is what the cells on all pages hold. -/
theorem Heap.held_view {h : Heap} (hs : h.tables.Sound) :
    h.view.held = holdersIn h.values := by
  classical
  let s := h.tables.storage
  let f : Option Cell → Nat → Nat := fun c => holdersIn (c.elim [] Cell.values)
  have hvalues : ∀ l, holdersIn (h.view.values l) = f (s.get? l) := by
    intro l
    show holdersIn (((s.get? l).map Cell.contents).elim [] Cell.values) = _
    cases s.get? l <;> rfl
  have houtside : ∀ l ∈ Finset.univ, l ∉ s.locations.toFinset → f (s.get? l) = 0 := by
    intro l _ hl
    cases hc : s.get? l with
    | none => rfl
    | some c => exact absurd (List.mem_toFinset.2 (Storage.mem_locations hc)) hl
  calc h.view.held = ∑ l, f (s.get? l) := Finset.sum_congr rfl fun l _ => hvalues l
    _ = ∑ l ∈ s.locations.toFinset, f (s.get? l) :=
      (Finset.sum_subset (Finset.subset_univ _) houtside).symm
    _ = (s.locations.map fun l => f (s.get? l)).sum :=
      List.sum_toFinset _ (Storage.nodup_locations hs.numbered)
    _ = ((s.allCells.map some).map f).sum := by
      rw [← Storage.map_get?_locations hs.numbered, List.map_map]
      rfl
    _ = holdersIn h.values := by
      rw [Heap.values, holdersIn_flatMap, List.map_map]
      rfl

/-- The values in the cells of a view are those in the cells on all pages. -/
theorem Heap.all_view {h : Heap} (hs : h.tables.Sound) {P : Value → Prop} :
    h.view.All P ↔ ∀ x ∈ h.values, P x := by
  have hcells : ∀ c, c ∈ h.tables.storage.allCells ↔ ∃ l, h.cell? l = some c := by
    intro c
    have hmap := Storage.map_get?_locations hs.numbered
    have hmem : some c ∈ h.tables.storage.allCells.map some ↔ c ∈ h.tables.storage.allCells := by simp
    rw [← hmem, ← hmap, List.mem_map]
    constructor
    · rintro ⟨l, -, hl⟩
      exact ⟨l, hl⟩
    · rintro ⟨l, hl⟩
      exact ⟨l, Storage.mem_locations hl, hl⟩
  have hvalues : ∀ {l c}, h.cell? l = some c → h.view.values l = c.values := by
    intro l c hc
    rw [View.values, Heap.contents_view hc]
    rfl
  simp only [View.All, Heap.values, List.mem_flatMap]
  constructor
  · rintro hall x ⟨c, hc, hx⟩
    obtain ⟨l, hl⟩ := (hcells c).1 hc
    refine hall l x ?_
    rw [hvalues hl]
    exact hx
  · intro hall l x hx
    cases hc : h.cell? l with
    | none =>
      have hnone : h.view.contents l = none := by
        show (h.cell? l).map Cell.contents = none
        rw [hc, Option.map_none]
      rw [View.values, hnone] at hx
      cases hx
    | some c =>
      rw [hvalues hc] at hx
      exact hall x ⟨c, (hcells c).2 ⟨l, hc⟩, hx⟩

end ConsHeap
