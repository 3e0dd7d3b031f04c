import ConsHeap.Proofs.Integrity

/-!
# Cells and the positions that name them

The audit counts cells and positions. It never looks for the position of a cell. When no two positions name the
same cell, and there are as many positions as cells, no cell is left without one.

* `Storage.Made`, `Storage.Made.cells_eq`: whatever the functions of storage make counts its cells.
* `Tables.Distinct`, `Tables.Names`: no cell is named twice, and the place of the cell that a position names.
* `Tables.names_all_iff`: **distinct names reach every cell just if there are as many as cells.**
-/

namespace ConsHeap

open Paging

namespace Storage

variable {s : Storage} {l m : Location} {n k : Nat}

/-! ## The counter -/

/-- The storages of heaps after any run, and all that the functions of storage make of them. -/
inductive Made : Storage → Prop where
  | run (id : UInt32) (sizing : Sizing) (ledger : Ledger) (moves : List Move) :
    Made ((Memory.start id sizing ledger).runs moves).heap.tables.storage
  | addPage {s : Storage} (count first : Nat) : Made s → Made (Outcome.state (Storage.addPage count first s))
  | dropPage {s : Storage} : Made s → Made (Outcome.state (Storage.dropPage s))
  /-- A cell may be changed where it is. -/
  | set {s : Storage} (l : Location) (c : Cell) : Made s → Made (s.set l c)
  /-- The budget may be any other. -/
  | budget {s : Storage} (b : Budget) : Made s → Made { s with budget := b }

/-- Without the last page there are fewer cells by as many as it has. -/
theorem sizes_pop {page : Page Cell} (hback : s.pages.back? = some page) :
    s.sizes = s.pages.pop.toList.map Page.size ++ [page.size] := by
  obtain ⟨xs, hxs⟩ := Array.back?_eq_some_iff.1 hback
  rw [sizes, hxs, Array.pop_push, Array.toList_push, List.map_append]
  rfl

/-- Storage counts its cells. -/
theorem Made.cells_eq (h : s.Made) : s.cells = s.sizes.sum := by
  induction h with
  | run id sizing ledger moves => exact (Memory.good_runs id sizing ledger moves).sound.storage.cells
  | @addPage s count first _ ih =>
    rcases addPage_cases count first s with ⟨e, -, herr⟩ | ⟨block, hok, -⟩
    · rw [herr]
      exact ih
    · rw [hok]
      show s.cells + (sparePage block count first).size = _
      rw [Outcome.state, sizes_push, List.sum_append, ih, List.sum_singleton]
  | @dropPage s _ ih =>
    rw [Storage.dropPage, bind_get]
    cases hback : s.pages.back? with
    | none => exact ih
    | some page =>
      have hsum : s.sizes.sum = (s.pages.pop.toList.map Page.size).sum + page.size := by
        rw [sizes_pop hback, List.sum_append, List.sum_singleton]
      have hle : page.size ≤ s.cells := by omega
      simp only
      rw [bind_get, bind_ok (minus_ok hle), bind_get]
      by_cases hused : 0 < s.budget.used
      · rw [bind_ok (expect_ok (by simpa using hused)), modify_apply]
        show s.cells - page.size = (s.pages.pop.toList.map Page.size).sum
        omega
      · -- no page was drawn, and the storage is left as it is
        have hfault : (expect (decide (0 < s.budget.used)) .isCharged : StorageM Unit) s =
            .error (.fault (.breach .isCharged)) s := by
          rw [expect, if_neg (by simpa using hused)]
          rfl
        rw [bind_error hfault]
        exact ih
  | @set s l c _ ih =>
    rw [sizes_set]
    exact ih
  | budget b _ ih => exact ih

end Storage

/-- The page of a location and its place there. -/
def Location.numbers (l : Location) : Nat × Nat := (l.page.toNat, l.offset.toNat)

theorem Location.numbers_injective : Function.Injective numbers := by
  intro l m h
  obtain ⟨hpage, hoffset⟩ := Prod.mk.inj h
  cases l
  cases m
  rw [Location.mk.injEq]
  exact ⟨UInt32.toNat_inj.1 hpage, UInt32.toNat_inj.1 hoffset⟩

namespace Tables

variable {t : Tables} {l : Location} {n k : Nat}

/-- No two positions name the same cell. -/
def Distinct (t : Tables) : Prop := ∀ p q l, t.named? p = some l → t.named? q = some l → p = q

/-- The cell that a position names is at a place of a page. -/
def Names (t : Tables) (p : Position) (n k : Nat) : Prop :=
  ∃ l, t.named? p = some l ∧ l.page.toNat = n ∧ l.offset.toNat = k

/-- What all positions name, those of the cons table first. -/
def names (t : Tables) : List Location :=
  t.zones.slots.toList ++ t.roots.entries.toList.map RootEntry.location

theorem length_names (t : Tables) : t.names.length = t.zones.capacity + t.roots.capacity := by
  simp [names, Zones.capacity, Roots.capacity]

theorem mem_names_iff : l ∈ t.names ↔ ∃ p, t.named? p = some l := by
  rw [names, List.mem_append, List.mem_map, Array.mem_toList_iff]
  constructor
  · rintro (hmem | ⟨e, he, rfl⟩)
    · obtain ⟨i, hi⟩ := Array.mem_iff_getElem?.1 hmem
      exact ⟨.slot i, hi⟩
    · obtain ⟨i, hi⟩ := Array.mem_iff_getElem?.1 (Array.mem_toList_iff.1 he)
      exact ⟨.entry i, by rw [named?, hi, Option.map_some]⟩
  · rintro ⟨i | i, hi⟩
    · exact .inl (Array.mem_iff_getElem?.2 ⟨i, hi⟩)
    · obtain ⟨e, he, rfl⟩ := Option.map_eq_some_iff.1 hi
      exact .inr ⟨e, Array.mem_toList_iff.2 (Array.mem_iff_getElem?.2 ⟨i, he⟩), rfl⟩

/-- A list in which equal members are at the same place has none twice. -/
theorem nodup_of_getElem? {α : Type} {as : List α}
    (h : ∀ (i j : Nat) a, as[i]? = some a → as[j]? = some a → i = j) : as.Nodup := by
  refine List.nodup_iff_getElem?_ne_getElem?.2 fun i j hlt hj heq => ?_
  have hmember : as[j]? = some as[j] := List.getElem?_eq_getElem hj
  have hsame := h i j as[j] (heq.trans hmember) hmember
  omega

theorem Distinct.nodup_names (h : t.Distinct) : t.names.Nodup := by
  rw [names, List.nodup_append']
  refine ⟨nodup_of_getElem? fun i j l hi hj => ?_, nodup_of_getElem? fun i j l hi hj => ?_, ?_⟩
  · rw [Array.getElem?_toList] at hi hj
    exact Position.slot.inj (h (.slot i) (.slot j) l hi hj)
  · rw [List.getElem?_map, Array.getElem?_toList] at hi hj
    exact Position.entry.inj (h (.entry i) (.entry j) l hi hj)
  · intro l hl hl'
    obtain ⟨i, hi⟩ := Array.mem_iff_getElem?.1 (Array.mem_toList_iff.1 hl)
    obtain ⟨e, he, rfl⟩ := List.mem_map.1 hl'
    obtain ⟨j, hj⟩ := Array.mem_iff_getElem?.1 (Array.mem_toList_iff.1 he)
    have hsame := h (.slot i) (.entry j) e.location hi (by rw [named?, hj, Option.map_some])
    cases hsame

/-- **When no two positions name the same cell, every cell is named just if there are as many positions as
cells.** The names are some of the places, none of them twice. -/
theorem Distinct.names_all_iff (h : t.Distinct)
    (hstored : ∀ p l, t.named? p = some l → t.storage.HasCell l.page.toNat l.offset.toNat) :
    (∀ n k, t.storage.HasCell n k → ∃ p, t.Names p n k) ↔
      t.zones.capacity + t.roots.capacity = t.storage.sizes.sum := by
  let named := t.names.map Location.numbers
  have hnodup : named.Nodup := h.nodup_names.map Location.numbers_injective
  have hsub : named ⊆ t.storage.places := by
    intro place hplace
    obtain ⟨l, hl, rfl⟩ := List.mem_map.1 hplace
    obtain ⟨p, hp⟩ := mem_names_iff.1 hl
    exact Storage.mem_places_iff.2 (hstored p l hp)
  have hmem : ∀ n k, (n, k) ∈ named ↔ ∃ p, t.Names p n k := by
    intro n k
    constructor
    · intro hplace
      obtain ⟨l, hl, heq⟩ := List.mem_map.1 hplace
      obtain ⟨p, hp⟩ := mem_names_iff.1 hl
      obtain ⟨hn, hk⟩ := Prod.mk.inj heq
      exact ⟨p, l, hp, hn, hk⟩
    · rintro ⟨p, l, hp, rfl, rfl⟩
      exact List.mem_map.2 ⟨l, mem_names_iff.2 ⟨p, hp⟩, rfl⟩
  have hlength : named.length = t.zones.capacity + t.roots.capacity := by
    rw [List.length_map, length_names]
  rw [← hlength, ← Storage.length_places]
  constructor
  · intro hall
    have hback : t.storage.places ⊆ named := by
      rintro ⟨n, k⟩ hplace
      exact (hmem n k).2 (hall n k (Storage.mem_places_iff.1 hplace))
    exact Nat.le_antisymm (hnodup.subperm hsub).length_le
      ((Storage.nodup_places _).subperm hback).length_le
  · intro hcount n k hcell
    have hperm : named.Perm t.storage.places :=
      (hnodup.subperm hsub).perm_of_length_le hcount.ge
    exact (hmem n k).1 (hperm.mem_iff.2 (Storage.mem_places_iff.2 hcell))

end Tables

end ConsHeap
