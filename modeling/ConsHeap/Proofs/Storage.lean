import ConsHeap.Proofs.Paging.Charges
import ConsHeap.Storage
import Mathlib.Algebra.GroupWithZero.Nat
import Mathlib.Data.List.Nodup

/-!
# Storage: places, contents and pages

* `Cell.contents`: what a cell holds, whatever slot names it. Moves between slots and tables keep it.
* `Storage.Records`: a cell that records its slot.
* `Storage.SameShape`: two states of storage with the same pages, on the same budget.
* `Storage.Placed`: two cells have been placed at other slots.
* `Storage.Sound`: the counter of cells and the charge on the budget agree with the pages.
* `Storage.places`, `Storage.locations_eq`: the pages and places with a cell, of which locations are made.
* `Storage.addPage_cases`: a page is refused without a trace, or added after all others.
* `Storage.dropPage_push`: giving up a page that was just added undoes it.
-/

namespace ConsHeap

open Paging

/-- What a cell holds, whatever slot names it. -/
def Cell.contents (c : Cell) : Cell := { c with placement := default }

namespace Cell

@[simp] theorem contents_place (c : Cell) (i : Nat) (isRoot : Bool) :
    (c.place i isRoot).contents = c.contents := rfl

@[simp] theorem contents_setChild (c : Cell) (v : Value) (side : Side) :
    (c.setChild v side).contents = c.contents.setChild v side := by
  cases side <;> rfl

@[simp] theorem placement_setChild (c : Cell) (v : Value) (side : Side) :
    (c.setChild v side).placement = c.placement := by
  cases side <;> rfl

/-- A recorded slot number fits. -/
theorem slot_le_maxSlot (c : Cell) : c.slot ≤ Placement.maxSlot := by
  have h : c.placement.slot = c.placement.word.toNat % 2 ^ 31 := by
    rw [Placement.slot, UInt32.toNat_and, show Placement.slotMask.toNat = 2 ^ 31 - 1 by decide,
      Nat.and_two_pow_sub_one_eq_mod]
  rw [Cell.slot, h, Placement.maxSlot]
  omega

@[simp] theorem isRoot_spare (i : Nat) : (spare i).isRoot = false := Placement.isRoot_ofSlot i false

theorem slot_spare {i : Nat} (h : i ≤ Placement.maxSlot) : (spare i).slot = i :=
  Placement.slot_ofSlot_of_le h

end Cell

namespace Storage

variable {s t u : Storage} {l m : Location} {c : Cell}

/-- What the cell at a location holds. -/
def contents? (s : Storage) (l : Location) : Option Cell := (s.get? l).map Cell.contents

/-- The cell at `l` records slot `i` of the table that the flag names. -/
def Records (s : Storage) (l : Location) (i : Nat) (isRoot : Bool) : Prop :=
  ∃ c, s.get? l = some c ∧ c.slot = i ∧ c.isRoot = isRoot

theorem Records.congr {i : Nat} {b : Bool} (h : s.Records l i b) (hl : t.get? l = s.get? l) :
    t.Records l i b := by
  rwa [Records, hl]

/-- A cell that records a slot is stored. -/
theorem Records.ne_none {i : Nat} {b : Bool} (h : s.Records l i b) : s.get? l ≠ none := by
  obtain ⟨c, hc, -⟩ := h
  rw [hc]
  simp

/-- A cell records one slot, and is in one table. -/
theorem Records.unique {i j : Nat} {b d : Bool} (hi : s.Records l i b) (hj : s.Records l j d) :
    i = j ∧ b = d := by
  obtain ⟨c, hc, rfl, rfl⟩ := hi
  obtain ⟨c', hc', rfl, rfl⟩ := hj
  rw [hc, Option.some.injEq] at hc'
  subst hc'
  exact ⟨rfl, rfl⟩

theorem Records.le_maxSlot {i : Nat} {b : Bool} (h : s.Records l i b) : i ≤ Placement.maxSlot := by
  obtain ⟨c, -, rfl, -⟩ := h
  exact c.slot_le_maxSlot

theorem get?_set_self (h : s.get? l = some c) (d : Cell) : (s.set l d).get? l = some d := by
  simp [get?_set, h]

theorem get?_set_of_ne (h : m ≠ l) (d : Cell) : (s.set l d).get? m = s.get? m := by
  simp [get?_set, h]

/-- A cell that was placed at a slot records it. -/
theorem records_set_place {i : Nat} {b : Bool} (h : s.get? l = some c)
    (hi : i ≤ Placement.maxSlot) : (s.set l (c.place i b)).Records l i b :=
  ⟨_, get?_set_self h _, c.slot_place hi, c.isRoot_place i b⟩

/-- Placing a cell at another slot keeps what it holds. -/
theorem contents?_set_place (h : s.get? l = some c) (i : Nat) (b : Bool) (m : Location) :
    (s.set l (c.place i b)).contents? m = s.contents? m := by
  by_cases hm : m = l
  · subst hm
    simp [contents?, get?_set_self h, h]
  · simp [contents?, get?_set_of_ne hm]

/-- The numbers of cells in the pages. -/
def sizes (s : Storage) : List Nat := s.pages.toList.map Page.size

theorem sizes_set (s : Storage) (l : Location) (c : Cell) : (s.set l c).sizes = s.sizes := by
  have hsize : ∀ p : Page Cell, (p.set l.offset.toNat c).size = p.size := by
    intro p
    simp [Page.set, Page.size]
  simp only [sizes, set, Array.toList_modify]
  refine List.ext_getElem? fun i => ?_
  simp only [List.getElem?_map, List.getElem?_modify]
  by_cases hi : l.page.toNat = i <;> cases s.pages.toList[i]? <;> simp [hi, hsize]

/-- The same pages with the same budget. -/
structure SameShape (s t : Storage) : Prop where
  sizes : t.sizes = s.sizes
  budget : t.budget = s.budget
  cells : t.cells = s.cells

theorem SameShape.refl (s : Storage) : s.SameShape s := ⟨rfl, rfl, rfl⟩

theorem SameShape.trans (h : s.SameShape t) (h' : t.SameShape u) : s.SameShape u :=
  ⟨h'.sizes.trans h.sizes, h'.budget.trans h.budget, h'.cells.trans h.cells⟩

theorem sameShape_set (s : Storage) (l : Location) (c : Cell) : s.SameShape (s.set l c) :=
  ⟨sizes_set s l c, rfl, rfl⟩

theorem length_sizes (s : Storage) : s.sizes.length = s.pages.size := by
  simp [sizes]

/-- There is a cell where a page is long enough. -/
theorem isSome_get?_iff :
    (s.get? l).isSome ↔ ∃ n, s.sizes[l.page.toNat]? = some n ∧ l.offset.toNat < n := by
  simp only [get?, sizes, List.getElem?_map, Array.getElem?_toList]
  cases s.pages[l.page.toNat]? with
  | none => simp
  | some p => simp [Page.get?, Page.size]

/-- Storage of the same shape has cells at the same locations. -/
theorem SameShape.exists_get? (h : s.SameShape t) (hc : t.get? l = some c) :
    ∃ d, s.get? l = some d := by
  rw [← Option.isSome_iff_exists, isSome_get?_iff, ← h.sizes, ← isSome_get?_iff, hc]
  rfl

/-- Two cells have been placed at other slots, and nothing else is different. -/
structure Placed (s t : Storage) (l : Location) (i : Nat) (a : Bool) (m : Location) (j : Nat)
    (b : Bool) : Prop where
  first : t.Records l i a
  second : t.Records m j b
  rest : ∀ x, x ≠ l → x ≠ m → t.get? x = s.get? x
  shape : s.SameShape t
  contents : ∀ x, t.contents? x = s.contents? x

theorem Placed.symm {i j : Nat} {a b : Bool} (h : s.Placed t l i a m j b) : s.Placed t m j b l i a :=
  ⟨h.second, h.first, fun x hm hl => h.rest x hl hm, h.shape, h.contents⟩

/-- Placing one cell and then another. -/
theorem placed_set_set {d : Cell} {i j : Nat} (hne : m ≠ l) (hc : s.get? l = some c)
    (hd : s.get? m = some d) (hi : i ≤ Placement.maxSlot) (hj : j ≤ Placement.maxSlot) (a b : Bool) :
    s.Placed ((s.set l (c.place i a)).set m (d.place j b)) l i a m j b := by
  have hd' : (s.set l (c.place i a)).get? m = some d := by rw [get?_set_of_ne hne, hd]
  constructor
  · exact (records_set_place hc hi).congr (get?_set_of_ne hne.symm _)
  · exact records_set_place hd' hj
  · intro x hxl hxm
    rw [get?_set_of_ne hxm, get?_set_of_ne hxl]
  · exact (sameShape_set _ _ _).trans (sameShape_set _ _ _)
  · intro x
    rw [contents?_set_place hd', contents?_set_place hc]

/-- Two cells that have been placed in the tables that they were in keep their flags. -/
theorem Placed.flags {d : Cell} {i j : Nat} (h : s.Placed t l i c.isRoot m j d.isRoot)
    (hc : s.get? l = some c) (hd : s.get? m = some d) (x : Location) :
    (t.get? x).map Cell.isRoot = (s.get? x).map Cell.isRoot := by
  by_cases hxl : x = l
  · obtain ⟨c', hc', -, hroot⟩ := h.first
    rw [hxl, hc', hc, Option.map_some, Option.map_some, hroot]
  by_cases hxm : x = m
  · obtain ⟨d', hd', -, hroot⟩ := h.second
    rw [hxm, hd', hd, Option.map_some, Option.map_some, hroot]
  · rw [h.rest x hxl hxm]

/-- The counter and the charge agree with the pages, and no page is empty. -/
structure Sound (s : Storage) : Prop where
  cells : s.cells = s.sizes.sum
  filled : ∀ n ∈ s.sizes, 0 < n
  charged : s.budget.used = s.sizes.length
  within : ∀ n, s.budget.limit = some n → s.budget.used ≤ n

theorem Sound.congr (h : s.Sound) (hs : s.SameShape t) : t.Sound := by
  constructor
  · rw [hs.cells, hs.sizes, h.cells]
  · rw [hs.sizes]
    exact h.filled
  · rw [hs.budget, hs.sizes, h.charged]
  · rw [hs.budget]
    exact h.within

theorem sound_ofLimit (limit : Option Nat) : (ofLimit limit).Sound :=
  ⟨rfl, fun n hn => absurd hn (by simp [ofLimit, sizes]), rfl, fun n _ => Nat.zero_le n⟩

/-- There are at least as many cells as pages. -/
theorem Sound.pages_le_cells (h : s.Sound) : s.pages.size ≤ s.cells := by
  rw [h.cells, ← s.length_sizes]
  have hpos := h.filled
  generalize s.sizes = ns at hpos
  induction ns with
  | nil => simp
  | cons n ns ih =>
    have hn := hpos n (by simp)
    have hrest := ih fun k hk => hpos k (by simp [hk])
    simp only [List.length_cons, List.sum_cons]
    omega

/-! ## Places -/

/-- Holds of a page and a place on it where there is a cell. -/
def HasCell (s : Storage) (n k : Nat) : Prop := ∃ page, s.pages[n]? = some page ∧ k < page.size

/-- All pages and places on them that have a cell. -/
def places (s : Storage) : List (Nat × Nat) :=
  s.pages.toList.zipIdx.flatMap fun (page, n) => (List.range page.size).map fun k => (n, k)

theorem mem_places_iff {n k : Nat} : (n, k) ∈ s.places ↔ s.HasCell n k := by
  rw [places, List.mem_flatMap, HasCell]
  constructor
  · rintro ⟨⟨page, j⟩, hmem, hk⟩
    obtain ⟨i, hi, heq⟩ := List.mem_map.1 hk
    cases heq
    rw [List.mk_mem_zipIdx_iff_getElem?, Array.getElem?_toList] at hmem
    exact ⟨page, hmem, List.mem_range.1 hi⟩
  · rintro ⟨page, hpage, hk⟩
    refine ⟨(page, n), ?_, List.mem_map.2 ⟨k, List.mem_range.2 hk, rfl⟩⟩
    rw [List.mk_mem_zipIdx_iff_getElem?, Array.getElem?_toList]
    exact hpage

/-- There are as many places as cells on all pages. -/
theorem length_places (s : Storage) : s.places.length = s.sizes.sum := by
  have hsizes : s.sizes = s.pages.toList.zipIdx.map fun p => p.1.size := by
    rw [sizes, ← List.zipIdx_map_fst 0 s.pages.toList, List.map_map, List.zipIdx_map_fst]
    rfl
  rw [places, List.length_flatMap, hsizes]
  simp

/-- No place is listed twice. -/
theorem nodup_places (s : Storage) : s.places.Nodup := by
  rw [places, List.nodup_flatMap]
  refine ⟨?_, List.pairwise_iff_getElem.2 ?_⟩
  · rintro ⟨page, n⟩ -
    exact List.nodup_range.map fun i j hij => (Prod.mk.inj hij).2
  · intro i j hi hj hlt p hp hp'
    -- places on different pages have different page numbers
    obtain ⟨k, -, rfl⟩ := List.mem_map.1 hp
    obtain ⟨k', -, heq⟩ := List.mem_map.1 hp'
    have hpage : (s.pages.toList.zipIdx[j]).2 = (s.pages.toList.zipIdx[i]).2 := (Prod.mk.inj heq).1
    rw [List.getElem_zipIdx, List.getElem_zipIdx] at hpage
    omega

/-! ## Locations -/

/-- Pages and the cells on a page can be numbered by words. -/
structure Numbered (s : Storage) : Prop where
  pages : s.pages.size ≤ UInt32.size
  slots : ∀ (i : Nat) page, s.pages[i]? = some page → page.size ≤ UInt32.size

theorem toNat_ofNat {n k : Nat} (hn : n < UInt32.size) (hk : k < UInt32.size) :
    (Location.ofNat n k).page.toNat = n ∧ (Location.ofNat n k).offset.toNat = k := by
  simp only [UInt32.size] at hn hk
  simp only [Location.ofNat, UInt32.toNat_ofNat']
  omega

/-- The cells on a page are at its locations. -/
theorem map_get?_pageLocations (h : s.Numbered) {n : Nat} {page : Page Cell} (hpage : s.pages[n]? = some page) :
    (pageLocations n page.size).map s.get? = page.slots.toList.map some := by
  have hn : n < UInt32.size := Nat.lt_of_lt_of_le (Array.getElem?_eq_some_iff.1 hpage).1 h.pages
  refine List.ext_getElem? fun k => ?_
  have hslots : page.slots.toList[k]? = page.slots[k]? := Array.getElem?_toList
  rw [pageLocations, List.map_map, List.getElem?_map, List.getElem?_map, hslots]
  by_cases hk : k < page.size
  · obtain ⟨hp, ho⟩ := toNat_ofNat hn (Nat.lt_of_lt_of_le hk (h.slots n page hpage))
    have hslot : page.slots[k]? = some page.slots[k] := Array.getElem?_eq_getElem hk
    rw [List.getElem?_range hk, Option.map_some, Function.comp_apply, get?, hp, ho, hpage, Option.bind_some,
      Page.get?, hslot, Option.map_some]
  · rw [Array.getElem?_eq_none (show page.slots.size ≤ k from Nat.le_of_not_lt hk)]
    simp [hk]

/-- The locations of the storage have the cells of its pages, in the same order. -/
theorem map_get?_locations (h : s.Numbered) : s.locations.map s.get? = s.allCells.map some := by
  have hcells : s.allCells = s.pages.toList.zipIdx.flatMap fun p => p.1.slots.toList := by
    rw [allCells, ← List.zipIdx_map_fst 0 s.pages.toList, List.flatMap_map, List.zipIdx_map_fst]
  rw [hcells, locations, List.map_flatMap, List.map_flatMap]
  refine List.flatMap_congr ?_
  rintro ⟨page, n⟩ hmem
  rw [List.mk_mem_zipIdx_iff_getElem?, Array.getElem?_toList] at hmem
  exact map_get?_pageLocations h hmem

/-- The locations of the storage are made of its places. -/
theorem locations_eq (s : Storage) : s.locations = s.places.map fun p => .ofNat p.1 p.2 := by
  rw [locations, places, List.map_flatMap]
  refine List.flatMap_congr ?_
  rintro ⟨page, n⟩ -
  rw [List.map_map]
  rfl

/-- The numbers of a place with a cell fit words. -/
theorem Numbered.lt_of_hasCell (h : s.Numbered) {n k : Nat} (hcell : s.HasCell n k) :
    n < UInt32.size ∧ k < UInt32.size := by
  obtain ⟨page, hpage, hk⟩ := hcell
  have hn : n < s.pages.size := (Array.getElem?_eq_some_iff.1 hpage).1
  exact ⟨Nat.lt_of_lt_of_le hn h.pages, Nat.lt_of_lt_of_le hk (h.slots n page hpage)⟩

/-- No location is listed twice. -/
theorem nodup_locations (h : s.Numbered) : s.locations.Nodup := by
  have hnumbers : ∀ {n k : Nat}, (n, k) ∈ s.places →
      (Location.ofNat n k).page.toNat = n ∧ (Location.ofNat n k).offset.toNat = k := by
    intro n k hmem
    obtain ⟨hn, hk⟩ := h.lt_of_hasCell (mem_places_iff.1 hmem)
    exact toNat_ofNat hn hk
  rw [locations_eq]
  refine s.nodup_places.map_on ?_
  rintro ⟨n, k⟩ hp ⟨n', k'⟩ hq heq
  obtain ⟨hn, hk⟩ := hnumbers hp
  obtain ⟨hn', hk'⟩ := hnumbers hq
  rw [heq] at hn hk
  rw [← hn, ← hk, hn', hk']

/-! ## Pages -/

/-- The storage with one more page. -/
def push (s : Storage) (page : Page Cell) : Storage :=
  ⟨s.pages.push page, { s.budget with used := s.budget.used + 1 }, s.cells + page.size⟩

theorem sizes_push (s : Storage) (page : Page Cell) : (s.push page).sizes = s.sizes ++ [page.size] := by
  simp [sizes, push]

theorem Sound.push (h : s.Sound) {page : Page Cell} (hpos : 0 < page.size)
    (hroom : ∀ n, s.budget.limit = some n → s.budget.used < n) : (s.push page).Sound := by
  constructor
  · rw [sizes_push, List.sum_append, ← h.cells]
    simp [Storage.push]
  · intro n hn
    rw [sizes_push, List.mem_append, List.mem_singleton] at hn
    rcases hn with hn | rfl
    · exact h.filled n hn
    · exact hpos
  · rw [sizes_push, List.length_append, ← h.charged]
    rfl
  · intro n hn
    exact hroom n hn

/-- The new page comes after all others. -/
theorem get?_push (page : Page Cell) (l : Location) :
    (s.push page).get? l =
      if l.page.toNat = s.pages.size then page.get? l.offset.toNat else s.get? l := by
  simp only [get?, push, Array.getElem?_push]
  split <;> simp

/-- A page of unused cells that record the slots from `first` on. -/
def sparePage (block : Block) (count first : Nat) : Page Cell :=
  ⟨block, Array.ofFn fun i : Fin count => Cell.spare (first + i)⟩

@[simp] theorem size_sparePage (block : Block) (count first : Nat) :
    (sparePage block count first).size = count := by
  simp [sparePage, Page.size]

theorem get?_sparePage (block : Block) (count first i : Nat) :
    (sparePage block count first).get? i =
      if i < count then some (Cell.spare (first + i)) else none := by
  simp only [sparePage, Page.get?, Array.getElem?_ofFn]
  split <;> simp_all

theorem get?_push_of_some (page : Page Cell) (h : s.get? l = some c) :
    (s.push page).get? l = some c := by
  have hlt : l.page.toNat < s.pages.size := by
    refine Nat.lt_of_not_le fun hge => ?_
    rw [get?, Array.getElem?_eq_none hge] at h
    cases h
  rw [get?_push, if_neg (by omega), h]

/-- The number of pages is a page number that was not used. -/
theorem get?_eq_none_of_page (h : l.page.toNat = s.pages.size) : s.get? l = none := by
  rw [get?, Array.getElem?_eq_none (by omega)]
  rfl

/-- The locations of the cells on a new page. -/
theorem getElem?_pageLocations {n count i : Nat} (hn : n < UInt32.size) (hcount : count < UInt32.size) :
    (pageLocations n count)[i]? = some l ↔
      i < count ∧ l.page.toNat = n ∧ l.offset.toNat = i := by
  simp only [UInt32.size] at hn hcount
  rw [pageLocations, List.getElem?_map]
  by_cases hi : i < count
  · simp only [List.getElem?_range hi, Option.map_some, Option.some.injEq, hi, true_and]
    constructor
    · rintro rfl
      simp only [Location.ofNat, UInt32.toNat_ofNat']
      omega
    · rintro ⟨rfl, rfl⟩
      exact Location.ofNat_toNat l
  · simp [hi]

/-- Every failure of a page is one that freeing memory might cure. -/
theorem isAllocation_ofPage (e : PageError) : (HeapError.ofPage e).isAllocation = true := by
  cases e <;> rfl

/-- Room for entries is refused without a trace, or there. -/
theorem reserve_cases (width present more : Nat) (s : Storage) :
    (∃ e, e.isAllocation = true ∧ reserve width present more s = .error (.error e) s) ∨
      reserve width present more s = .ok () s := by
  rw [reserve, bind_get]
  cases Paging.reserve s.budget.grants width present more with
  | ok => exact .inr rfl
  | error e => exact .inl ⟨_, isAllocation_ofPage e, rfl⟩

/-- A page is refused without a trace, or it comes after all others, on one more charge. -/
theorem addPage_cases (count first : Nat) (s : Storage) :
    (∃ e, e.isAllocation = true ∧ addPage count first s = .error (.error e) s) ∨
      ∃ block, addPage count first s =
          .ok (pageLocations s.pages.size count) (s.push (sparePage block count first)) ∧
        0 < count ∧ first + count ≤ Placement.maxSlot ∧
        ∀ n, s.budget.limit = some n → s.budget.used < n := by
  -- the slot numbers of the new cells have to fit into a placement
  by_cases hsmall : wordLimit ≤ first + count ∨ Placement.maxSlot < first + count
  · left
    refine ⟨.badRequest, rfl, ?_⟩
    simp only [addPage, if_pos hsmall]
    exact bind_error rfl
  simp only [addPage, if_neg hsmall]
  rcases reserve_cases locationWidth 0 count s with ⟨e, halloc, he⟩ | hlocations
  · exact .inl ⟨e, halloc, bind_error he⟩
  rcases reserve_cases pageWidth s.pages.size 1 s with ⟨e, halloc, he⟩ | hpages
  · exact .inl ⟨e, halloc, by rw [bind_ok hlocations, bind_get, bind_error he]⟩
  rw [bind_ok hlocations, bind_get, bind_ok hpages]
  rcases Page.make_cases Cell.layout count (fun i => Cell.spare (first + i)) s.budget with
    ⟨e, he⟩ | ⟨hcount, hroom, block, hok⟩
  · left
    refine ⟨.ofPage e, isAllocation_ofPage e, bind_error ?_⟩
    rw [onBudget, he]
  · right
    refine ⟨block, ?_, hcount, by omega, hroom⟩
    rw [bind_ok (by rw [onBudget, hok]), bind_get, bind_modify]
    simp only [pure_apply, push, size_sparePage]
    rfl

/-- Giving up the page that was just added undoes the addition. -/
theorem dropPage_push (page : Page Cell) : dropPage (s.push page) = .ok () s := by
  have hback : (s.push page).pages.back? = some page := by simp [push]
  rw [dropPage, bind_get]
  simp only [hback]
  rw [bind_get, bind_ok (minus_ok (by simp [push])), bind_get,
    bind_ok (expect_ok (by simp [push])), modify_apply]
  simp [push, Budget.refund]

end Storage

end ConsHeap
