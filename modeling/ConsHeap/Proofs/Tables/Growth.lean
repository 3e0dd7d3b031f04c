import ConsHeap.Proofs.Tables.Transfer

/-!
# Growth of the tables

A table grows by a page of spare cells, which it names in slots or entries of its own. A growth that
is refused leaves no trace, and one that succeeded can be undone as long as its cells are spare.

* `Tables.Grown`: a table has grown. Both tables stay sound, and no live cell is affected.
* `Tables.growZones_cases`, `Tables.growRoots_cases`: the growth of either table.
* `Tables.cutSlots_append`, `Tables.cutEntries_self`: what undoing a growth cuts off.
-/

namespace ConsHeap.Tables

variable {t u : Tables} {i j k n : Nat} {l m : Location} {c : Cell} {e : RootEntry}

/-- A list is put at the end of an array as the array of its members would be. -/
theorem append_list {α : Type} (xs : Array α) (l : List α) : xs ++ l = xs ++ l.toArray :=
  Array.ext' (by simp)

/-- The members of an array stay where they are when a list is put at its end. -/
theorem getElem?_append_list_of_some {α : Type} {xs : Array α} {a : α} (l : List α)
    (hk : xs[k]? = some a) : (xs ++ l)[k]? = some a := by
  have hlt : k < xs.size := (Array.getElem?_eq_some_iff.1 hk).1
  rw [append_list]
  exact (Array.getElem?_append_left hlt).trans hk

/-- A member of an array with a list at its end is a member of the array, or comes after it. -/
theorem getElem?_append_list_cases {α : Type} {xs : Array α} {l : List α} {a : α}
    (hk : (xs ++ l)[k]? = some a) :
    xs[k]? = some a ∨ ∃ i : Nat, l[i]? = some a ∧ k = xs.size + i := by
  rw [append_list, Array.getElem?_append] at hk
  split at hk
  · exact .inl hk
  · next hge =>
    refine .inr ⟨k - xs.size, ?_, by omega⟩
    rw [← List.getElem?_toArray]
    exact hk

/-- The storage has new cells, that further slots and entries name. -/
structure Grown (t u : Tables) (slots : List Location) (entries : List RootEntry) : Prop where
  zones : u.zones = { t.zones with slots := t.zones.slots ++ slots }
  roots : u.roots = { t.roots with entries := t.roots.entries ++ entries }
  kept : ∀ {l c}, t.storage.get? l = some c → u.storage.get? l = some c
  named : ∀ {l c}, t.storage.get? l = none → u.storage.get? l = some c →
    (l ∈ slots ∨ ∃ e ∈ entries, e.location = l) ∧ c.contents = (Cell.spare 0).contents
  new_slot : ∀ {i : Nat} {l}, slots[i]? = some l →
    t.storage.get? l = none ∧ u.storage.Records l (t.zones.capacity + i) false
  new_entry : ∀ {i : Nat} {e : RootEntry}, entries[i]? = some e → e.count = 0 ∧
    t.storage.get? e.location = none ∧ u.storage.Records e.location (t.roots.capacity + i) false
  apart : slots = [] ∨ entries = []
  storage : u.storage.Sound
  cells : u.storage.cells = t.storage.cells + (slots.length + entries.length)
  slots_le : t.zones.capacity + slots.length ≤ Placement.maxSlot
  entries_le : t.roots.capacity + entries.length ≤ Placement.maxSlot

namespace Grown

variable {slots : List Location} {entries : List RootEntry} (hg : Grown t u slots entries)
include hg

theorem slot_of_slot (hk : t.zones.slots[k]? = some l) : u.zones.slots[k]? = some l := by
  rw [hg.zones]
  exact getElem?_append_list_of_some slots hk

theorem entry_of_entry (hk : t.roots.entries[k]? = some e) : u.roots.entries[k]? = some e := by
  rw [hg.roots]
  exact getElem?_append_list_of_some entries hk

/-- A slot is one of the former ones or a new one. -/
theorem slot_cases (hk : u.zones.slots[k]? = some l) :
    t.zones.slots[k]? = some l ∨ ∃ i : Nat, slots[i]? = some l ∧ k = t.zones.capacity + i := by
  rw [hg.zones] at hk
  exact getElem?_append_list_cases hk

/-- An entry is one of the former ones or a new one. -/
theorem entry_cases (hk : u.roots.entries[k]? = some e) :
    t.roots.entries[k]? = some e ∨ ∃ i : Nat, entries[i]? = some e ∧ k = t.roots.capacity + i := by
  rw [hg.roots] at hk
  exact getElem?_append_list_cases hk

theorem capacity : u.zones.capacity = t.zones.capacity + slots.length := by
  rw [hg.zones, append_list]
  simp [Zones.capacity]

theorem roots_capacity : u.roots.capacity = t.roots.capacity + entries.length := by
  rw [hg.roots, append_list]
  simp [Roots.capacity]

theorem zone (k : Nat) : u.zones.zone k = t.zones.zone k := by
  rw [hg.zones]
  rfl

theorem live : u.roots.live = t.roots.live := by
  rw [hg.roots]

/-- Both tables stay sound. -/
theorem sound (h : t.Sound) : u.Sound where
  zones := by
    constructor
    · obtain ⟨hgap, hgrey, hwhite, hfree⟩ := h.zones.ordered
      have hcap := hg.capacity
      rw [hg.zones] at hcap ⊢
      exact ⟨hgap, hgrey, hwhite, by rw [hcap]; exact Nat.le_trans hfree (Nat.le_add_right _ _)⟩
    · intro k l hk
      rcases hg.slot_cases hk with hk | ⟨i, hi, rfl⟩
      · obtain ⟨c, hc, hrec⟩ := h.zones.records hk
        exact ⟨c, hg.kept hc, hrec⟩
      · exact (hg.new_slot hi).2
  roots := by
    have hlive := h.roots.live_le
    constructor
    · rw [hg.live, hg.roots_capacity]
      omega
    · intro k d hk
      rw [hg.live]
      rcases hg.entry_cases hk with hk | ⟨i, hi, rfl⟩
      · obtain ⟨c, hc, hrec⟩ := h.roots.records hk
        exact ⟨c, hg.kept hc, hrec⟩
      · rw [decide_eq_false (by omega)]
        exact (hg.new_entry hi).2.2
    · intro k d hk
      rw [hg.live]
      rcases hg.entry_cases hk with hk | ⟨i, hi, rfl⟩
      · exact h.roots.counted hk
      · have := (hg.new_entry hi).1
        omega
  apart := by
    intro k d hk hmem
    obtain ⟨j, hj⟩ := Array.mem_iff_getElem?.1 hmem
    rcases hg.entry_cases hk with hk | ⟨i, hi, rfl⟩
    · rcases hg.slot_cases hj with hj | ⟨i, hi, rfl⟩
      · exact h.apart hk (Array.mem_iff_getElem?.2 ⟨j, hj⟩)
      · -- the cell of a former entry was stored, that of a new slot was not
        exact (h.roots.records hk).ne_none (hg.new_slot hi).1
    · rcases hg.slot_cases hj with hj | ⟨i', hi', rfl⟩
      · exact (h.zones.records hj).ne_none (hg.new_entry hi).2.1
      · rcases hg.apart with rfl | rfl
        · cases hi'
        · cases hi
  named := by
    intro l c hc
    cases ht : t.storage.get? l with
    | some c' =>
      rcases h.named ht with hin | ⟨k, d, hd, rfl⟩
      · obtain ⟨k, hk⟩ := Array.mem_iff_getElem?.1 hin
        exact .inl (Array.mem_iff_getElem?.2 ⟨k, hg.slot_of_slot hk⟩)
      · exact .inr ⟨k, d, hg.entry_of_entry hd, rfl⟩
    | none =>
      -- a cell that was not stored came in with the growth, which names it
      rcases (hg.named ht hc).1 with hin | ⟨d, hd, rfl⟩
      · left
        rw [hg.zones, append_list]
        exact Array.mem_append.2 (.inr (List.mem_toArray.2 hin))
      · right
        have hin : d ∈ u.roots.entries := by
          rw [hg.roots, append_list]
          exact Array.mem_append.2 (.inr (List.mem_toArray.2 hd))
        obtain ⟨k, hk⟩ := Array.mem_iff_getElem?.1 hin
        exact ⟨k, d, hk, rfl⟩
  storage := hg.storage
  cells := by
    have := h.cells
    rw [hg.capacity, hg.roots_capacity, hg.cells]
    omega
  slots_le := by
    rw [hg.capacity]
    exact hg.slots_le
  entries_le := by
    rw [hg.roots_capacity]
    exact hg.entries_le

/-- A new cell is spare. -/
theorem spare_of_none (h : t.Sound) (hl : t.storage.get? l = none) :
    u.color? l = none ∧ u.count l = 0 := by
  have hu := hg.sound h
  rcases hu.cases l with ⟨k, hk⟩ | ⟨k, d, hd, rfl⟩ | hnone
  · rcases hg.slot_cases hk with hk' | ⟨i, hi, rfl⟩
    · exact absurd hl (h.zones.records hk').ne_none
    · -- new slots come after the last boundary
      have hord := h.zones.ordered
      have hfree : t.zones.zone (t.zones.capacity + i) = .free :=
        (Zones.zone_eq_free hord).2 (Nat.le_trans hord.free (Nat.le_add_right _ _))
      rw [color?_of_slot hu.zones hk, hg.zone, hfree, hu.zones.count_of_slot hk]
      exact ⟨rfl, rfl⟩
  · rcases hg.entry_cases hd with hd' | ⟨i, hi, rfl⟩
    · exact absurd hl (h.roots.records hd').ne_none
    · have hlive := h.roots.live_le
      rw [hu.color?_of_entry hd, hu.count_of_entry hd, hg.live, (hg.new_entry hi).1]
      exact ⟨if_neg (by omega), rfl⟩
  · exact ⟨color?_of_get?_eq_none hnone, count_of_get?_eq_none hnone⟩

/-- A growth changes nothing but that spare cells come in. -/
theorem grows (h : t.Sound) (id : UInt32) : (t.view id).Grows (u.view id) := by
  have hu := hg.sound h
  have hsame : ∀ l, u.color? l = t.color? l ∧ u.count l = t.count l := by
    intro l
    rcases h.cases l with ⟨k, hk⟩ | ⟨k, d, hd, rfl⟩ | hnone
    · have hk' := hg.slot_of_slot hk
      rw [color?_of_slot hu.zones hk', color?_of_slot h.zones hk, hg.zone, h.zones.count_of_slot hk,
        hu.zones.count_of_slot hk']
      exact ⟨rfl, rfl⟩
    · have hd' := hg.entry_of_entry hd
      rw [hu.color?_of_entry hd', h.color?_of_entry hd, hu.count_of_entry hd', h.count_of_entry hd,
        hg.live]
      exact ⟨rfl, rfl⟩
    · rw [color?_of_get?_eq_none hnone, count_of_get?_eq_none hnone]
      exact hg.spare_of_none h hnone
  constructor
  · rfl
  · exact funext fun l => (hsame l).1
  · exact funext fun l => (hsame l).2
  · intro l c hc
    obtain ⟨c', hc', rfl⟩ := Option.map_eq_some_iff.1 hc
    exact Option.map_eq_some_iff.2 ⟨c', hg.kept hc', rfl⟩
  · intro l c hnone hc
    obtain ⟨c', hc', rfl⟩ := Option.map_eq_some_iff.1 hc
    exact (hg.named (Option.map_eq_none_iff.1 hnone) hc').2

end Grown

/-! ## A page for a table -/

/-- Page numbers fit. -/
theorem Sound.pages_lt (h : t.Sound) : t.storage.pages.size < UInt32.size := by
  have hpages := h.storage.pages_le_cells
  have hcells := h.cells
  have hslots := h.slots_le
  have hentries := h.entries_le
  simp only [Placement.maxSlot] at hslots hentries
  simp only [UInt32.size]
  omega

/-- What the storage has at a location after a page was added. -/
theorem Sound.get?_push_sparePage (h : t.Sound) (block : Paging.Block) {count first : Nat}
    (hmax : first + count ≤ Placement.maxSlot) :
    (∀ {l c}, t.storage.get? l = none →
        (t.storage.push (Storage.sparePage block count first)).get? l = some c →
        l ∈ Storage.pageLocations t.storage.pages.size count ∧ c.contents = (Cell.spare 0).contents) ∧
      ∀ {i : Nat} {l}, (Storage.pageLocations t.storage.pages.size count)[i]? = some l →
        t.storage.get? l = none ∧
          (t.storage.push (Storage.sparePage block count first)).Records l (first + i) false := by
  have hpages := h.pages_lt
  have hcount : count < UInt32.size := by
    simp only [Placement.maxSlot] at hmax
    simp only [UInt32.size]
    omega
  refine ⟨?_, ?_⟩
  · -- what was not there before is on the new page
    intro l c hnone hc
    rw [Storage.get?_push] at hc
    split at hc
    · next hpage =>
      rw [Storage.get?_sparePage] at hc
      split at hc
      · next hlt =>
        cases hc
        refine ⟨?_, rfl⟩
        exact List.mem_of_getElem? ((Storage.getElem?_pageLocations hpages hcount).2 ⟨hlt, hpage, rfl⟩)
      · cases hc
    · rw [hnone] at hc
      cases hc
  · intro i l hi
    obtain ⟨hlt, hpage, rfl⟩ := (Storage.getElem?_pageLocations hpages hcount).1 hi
    refine ⟨Storage.get?_eq_none_of_page hpage, Cell.spare (first + l.offset.toNat), ?_, ?_, ?_⟩
    · rw [Storage.get?_push, if_pos hpage, Storage.get?_sparePage, if_pos hlt]
    · exact Cell.slot_spare (by omega)
    · exact Cell.isRoot_spare _

theorem length_pageLocations (n count : Nat) : (Storage.pageLocations n count).length = count := by
  simp [Storage.pageLocations]

/-- The cons table grows by a page of free slots, or the growth is refused without a trace. -/
theorem growZones_cases (h : t.Sound) (count : Nat) :
    (∃ e, e.isAllocation = true ∧ growZones count t = .error (.error e) t) ∨
      ∃ u page slots, growZones count t = .ok () u ∧ Grown t u slots [] ∧ slots.length = count ∧
        0 < count ∧ u.storage = t.storage.push page := by
  obtain ⟨s, z, r⟩ := t
  rw [growZones, bind_get]
  rcases Storage.reserve_cases slotWidth z.capacity count s with ⟨e, halloc, he⟩ | hroom
  · exact .inl ⟨e, halloc, bind_error (by simp only [onStorage, he])⟩
  rw [bind_ok (by rw [onStorage, hroom])]
  rcases Storage.addPage_cases count z.capacity s with
    ⟨e, halloc, he⟩ | ⟨block, hok, hcount, hmax, hbudget⟩
  · exact .inl ⟨e, halloc, bind_error (by simp only [onStorage, he])⟩
  right
  let page := Storage.sparePage block count z.capacity
  refine ⟨⟨s.push page, { z with slots := z.slots ++ Storage.pageLocations s.pages.size count }, r⟩,
    page, Storage.pageLocations s.pages.size count, ?_, ?_, length_pageLocations _ _, hcount, rfl⟩
  · rw [bind_ok (by rw [onStorage, hok]), modifyZones_ok]
  · obtain ⟨hnamed, hnew⟩ := h.get?_push_sparePage block hmax
    constructor
    · rfl
    · simp
    · exact fun hc => Storage.get?_push_of_some page hc
    · exact fun hnone hc => (hnamed hnone hc).imp .inl id
    · exact hnew
    · exact fun hi => absurd hi (by simp)
    · exact .inr rfl
    · exact h.storage.push (by simpa [page] using hcount) hbudget
    · simp [Storage.push, page, length_pageLocations]
    · rw [length_pageLocations]
      exact hmax
    · exact h.entries_le

/-- The root table grows by a page of spare entries, or the growth is refused without a trace. -/
theorem growRoots_cases (h : t.Sound) (count : Nat) :
    (∃ e, e.isAllocation = true ∧ growRoots count t = .error (.error e) t) ∨
      ∃ u page entries, growRoots count t = .ok () u ∧ Grown t u [] entries ∧
        entries.length = count ∧ 0 < count ∧ u.storage = t.storage.push page := by
  obtain ⟨s, z, r⟩ := t
  rw [growRoots, bind_get]
  rcases Storage.reserve_cases entryWidth r.capacity count s with ⟨e, halloc, he⟩ | hroom
  · exact .inl ⟨e, halloc, bind_error (by simp only [onStorage, he])⟩
  rw [bind_ok (by rw [onStorage, hroom])]
  rcases Storage.addPage_cases count r.capacity s with
    ⟨e, halloc, he⟩ | ⟨block, hok, hcount, hmax, hbudget⟩
  · exact .inl ⟨e, halloc, bind_error (by simp only [onStorage, he])⟩
  right
  let page := Storage.sparePage block count r.capacity
  -- every cell of the page gets an entry with no count
  let new := (Storage.pageLocations s.pages.size count).map (RootEntry.mk · 0)
  have hlen : new.length = count := by rw [List.length_map, length_pageLocations]
  refine ⟨⟨s.push page, z, { r with entries := r.entries ++ new }⟩, page, new, ?_, ?_, hlen, hcount,
    rfl⟩
  · rw [bind_ok (by rw [onStorage, hok]), modifyRoots_ok]
  · obtain ⟨hnamed, hnew⟩ := h.get?_push_sparePage block hmax
    constructor
    · simp
    · rfl
    · exact fun hc => Storage.get?_push_of_some page hc
    · intro l c hnone hc
      obtain ⟨hl, hcontents⟩ := hnamed hnone hc
      exact ⟨.inr ⟨⟨l, 0⟩, List.mem_map.2 ⟨l, hl, rfl⟩, rfl⟩, hcontents⟩
    · exact fun hi => absurd hi (by simp)
    · intro i e hi
      rw [List.getElem?_map, Option.map_eq_some_iff] at hi
      obtain ⟨l, hl, rfl⟩ := hi
      exact ⟨rfl, hnew hl⟩
    · exact .inl rfl
    · exact h.storage.push (by simpa [page] using hcount) hbudget
    · simp [Storage.push, page, hlen]
    · exact h.slots_le
    · rw [hlen]
      exact hmax

/-! ## Undoing a growth -/

section Undo

variable {s : Storage} {z : Zones} {r : Roots}

/-- The slots of a growth are cut off again. -/
theorem cutSlots_append (hz : z.whiteTop ≤ z.capacity) (new : List Location) :
    cutSlots z.capacity ⟨s, { z with slots := z.slots ++ new }, r⟩ = .ok () ⟨s, z, r⟩ := by
  rw [cutSlots, bind_get, bind_ok (expect_ok (by simpa using hz)), modifyZones_ok]
  simp [Zones.capacity, append_list]

theorem cutEntries_self (hr : r.live ≤ r.capacity) :
    cutEntries r.capacity ⟨s, z, r⟩ = .ok () ⟨s, z, r⟩ := by
  rw [cutEntries, bind_get, bind_ok (expect_ok (by simpa using hr)), modifyRoots_ok]
  simp [Roots.capacity]

end Undo

end ConsHeap.Tables
