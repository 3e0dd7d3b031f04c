import ConsHeap.Proofs.Tables.ConsTable
import ConsHeap.Tables.Exchange

/-!
# Sound tables

Both tables are sound when every slot and every entry names a cell that records it, no cell is named
twice, and every stored cell is named. Then each location is in one of three cases: a slot of the
cons table names it, an entry of the root table names it, or there is no cell.

* `Tables.RootsSound`, `Tables.Sound`: soundness of the root table, and of both tables.
* `Tables.count`: the root count of the cell at a location.
* `Tables.Sound.cases`: the three cases, and with them colours and counts.
* `Tables.Sound.relocated`: a move in the cons table keeps both tables sound, and all counts.
-/

namespace ConsHeap.Tables

variable {t u : Tables} {i j k : Nat} {l m : Location} {c : Cell} {e : RootEntry}

/-- The first `live` entries are counted roots, and every entry names a cell that records it. -/
structure RootsSound (t : Tables) : Prop where
  live_le : t.roots.live ≤ t.roots.capacity
  records : ∀ {i : Nat} {e : RootEntry}, t.roots.entries[i]? = some e →
    t.storage.Records e.location i (decide (i < t.roots.live))
  counted : ∀ {i : Nat} {e : RootEntry}, t.roots.entries[i]? = some e → (0 < e.count ↔ i < t.roots.live)

/-- No cell is named by two entries. -/
theorem RootsSound.injective {d : RootEntry} (h : t.RootsSound) (hi : t.roots.entries[i]? = some e)
    (hj : t.roots.entries[j]? = some d) (hl : e.location = d.location) : i = j :=
  ((h.records hi).unique (hl ▸ h.records hj)).1

/-- Every stored cell is named by one slot or entry, which it records. -/
structure Sound (t : Tables) : Prop where
  zones : t.ZonesSound
  roots : t.RootsSound
  apart : ∀ {i : Nat} {e : RootEntry}, t.roots.entries[i]? = some e → e.location ∉ t.zones.slots
  named : ∀ {l c}, t.storage.get? l = some c →
    l ∈ t.zones.slots ∨ ∃ (i : Nat) (e : RootEntry), t.roots.entries[i]? = some e ∧ e.location = l
  storage : t.storage.Sound
  cells : t.storage.cells = t.zones.capacity + t.roots.capacity
  slots_le : t.zones.capacity ≤ Placement.maxSlot
  entries_le : t.roots.capacity ≤ Placement.maxSlot

/-- The root count of the cell at a location. -/
def count (t : Tables) (l : Location) : Nat :=
  match t.storage.get? l with
  | none => 0
  | some c => if c.isRoot then t.roots.entries[c.slot]?.elim 0 RootEntry.count else 0

theorem count_of_get?_eq_none (h : t.storage.get? l = none) : t.count l = 0 := by
  simp [count, h]

theorem color?_of_get?_eq_none (h : t.storage.get? l = none) : t.color? l = none := by
  simp [color?, h]

/-- A cell with a colour is stored. -/
theorem exists_cell (hl : t.color? l ≠ none) : ∃ c, t.storage.get? l = some c := by
  cases hc : t.storage.get? l with
  | none => exact absurd (color?_of_get?_eq_none hc) hl
  | some c => exact ⟨c, rfl⟩

/-- Cells of the cons table are not counted. -/
theorem ZonesSound.count_of_slot (h : t.ZonesSound) (hk : t.zones.slots[k]? = some l) :
    t.count l = 0 := by
  obtain ⟨c, hc, -, hroot⟩ := h.records hk
  simp [count, hc, hroot]

namespace Sound

/-- A location is named by a slot or by an entry, or there is no cell. -/
theorem cases (h : t.Sound) (l : Location) :
    (∃ k : Nat, t.zones.slots[k]? = some l) ∨
      (∃ (i : Nat) (e : RootEntry), t.roots.entries[i]? = some e ∧ e.location = l) ∨
      t.storage.get? l = none := by
  cases hc : t.storage.get? l with
  | none => exact .inr (.inr rfl)
  | some c =>
    rcases h.named hc with hl | he
    · exact .inl (Array.mem_iff_getElem?.1 hl)
    · exact .inr (.inl he)

/-- The live entries are the roots, and no other cell is one. -/
theorem color?_of_entry (h : t.Sound) (hi : t.roots.entries[i]? = some e) :
    t.color? e.location = if i < t.roots.live then some .root else none := by
  obtain ⟨c, hc, -, hroot⟩ := h.roots.records hi
  rw [color?_of_not_mem (h.apart hi), hc]
  simp [hroot]

theorem count_of_entry (h : t.Sound) (hi : t.roots.entries[i]? = some e) :
    t.count e.location = e.count := by
  obtain ⟨c, hc, rfl, hroot⟩ := h.roots.records hi
  have hcount := h.roots.counted hi
  by_cases hlive : c.slot < t.roots.live
  · simp [count, hc, hroot, hlive, hi]
  · simp [count, hc, hroot, hlive]
    omega

/-- A live cell in the cons table has a slot in a live zone. -/
theorem exists_slot (h : t.Sound) (hl : t.color? l ≠ none) (hroot : t.color? l ≠ some .root) :
    ∃ k : Nat, t.zones.slots[k]? = some l ∧ (t.zones.zone k).color = t.color? l := by
  rcases h.cases l with ⟨k, hk⟩ | ⟨i, e, hi, rfl⟩ | hnone
  · exact ⟨k, hk, (color?_of_slot h.zones hk).symm⟩
  · rw [h.color?_of_entry hi] at hl hroot
    split at hl <;> simp_all
  · exact absurd (color?_of_get?_eq_none hnone) hl

/-- A root has a live entry. -/
theorem exists_entry (h : t.Sound) (hl : t.color? l = some .root) :
    ∃ (i : Nat) (e : RootEntry), t.roots.entries[i]? = some e ∧ e.location = l ∧
      i < t.roots.live := by
  rcases h.cases l with ⟨k, hk⟩ | ⟨i, e, hi, rfl⟩ | hnone
  · rw [color?_of_slot h.zones hk] at hl
    cases hz : t.zones.zone k <;> simp [hz, Zone.color] at hl
  · refine ⟨i, e, hi, rfl, ?_⟩
    rw [h.color?_of_entry hi] at hl
    by_contra hge
    rw [if_neg hge] at hl
    cases hl
  · rw [color?_of_get?_eq_none hnone] at hl
    cases hl

/-- A live cell that is not a root records a slot in a live zone. -/
theorem slot_of_live (h : t.Sound) (hc : t.storage.get? l = some c) (hl : t.color? l ≠ none)
    (hroot : t.color? l ≠ some .root) :
    t.zones.slots[c.slot]? = some l ∧ (t.zones.zone c.slot).color = t.color? l ∧ c.isRoot = false := by
  obtain ⟨k, hk, hz⟩ := h.exists_slot hl hroot
  obtain ⟨c', hc', rfl, hr⟩ := h.zones.records hk
  obtain rfl := Option.some.inj (hc'.symm.trans hc)
  exact ⟨hk, hz, hr⟩

/-- A root records a live entry, which has its count. -/
theorem entry_of_root (h : t.Sound) (hc : t.storage.get? l = some c) (hl : t.color? l = some .root) :
    t.roots.entries[c.slot]? = some ⟨l, t.count l⟩ ∧ c.slot < t.roots.live ∧ 0 < t.count l ∧
      c.isRoot = true := by
  obtain ⟨i, e, hi, rfl, hlt⟩ := h.exists_entry hl
  obtain ⟨c', hc', rfl, hr⟩ := h.roots.records hi
  obtain rfl := Option.some.inj (hc'.symm.trans hc)
  rw [h.count_of_entry hi]
  exact ⟨hi, hlt, (h.roots.counted hi).2 hlt, hr.trans (decide_eq_true hlt)⟩

/-- A cell that records an entry as a root is one. -/
theorem isRoot_iff (h : t.Sound) (hc : t.storage.get? l = some c) :
    c.isRoot = true ↔ t.color? l = some .root := by
  refine ⟨fun hr => ?_, fun hl => (h.entry_of_root hc hl).2.2.2⟩
  simp [color?, hc, hr]

/-- Only roots are counted. -/
theorem count_eq_zero (h : t.Sound) (hl : t.color? l ≠ some .root) : t.count l = 0 := by
  cases hc : t.storage.get? l with
  | none => exact count_of_get?_eq_none hc
  | some c =>
    have hroot : ¬c.isRoot = true := mt (h.isRoot_iff hc).1 hl
    simp only [count, hc, if_neg hroot]

/-- The rooted cells are those of the live entries. -/
theorem mem_locations_iff (h : t.Sound) : l ∈ t.roots.locations ↔ t.color? l = some .root := by
  rw [Roots.locations, List.mem_map]
  constructor
  · rintro ⟨e, he, rfl⟩
    obtain ⟨i, hi⟩ := List.mem_iff_getElem?.1 he
    rw [List.getElem?_take] at hi
    split at hi
    · next hlt =>
      rw [h.color?_of_entry (by rw [← Array.getElem?_toList]; exact hi), if_pos hlt]
    · cases hi
  · intro hl
    obtain ⟨i, e, hi, rfl, hlt⟩ := h.exists_entry hl
    refine ⟨e, List.mem_iff_getElem?.2 ⟨i, ?_⟩, rfl⟩
    rw [List.getElem?_take, if_pos hlt, Array.getElem?_toList, hi]

/-- Soundness does not depend on what memory there is. -/
theorem supplied (h : t.Sound) (supply : Paging.Supply) : (t.supplied supply).Sound where
  zones := ⟨h.zones.ordered, h.zones.records⟩
  roots := ⟨h.roots.live_le, h.roots.records, h.roots.counted⟩
  apart := h.apart
  named := h.named
  storage := ⟨h.storage.cells, h.storage.filled, h.storage.charged, h.storage.within⟩
  cells := h.cells
  slots_le := h.slots_le
  entries_le := h.entries_le

/-- A move in the cons table keeps both tables sound. -/
theorem relocated (h : t.Sound) (hr : t.Relocated u) (hu : u.ZonesSound) : u.Sound where
  zones := hu
  roots := by
    constructor
    · rw [hr.roots]
      exact h.roots.live_le
    · intro i e hi
      rw [hr.roots] at hi ⊢
      exact (h.roots.records hi).congr (hr.outside _ (h.apart hi))
    · intro i e hi
      rw [hr.roots] at hi ⊢
      exact h.roots.counted hi
  apart := by
    intro i e hi
    rw [hr.mem_iff]
    rw [hr.roots] at hi
    exact h.apart hi
  named := by
    intro l c hc
    -- the cell was stored before the move, too
    obtain ⟨c', hc'⟩ := hr.shape.exists_get? hc
    rw [hr.mem_iff, hr.roots]
    exact h.named hc'
  storage := h.storage.congr hr.shape
  cells := by rw [hr.shape.cells, hr.capacity, hr.roots, h.cells]
  slots_le := by
    rw [hr.capacity]
    exact h.slots_le
  entries_le := by
    rw [hr.roots]
    exact h.entries_le

/-- A move in the cons table keeps all counts. -/
theorem count_relocated (h : t.Sound) (hr : t.Relocated u) (hu : u.ZonesSound) (l : Location) :
    u.count l = t.count l := by
  by_cases hl : l ∈ t.zones.slots
  · obtain ⟨k, hk⟩ := Array.mem_iff_getElem?.1 hl
    obtain ⟨j, hj⟩ := Array.mem_iff_getElem?.1 ((hr.mem_iff l).2 hl)
    rw [h.zones.count_of_slot hk, hu.count_of_slot hj]
  · rw [count, count, hr.outside l hl, hr.roots]

end Sound

theorem sound_ofLimit (limit : Option Nat) : (ofLimit limit).Sound where
  zones := ⟨Zones.ordered_empty, fun hi => absurd hi (by simp [ofLimit, Zones.empty])⟩
  roots := ⟨Nat.le_refl 0, fun hi => absurd hi (by simp [ofLimit, Roots.empty]),
    fun hi => absurd hi (by simp [ofLimit, Roots.empty])⟩
  apart hi := absurd hi (by simp [ofLimit, Roots.empty])
  named hc := absurd hc (by simp [ofLimit, Storage.ofLimit, Storage.get?])
  storage := Storage.sound_ofLimit limit
  cells := rfl
  slots_le := Nat.zero_le _
  entries_le := Nat.zero_le _

end ConsHeap.Tables
