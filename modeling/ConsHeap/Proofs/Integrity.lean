import ConsHeap.Proofs.Safety
import ConsHeap.Proofs.Verdict

/-!
# The audit finds nothing

* `Tables.Position`, `Tables.named?`: the positions of both tables, and the cells that they name.
* `Tables.Sound.existsUnique_position`: every stored cell is named by one position.
* `Memory.Good.audit`: a good heap passes the audit.
* `Memory.audit_finds_nothing`: **the audit passes after every run, and all that it looks for is as it
  should be.**
-/

namespace ConsHeap

/-- A position in one of the two tables. -/
inductive Tables.Position where
  | slot (i : Nat)
  | entry (i : Nat)

/-- The cell that a position names. -/
def Tables.named? (t : Tables) : Position → Option Location
  | .slot i => t.zones.slots[i]?
  | .entry i => (t.roots.entries[i]?).map RootEntry.location

namespace Tables

variable {t : Tables} {l : Location} {c : Cell}

/-- **Every stored cell is named by one position across the two tables.** -/
theorem Sound.existsUnique_position (h : t.Sound) (hc : t.storage.get? l = some c) :
    ∃! p, t.named? p = some l := by
  rcases h.named hc with hmem | ⟨i, e, hi, rfl⟩
  · obtain ⟨i, hi⟩ := Array.mem_iff_getElem?.1 hmem
    refine ⟨.slot i, hi, ?_⟩
    rintro (j | j) hj
    · rw [h.zones.injective hj hi]
    · obtain ⟨e, he, rfl⟩ := Option.map_eq_some_iff.1 hj
      exact absurd hmem (h.apart he)
  · refine ⟨.entry i, Option.map_eq_some_iff.2 ⟨e, hi, rfl⟩, ?_⟩
    rintro (j | j) hj
    · exact absurd (Array.mem_iff_getElem?.2 ⟨j, hj⟩) (h.apart hi)
    · obtain ⟨d, hd, hloc⟩ := Option.map_eq_some_iff.1 hj
      rw [h.roots.injective hd hi hloc]

end Tables

namespace Memory

variable {m : Memory} {l : Location} {c : Cell} {i : Nat} {e : RootEntry} {handle : Handle}

/-- What a black cell or a root refers to is live and not white. -/
theorem Good.guarded (hg : m.Good)
    (hl : m.heap.tables.color? l = some .black ∨ m.heap.tables.color? l = some .root)
    (hc : m.heap.cell? l = some c) (hmem : handle ∈ c.handles) :
    m.heap.resolve handle = some handle.location ∧ m.heap.tables.color? handle.location ≠ none ∧
      m.heap.tables.color? handle.location ≠ some .white := by
  have hres := hg.resolve_of_live (by rcases hl with hl | hl <;> simp [hl]) hc hmem
  have hres' := (m.heap.resolve_view handle).trans hres
  exact ⟨hres, View.live_of_resolve hres',
    hg.safe.guarded hl _ ⟨_, Heap.contents_view hc, handle, hmem, hres'⟩⟩

/-- The cells whose references are looked at are black or roots. -/
theorem Good.color_of_scanned (hg : m.Good) (hl : m.heap.Scanned l) :
    m.heap.tables.color? l = some .black ∨ m.heap.tables.color? l = some .root := by
  rcases hl with ⟨i, hlt, hi⟩ | ⟨i, hlt, e, he, rfl⟩
  · left
    rw [Tables.color?_of_slot hg.sound.zones hi, Zones.zone_eq_black.2 hlt, Zone.color]
  · right
    rw [hg.sound.color?_of_entry he, if_pos hlt]

/-- All that the audit looks at is as it should be in a good heap. -/
theorem Good.passes (hg : m.Good) : m.heap.Passes where
  ordered := hg.sound.zones.ordered
  slots _ _ hi := hg.sound.zones.records hi
  entries _ _ he := ⟨hg.sound.roots.records he, (hg.sound.roots.counted he).2⟩
  apart i e he hslot := hg.sound.apart he (Array.mem_iff_getElem?.2 ⟨i, hslot⟩)
  counted := hg.sound.cells.symm
  references l c handle hl hc hmem := by
    obtain ⟨hres, -, hwhite⟩ := hg.guarded (hg.color_of_scanned hl) hc hmem
    exact ⟨_, hres, hwhite⟩

/-- **A good heap passes the audit.** -/
theorem Good.audit (hg : m.Good) : m.heap.audit = .ok () := by
  refine (Heap.decides_audit (fun i l hi => ?_) fun i e he => ?_).ok_iff.2 hg.passes
  · obtain ⟨c, hc, -⟩ := hg.sound.zones.records hi
    exact ⟨c, hc⟩
  · obtain ⟨c, hc, -⟩ := hg.sound.roots.records he
    exact ⟨c, hc⟩

theorem Good.check (hg : m.Good) : m.heap.check = .ok () := by
  rw [Heap.check, hg.audit]

/-- **After any run of a heap of any sizing, the audit finds nothing: the boundaries are in order,
every slot and every entry names a cell that records it, exactly the live entries are those of roots
and are counted, every stored cell is named by one position, and no root or black cell refers to a
white or dead cell.** -/
theorem audit_finds_nothing (id : UInt32) (sizing : Sizing) (ledger : Ledger) (moves : List Move) :
    let h := ((start id sizing ledger).runs moves).heap
    let z := h.tables.zones
    let r := h.tables.roots
    h.check = .ok () ∧
      (z.blackTop ≤ z.greyBegin ∧ z.greyBegin ≤ z.greyTop ∧ z.greyTop ≤ z.whiteTop ∧
        z.whiteTop ≤ z.capacity) ∧
      (∀ (i : Nat) l, z.slots[i]? = some l → ∃ c, h.cell? l = some c ∧ c.slot = i ∧ c.isRoot = false) ∧
      (∀ (i : Nat) e, r.entries[i]? = some e → ∃ c, h.cell? e.location = some c ∧ c.slot = i ∧
        (c.isRoot = true ↔ i < r.live) ∧ (i < r.live → 1 ≤ e.count)) ∧
      (∀ l c, h.cell? l = some c → ∃! p, h.tables.named? p = some l) ∧
      ∀ l c, h.tables.color? l = some .black ∨ h.tables.color? l = some .root → h.cell? l = some c →
        ∀ handle ∈ c.handles, h.resolve handle = some handle.location ∧
          h.tables.color? handle.location ≠ none ∧ h.tables.color? handle.location ≠ some .white := by
  intro h z r
  have hg : Good ((start id sizing ledger).runs moves) := good_runs id sizing ledger moves
  obtain ⟨hgap, hgrey, hwhite, hfree⟩ := hg.sound.zones.ordered
  refine ⟨hg.check, ⟨hgap, hgrey, hwhite, hfree⟩, ?_, ?_, ?_, ?_⟩
  · intro i l hi
    exact hg.sound.zones.records hi
  · intro i e hi
    obtain ⟨c, hc, hslot, hroot⟩ := hg.sound.roots.records hi
    exact ⟨c, hc, hslot, by rw [hroot, decide_eq_true_iff], (hg.sound.roots.counted hi).2⟩
  · intro l c hc
    exact hg.sound.existsUnique_position hc
  · intro l c hl hc handle hmem
    exact hg.guarded hl hc hmem

end Memory

end ConsHeap
