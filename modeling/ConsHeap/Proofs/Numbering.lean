import ConsHeap.Proofs.Faults
import ConsHeap.Proofs.View.Holders

/-!
# Numbers in words

A location has a page number and a place on that page in a word each, and a cell records its slot in the
bits of a word that the flag leaves. All of these are cut to their words without a check where they are
stored. There is one check, when a page is added, and it is on the slots of one table: they must not go
past the largest slot number. Pages have at least one cell each and both tables name all cells, so page
numbers fit because the slots of the two tables do.

* `Tables.Fits`, `Tables.Sound.fits`: no number of sound tables is too large for its word.
* `Tables.Sound.place_on_page`: the location of a cell has its page and place in full.
* `Tables.Moved`, `Tables.Sound.place_moved`: a cell that is placed records what was asked for.
* `Tables.Guards`, `Tables.Sound.guards_growZones`, `Tables.Sound.guards_growRoots`: growth keeps all
  numbers within their words, or is refused without a trace.
* `Heap.Overruns`, `Memory.Good.refuses_overrun`: so is an operation that needs such a growth.
* `Memory.numbers_are_kept_in_full`: **all this holds after any run.**
-/

namespace ConsHeap

open Paging

namespace Tables

variable {t u : Tables} {l : Location} {c : Cell} {i : Nat}

/-- The numbers of slots, entries, pages and places on pages fit the words that they are kept in. -/
structure Fits (t : Tables) : Prop where
  slot_lt : ∀ i < t.zones.capacity, i < 2 ^ 31 - 1
  entry_lt : ∀ i < t.roots.capacity, i < 2 ^ 31 - 1
  page_lt : ∀ n < t.storage.pages.size, n < 2 ^ 32
  place_lt : ∀ n k, t.storage.HasCell n k → k < 2 ^ 32

theorem Sound.fits (h : t.Sound) : t.Fits where
  slot_lt i hi := by
    have hmax := h.slots_le
    simp only [Placement.maxSlot] at hmax
    omega
  entry_lt i hi := by
    have hmax := h.entries_le
    simp only [Placement.maxSlot] at hmax
    omega
  page_lt n hn := Nat.lt_trans hn h.pages_lt
  place_lt n k hcell := (h.numbered.lt_of_hasCell hcell).2

/-- The numbers of a location are those of the page and the place that it was made for, and the cell that
is found there is the one on that page. -/
theorem Sound.place_on_page (h : t.Sound) {n k : Nat} (hcell : t.storage.HasCell n k) :
    (Location.ofNat n k).page.toNat = n ∧ (Location.ofNat n k).offset.toNat = k ∧
      t.storage.get? (.ofNat n k) = t.storage.pages[n]?.bind (·.get? k) := by
  obtain ⟨hn, hk⟩ := h.numbered.lt_of_hasCell hcell
  obtain ⟨hpage, hplace⟩ := Storage.toNat_ofNat hn hk
  exact ⟨hpage, hplace, by rw [Storage.get?, hpage, hplace]⟩

/-- Different cells have different locations. -/
theorem Sound.eq_of_ofNat_eq (h : t.Sound) {n k n' k' : Nat} (hcell : t.storage.HasCell n k)
    (hcell' : t.storage.HasCell n' k') (heq : Location.ofNat n k = .ofNat n' k') : n = n' ∧ k = k' := by
  obtain ⟨hn, hk, -⟩ := h.place_on_page hcell
  obtain ⟨hn', hk', -⟩ := h.place_on_page hcell'
  rw [heq] at hn hk
  exact ⟨hn.symm.trans hn', hk.symm.trans hk'⟩

/-! ## Placing a cell -/

/-- The cell at a location records slot `i` of the table that the flag names, and no other cell has
changed. -/
structure Moved (t u : Tables) (l : Location) (i : Nat) (isRoot : Bool) : Prop where
  records : u.storage.Records l i isRoot
  rest : ∀ m ≠ l, u.storage.get? m = t.storage.get? m

/-- A slot of one of the tables has a number that a cell can record. -/
theorem Sound.le_maxSlot (h : t.Sound) (hi : i < t.zones.capacity ∨ i < t.roots.capacity) :
    i ≤ Placement.maxSlot := by
  have hslots := h.slots_le
  have hentries := h.entries_le
  omega

/-- A cell placed at any slot of the tables records that slot, and the flag that it was placed with. -/
theorem Sound.place_moved (h : t.Sound) (hc : t.storage.get? l = some c)
    (hi : i < t.zones.capacity ∨ i < t.roots.capacity) (b : Bool) :
    ∃ u, place l i b t = .ok () u ∧ t.Moved u l i b := by
  have hmax := h.le_maxSlot hi
  obtain ⟨s, z, r⟩ := t
  exact ⟨_, place_ok hc hmax b, Storage.records_set_place hc hmax,
    fun m hm => Storage.get?_set_of_ne hm _⟩

/-- A cell that gets another slot in its table keeps its flag. -/
theorem Sound.renumber_moved (h : t.Sound) (hc : t.storage.get? l = some c)
    (hi : i < t.zones.capacity ∨ i < t.roots.capacity) :
    ∃ u, renumber l i t = .ok () u ∧ t.Moved u l i c.isRoot := by
  have hmax := h.le_maxSlot hi
  obtain ⟨s, z, r⟩ := t
  exact ⟨_, renumber_ok hc hmax, Storage.records_set_place hc hmax,
    fun m hm => Storage.get?_set_of_ne hm _⟩

/-! ## Growth -/

/-- A growth to a capacity keeps to the words, or is refused for want of memory and leaves no trace. It is
refused when the capacity is past the largest slot number. -/
structure Guards (t : Tables) (grow : TablesM Unit) (capacity : Nat) : Prop where
  ends : (∃ u, grow t = .ok () u ∧ u.Fits) ∨
    ∃ e, e.isAllocation = true ∧ grow t = .error (.error e) t
  refused : Placement.maxSlot < capacity → ∃ e, e.isAllocation = true ∧ grow t = .error (.error e) t

theorem Sound.guards_growZones (h : t.Sound) (count : Nat) :
    t.Guards (growZones count) (t.zones.capacity + count) := by
  rcases growZones_cases h count with herr | ⟨u, -, slots, hok, hg, rfl, -⟩
  · exact ⟨.inr herr, fun _ => herr⟩
  · exact ⟨.inl ⟨u, hok, (hg.sound h).fits⟩, fun hmax => absurd hg.slots_le (Nat.not_le.2 hmax)⟩

theorem Sound.guards_growRoots (h : t.Sound) (count : Nat) :
    t.Guards (growRoots count) (t.roots.capacity + count) := by
  rcases growRoots_cases h count with herr | ⟨u, -, entries, hok, hg, rfl, -⟩
  · exact ⟨.inr herr, fun _ => herr⟩
  · exact ⟨.inl ⟨u, hok, (hg.sound h).fits⟩, fun hmax => absurd hg.entries_le (Nat.not_le.2 hmax)⟩

end Tables

/-! ## Operations that need a growth -/

namespace Heap

variable {h h' : Heap} {x : Value} {l : Location}

/-- A page for the cons table would go past the largest slot number. -/
def SlotsOverrun (h : Heap) : Prop :=
  Placement.maxSlot < h.tables.zones.capacity + h.sizing.cellsPerPage

/-- A page for the root table would go past the largest slot number. -/
def EntriesOverrun (h : Heap) : Prop :=
  Placement.maxSlot < h.tables.roots.capacity + h.sizing.rootsPerPage

/-- The operations that need a page whose slots would go past the largest number. -/
inductive Overruns (h : Heap) : Operation Value → Prop where
  | cons {tag : Tag} {car cdr : Value} : tag.family = some .cons → h.accepts car = true →
    h.accepts cdr = true → h.tables.zones.isFull = true → h.SlotsOverrun → Overruns h (.cons tag car cdr)
  | rootedCons {tag : Tag} {car cdr : Value} : tag.family = some .cons → h.accepts car = true →
    h.accepts cdr = true →
    h.tables.zones.isFull = true ∧ h.SlotsOverrun ∨ h.tables.roots.isFull = true ∧ h.EntriesOverrun →
    Overruns h (.rootedCons tag car cdr)
  /-- The first time that a cell is rooted, it needs an entry. -/
  | root {x : Value} {l : Location} : h.live x = .ok l → h.tables.color? l ≠ some .root →
    h.tables.roots.isFull = true → h.EntriesOverrun → Overruns h (.root x)
  /-- The last time that a cell is unrooted, it needs a slot for a black cell. -/
  | unroot {x : Value} {l : Location} : h.live x = .ok l → h.tables.color? l = some .root →
    h.tables.count l = 1 → h.tables.zones.canExtendBlack = false → h.SlotsOverrun →
    Overruns h (.unroot x)

theorem roomForCell_refused (hs : h.tables.Sound) (hfull : h.tables.zones.isFull = true)
    (hover : h.SlotsOverrun) : ∃ e, e.isAllocation = true ∧ roomForCell h = .error (.error e) h := by
  obtain ⟨id, sizing, kinds, t⟩ := h
  obtain ⟨e, halloc, he⟩ := (hs.guards_growZones sizing.cellsPerPage).refused hover
  refine ⟨e, halloc, ?_⟩
  rw [roomForCell, bind_get]
  simp only [hfull, if_true]
  exact onTables_error he

theorem roomForRoot_refused (hs : h.tables.Sound) (hfull : h.tables.roots.isFull = true)
    (hover : h.EntriesOverrun) : ∃ e, e.isAllocation = true ∧ roomForRoot h = .error (.error e) h := by
  obtain ⟨id, sizing, kinds, t⟩ := h
  obtain ⟨e, halloc, he⟩ := (hs.guards_growRoots sizing.rootsPerPage).refused hover
  refine ⟨e, halloc, ?_⟩
  rw [roomForRoot, bind_get]
  simp only [hfull, if_true]
  exact onTables_error he

/-- Room for a cell does not touch the root table. -/
theorem roots_of_roomForCell (hs : h.tables.Sound) (hok : roomForCell h = .ok () h') :
    h'.tables.roots = h.tables.roots ∧ h'.sizing = h.sizing := by
  obtain ⟨id, sizing, kinds, t⟩ := h
  rw [roomForCell, bind_get] at hok
  cases hfull : t.zones.isFull with
  | false =>
    simp only [hfull, Bool.false_eq_true, if_false] at hok
    cases hok
    exact ⟨rfl, rfl⟩
  | true =>
    simp only [hfull, if_true] at hok
    rcases Tables.growZones_cases hs sizing.cellsPerPage with ⟨e, -, he⟩ | ⟨u, -, slots, hu, hg, -⟩
    · rw [onTables_error he] at hok
      cases hok
    · rw [onTables_ok hu] at hok
      cases hok
      have hroots := hg.roots
      rw [Array.appendList_nil] at hroots
      exact ⟨hroots, rfl⟩

theorem roomForBoth_refused (hs : h.tables.Sound)
    (hover : h.tables.zones.isFull = true ∧ h.SlotsOverrun ∨ h.tables.roots.isFull = true ∧ h.EntriesOverrun) :
    ∃ e, e.isAllocation = true ∧ roomForBoth h = .error (.error e) h := by
  rcases roomForBoth_cases hs with herr | ⟨h₂, hok, -⟩
  · exact herr
  -- if there is room for both, there is room for each in turn
  rw [roomForBoth, bind_get] at hok
  exfalso
  rcases roomForCell_cases hs with ⟨e, -, he⟩ | ⟨h₁, hok₁, hw, hroom, hundo⟩
  · rw [tryCatch_error (bind_error he), bind_ok (shrinkTo_self hs)] at hok
    cases hok
  rcases hover with ⟨hfull, hslots⟩ | ⟨hfull, hentries⟩
  · obtain ⟨e, -, he⟩ := roomForCell_refused hs hfull hslots
    rw [hok₁] at he
    cases he
  · obtain ⟨hroots, hsizing⟩ := roots_of_roomForCell hs hok₁
    obtain ⟨e, -, he⟩ := roomForRoot_refused hw.becomes.sound (by rw [hroots]; exact hfull)
      (by rw [EntriesOverrun, hroots, hsizing]; exact hentries)
    rw [tryCatch_error ((bind_ok hok₁).trans he), bind_ok hundo] at hok
    cases hok

theorem root_refused (hs : h.tables.Sound) (hx : h.live x = .ok l) (hl : h.tables.color? l ≠ some .root)
    (hfull : h.tables.roots.isFull = true) (hover : h.EntriesOverrun) :
    ∃ e, e.isAllocation = true ∧ root x h = .error (.error e) h := by
  obtain ⟨e, halloc, he⟩ := roomForRoot_refused hs hfull hover
  obtain ⟨tag, handle, rfl, hres⟩ := live_eq_ok_iff.1 hx
  obtain ⟨-, -, hlive, c, hc, -⟩ := resolve_eq_some_iff.1 hres
  obtain ⟨-, -, hroot⟩ := hs.slot_of_live hc (Option.isSome_iff_ne_none.1 hlive) hl
  exact ⟨e, halloc, (root_of_liveCell (liveCell_of_resolve hres hc) hroot).trans (bind_error he)⟩

theorem unroot_refused (hs : h.tables.Sound) (hx : h.live x = .ok l) (hl : h.tables.color? l = some .root)
    (hcount : h.tables.count l = 1) (hroom : h.tables.zones.canExtendBlack = false)
    (hover : h.SlotsOverrun) : ∃ e, e.isAllocation = true ∧ unroot x h = .error (.error e) h := by
  obtain ⟨tag, handle, rfl, hres⟩ := live_eq_ok_iff.1 hx
  obtain ⟨-, -, -, c, hc, -⟩ := resolve_eq_some_iff.1 hres
  have hlive : h.liveCell (.cons tag handle) = .ok (l, c) := liveCell_of_resolve hres hc
  have hstart := unroot_of_liveCell hs hc hl hlive
  rw [hcount, if_neg (Nat.lt_irrefl 1), toBlack_eq, hroom] at hstart
  obtain ⟨id, sizing, kinds, t⟩ := h
  obtain ⟨e, halloc, he⟩ := (hs.guards_growZones sizing.cellsPerPage).refused hover
  exact ⟨e, halloc, hstart.trans (bind_error (onTables_error he))⟩

end Heap

namespace Memory

variable {m : Memory} {op : Operation Value}

/-- A cell with values that may be stored passes the checks. -/
theorem checkCons_ok {tag : Tag} {car cdr : Value} (htag : tag.family = some .cons)
    (hcar : m.heap.accepts car = true) (hcdr : m.heap.accepts cdr = true) :
    checkCons tag car cdr m = .ok tag m := by
  rcases checkCons_cases m tag car cdr with ⟨e, ⟨hno, -⟩ | ⟨⟨x, hx, hno⟩, -⟩, -⟩ | ⟨hok, -⟩
  · exact absurd htag hno
  · rcases List.mem_pair.1 hx with rfl | rfl <;> simp_all
  · exact hok

/-- **An operation that needs slots past the largest number is refused for want of memory, and the heap is
as it was.** -/
theorem Good.refuses_overrun (hg : m.Good) (hover : m.heap.Overruns op) :
    ∃ e m', e.isAllocation = true ∧ op.run m = .error (.error e) m' ∧ m.Intact op.operands m' := by
  have hs := hg.sound
  obtain ⟨h, ledger⟩ := m
  cases hover with
  | @cons tag car cdr htag hcar hcdr hfull hmax =>
    obtain ⟨e, halloc, he⟩ := Heap.roomForCell_refused hs hfull hmax
    obtain ⟨m', herr, hintact⟩ := holding_error he car cdr
    have hcons : cons tag car cdr ⟨h, ledger⟩ = .error (.error e) m' := by
      rw [cons, bind_ok (checkCons_ok htag hcar hcdr), bind_error herr]
    exact ⟨e, m', halloc, map_error hcons, hintact⟩
  | @rootedCons tag car cdr htag hcar hcdr hmax =>
    obtain ⟨e, halloc, he⟩ := Heap.roomForBoth_refused hs hmax
    obtain ⟨m', herr, hintact⟩ := holding_error he car cdr
    have hcons : rootedCons tag car cdr ⟨h, ledger⟩ = .error (.error e) m' := by
      rw [rootedCons, bind_ok (checkCons_ok htag hcar hcdr), bind_error herr]
    exact ⟨e, m', halloc, map_error hcons, hintact⟩
  | root hx hl hfull hmax =>
    obtain ⟨e, halloc, he⟩ := Heap.root_refused hs hx hl hfull hmax
    exact ⟨e, _, halloc, map_error (onHeap_error he), .refl _ _⟩
  | unroot hx hl hcount hroom hmax =>
    obtain ⟨e, halloc, he⟩ := Heap.unroot_refused hs hx hl hcount hroom hmax
    exact ⟨e, _, halloc, map_error (onHeap_error he), .refl _ _⟩

/-- **After any run of a heap of any sizing, the numbers of all slots of both tables are below
`2 ^ 31 - 1`, and those of all pages and places on them are below `2 ^ 32`. The location made for a page
and a place has both in full, so that the cell is found there and no other cell has that location. A cell
placed at any slot of either table records just that slot and the flag that was set, or keeps its flag
where only the slot is set, and the other cells do not change. At rest every slot and entry is recorded by
the cell that it names, and no move ever records a number that does not fit.**

**A growth of either table by any number of cells keeps all numbers within these bounds or is refused for
want of memory, and then the tables are as they were. It is refused when it would go past the largest slot
number. An operation that needs such a growth is refused, too, and leaves the heap as it was.** -/
theorem numbers_are_kept_in_full (id : UInt32) (sizing : Sizing) (ledger : Ledger) (moves : List Move) :
    let m := (start id sizing ledger).runs moves
    let t := m.heap.tables
    t.Fits ∧
      (∀ n k, t.storage.HasCell n k →
        (Location.ofNat n k).page.toNat = n ∧ (Location.ofNat n k).offset.toNat = k ∧
          t.storage.get? (.ofNat n k) = t.storage.pages[n]?.bind (·.get? k)) ∧
      (∀ n k n' k', t.storage.HasCell n k → t.storage.HasCell n' k' →
        Location.ofNat n k = .ofNat n' k' → n = n' ∧ k = k') ∧
      (∀ l c i, t.storage.get? l = some c → i < t.zones.capacity ∨ i < t.roots.capacity →
        (∀ b, ∃ u, Tables.place l i b t = .ok () u ∧ t.Moved u l i b) ∧
          ∃ u, Tables.renumber l i t = .ok () u ∧ t.Moved u l i c.isRoot) ∧
      (∀ (i : Nat) l, t.zones.slots[i]? = some l → t.storage.Records l i false) ∧
      (∀ (i : Nat) e, t.roots.entries[i]? = some e →
        t.storage.Records e.location i (decide (i < t.roots.live))) ∧
      (∀ mv : Move, Outcome.answer (mv.run m) ≠ .error (.fault (.breach .isSlotNumber))) ∧
      (∀ count, t.Guards (Tables.growZones count) (t.zones.capacity + count)) ∧
      (∀ count, t.Guards (Tables.growRoots count) (t.roots.capacity + count)) ∧
      ∀ op, m.heap.Overruns op →
        ∃ e m', e.isAllocation = true ∧ op.run m = .error (.error e) m' ∧ m'.heap = m.heap := by
  intro m t
  have hg : m.Good := good_runs id sizing ledger moves
  have hs : t.Sound := hg.sound
  refine ⟨hs.fits, fun n k => hs.place_on_page, fun n k n' k' => hs.eq_of_ofNat_eq, ?_, ?_, ?_, ?_,
    hs.guards_growZones, hs.guards_growRoots, ?_⟩
  · exact fun l c i hc hi => ⟨hs.place_moved hc hi, hs.renumber_moved hc hi⟩
  · exact fun i l hi => hs.zones.records hi
  · exact fun i e hi => hs.roots.records hi
  · exact fun mv => hg.faultless mv _
  · intro op hover
    obtain ⟨e, m', halloc, herr, hintact⟩ := hg.refuses_overrun hover
    exact ⟨e, m', halloc, herr, hintact.heap⟩

end Memory

end ConsHeap
