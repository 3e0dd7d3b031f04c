import ConsHeap.Proofs.Outline
import ConsHeap.Proofs.Queries

/-!
# Pages

A table grows by whole pages, each drawn on the budget of the heap. Apart from growth no move changes the
size of a table, and a growth that is undone or refused is not paid for.

* `Heap.Adds`: a heap has a number of pages more for each table.
* `Heap.Draws`: the pages that an operation may draw, and when.
* `Heap.cell_adds`, `Heap.root_adds`, `Heap.both_adds`, `Heap.unroot_adds`: the places where tables grow.
* `Operation.adds`: every operation draws no more than it may.
* `Heap.Paged`: tables of whole pages, within the limit of the sizing.
* `Memory.pages_are_accounted`: **after any run the pages of both tables are those drawn on the budget. No
  table ever shrinks, and one grows only when it has no place left.**
-/

namespace ConsHeap

namespace Heap

variable {g h h' : Heap} {a b c d : Nat} {x : Value} {l : Location}

/-- The heap `h'` has `a` pages of slots and `b` pages of entries more than `h`, under the same limit. -/
structure Adds (h h' : Heap) (a b : Nat) : Prop where
  sizing : h'.sizing = h.sizing
  slots : h'.tables.zones.capacity = h.tables.zones.capacity + h.sizing.cellsPerPage * a
  entries : h'.tables.roots.capacity = h.tables.roots.capacity + h.sizing.rootsPerPage * b
  pages : h'.tables.storage.pages.size = h.tables.storage.pages.size + (a + b)
  limit : h'.tables.storage.budget.limit = h.tables.storage.budget.limit

theorem Adds.refl (h : Heap) : h.Adds h 0 0 := ⟨rfl, rfl, rfl, rfl, rfl⟩

theorem Adds.trans (hgh : g.Adds h a b) (hh : h.Adds h' c d) : g.Adds h' (a + c) (b + d) where
  sizing := hh.sizing.trans hgh.sizing
  slots := by rw [hh.slots, hgh.slots, hgh.sizing, Nat.mul_add, Nat.add_assoc]
  entries := by rw [hh.entries, hgh.entries, hgh.sizing, Nat.mul_add, Nat.add_assoc]
  pages := by
    rw [hh.pages, hgh.pages]
    omega
  limit := hh.limit.trans hgh.limit

/-- What leaves the outline alone adds nothing. -/
theorem Adds.of_outline (hout : h'.outline = h.outline) : h.Adds h' 0 0 := by
  obtain ⟨hsizing, htables⟩ := Prod.mk.inj hout
  obtain ⟨hslots, hentries, hpages, hbudget⟩ := Tables.Outline.mk.inj htables
  refine ⟨hsizing, hslots, hentries, ?_, by rw [hbudget]⟩
  rw [← Storage.length_sizes, ← Storage.length_sizes, hpages]
  rfl

theorem Adds.congr (hadds : g.Adds h a b) (hout : h'.outline = h.outline) : g.Adds h' a b :=
  hadds.trans (.of_outline hout)

/-- What follows a step that has made room adds nothing more. -/
theorem Adds.bind {α β : Type} {act : HeapM α} {f : α → HeapM β} {r : α} (hadds : g.Adds h' a b)
    (hact : act h = .ok r h') (hf : Keeps outline (f r)) : g.Adds (Outcome.state ((act >>= f) h)) a b := by
  rw [bind_ok hact]
  exact hadds.congr (hf h')

/-! ## Where tables grow -/

section Growth

variable {id : UInt32} {sizing : Sizing} {kinds : Kinds} {t u : Tables} {page : Paging.Page Cell}

theorem adds_slots {slots : List Location} (hg : Tables.Grown t u slots [])
    (hlen : slots.length = sizing.cellsPerPage) (hpush : u.storage = t.storage.push page) :
    Adds ⟨id, sizing, kinds, t⟩ ⟨id, sizing, kinds, u⟩ 1 0 where
  sizing := rfl
  slots := by rw [hg.capacity, hlen, Nat.mul_one]
  entries := hg.roots_capacity
  pages := by simp [hpush, Storage.push]
  limit := by rw [hpush]; rfl

theorem adds_entries {entries : List RootEntry} (hg : Tables.Grown t u [] entries)
    (hlen : entries.length = sizing.rootsPerPage) (hpush : u.storage = t.storage.push page) :
    Adds ⟨id, sizing, kinds, t⟩ ⟨id, sizing, kinds, u⟩ 0 1 where
  sizing := rfl
  slots := hg.capacity
  entries := by rw [hg.roots_capacity, hlen, Nat.mul_one]
  pages := by simp [hpush, Storage.push]
  limit := by rw [hpush]; rfl

end Growth

/-- Room for one more white cell takes a page when there is no free slot. -/
theorem cell_adds (hs : h.tables.Sound) :
    ∃ a, a ≤ 1 ∧ (a = 1 → h.tables.zones.whiteTop = h.tables.zones.capacity) ∧
      h.Adds (Outcome.state (roomForCell h)) a 0 ∧
      (Outcome.state (roomForCell h)).tables.roots = h.tables.roots := by
  cases hfull : h.tables.zones.isFull with
  | false =>
    refine ⟨0, by simp, by simp, ?_⟩
    rw [roomForCell, bind_get, if_neg (by simp [hfull])]
    exact ⟨.refl h, rfl⟩
  | true =>
    obtain ⟨id, sizing, kinds, t⟩ := h
    have hstart : roomForCell ⟨id, sizing, kinds, t⟩ =
        onTables (Tables.growZones sizing.cellsPerPage) ⟨id, sizing, kinds, t⟩ := by
      rw [roomForCell, bind_get, if_pos hfull]
    rw [hstart]
    rcases Tables.growZones_cases hs sizing.cellsPerPage with
      ⟨e, -, he⟩ | ⟨u, page, slots, hu, hg, hlen, -, hpush⟩
    · rw [onTables_error he]
      exact ⟨0, by simp, by simp, .refl _, rfl⟩
    · rw [onTables_ok hu]
      refine ⟨1, by simp, fun _ => eq_of_beq hfull, adds_slots hg hlen hpush, ?_⟩
      simp [Outcome.state, hg.roots]

/-- Room for one more root takes a page when there is no spare entry. -/
theorem entry_adds (hs : h.tables.Sound) :
    ∃ b, b ≤ 1 ∧ (b = 1 → h.tables.roots.live = h.tables.roots.capacity) ∧
      h.Adds (Outcome.state (roomForRoot h)) 0 b := by
  cases hfull : h.tables.roots.isFull with
  | false =>
    refine ⟨0, by simp, by simp, ?_⟩
    rw [roomForRoot, bind_get, if_neg (by simp [hfull])]
    exact .refl h
  | true =>
    obtain ⟨id, sizing, kinds, t⟩ := h
    have hstart : roomForRoot ⟨id, sizing, kinds, t⟩ =
        onTables (Tables.growRoots sizing.rootsPerPage) ⟨id, sizing, kinds, t⟩ := by
      rw [roomForRoot, bind_get, if_pos hfull]
    rw [hstart]
    rcases Tables.growRoots_cases hs sizing.rootsPerPage with
      ⟨e, -, he⟩ | ⟨u, page, entries, hu, hg, hlen, -, hpush⟩
    · rw [onTables_error he]
      exact ⟨0, by simp, by simp, .refl _⟩
    · rw [onTables_ok hu]
      exact ⟨1, by simp, fun _ => eq_of_beq hfull, adds_entries hg hlen hpush⟩

/-- Room for a cell and a root takes a page for each table that is full, or none at all. -/
theorem both_adds (hs : h.tables.Sound) :
    ∃ a b, a ≤ 1 ∧ b ≤ 1 ∧ (a = 1 → h.tables.zones.whiteTop = h.tables.zones.capacity) ∧
      (b = 1 → h.tables.roots.live = h.tables.roots.capacity) ∧ h.Adds (Outcome.state (roomForBoth h)) a b := by
  rcases roomForBoth_cases hs with ⟨e, -, he⟩ | ⟨h', hok, -⟩
  · rw [he]
    exact ⟨0, 0, by simp, by simp, by simp, by simp, .refl h⟩
  obtain ⟨a, ha, hcell, hadds, hroots⟩ := cell_adds hs
  rcases roomForCell_cases hs with ⟨e, -, he⟩ | ⟨h₁, hok₁, hw₁, -, hundo⟩
  · rw [roomForBoth, bind_get, tryCatch_error (bind_error he), bind_ok (shrinkTo_self hs)] at hok
    cases hok
  rw [hok₁] at hadds hroots
  obtain ⟨b, hb, hentry, hadds'⟩ := entry_adds hw₁.becomes.sound
  rcases roomForRoot_cases hw₁.becomes.sound with ⟨e, -, he⟩ | ⟨h₂, hok₂, -⟩
  · -- had the root table no room, the whole would have failed
    rw [roomForBoth, bind_get, tryCatch_error ((bind_ok hok₁).trans he), bind_ok hundo] at hok
    cases hok
  · rw [hok₂] at hadds'
    rw [roomForBoth, bind_get, tryCatch_ok ((bind_ok hok₁).trans hok₂)]
    refine ⟨a, b, ha, hb, hcell, ?_, ?_⟩
    · rwa [← hroots]
    · simpa using hadds.trans hadds'

/-- A cons takes a page of entries when it becomes a root and there is no spare entry. -/
theorem root_adds (hs : h.tables.Sound) (x : Value) :
    ∃ b, b ≤ 1 ∧ (b = 1 → h.rootCount x = .ok 0 ∧ h.tables.roots.live = h.tables.roots.capacity) ∧
      h.Adds (Outcome.state (root x h)) 0 b := by
  rcases h.liveCell_cases x with ⟨e, -, he⟩ | ⟨tag, handle, c, rfl, -, hc, hlive⟩
  · refine ⟨0, by simp, by simp, ?_⟩
    rw [root, bind_get, bind_error (answer_error he)]
    exact .refl h
  cases hisRoot : c.isRoot with
  | true =>
    refine ⟨0, by simp, by simp, ?_⟩
    rw [root, bind_get, bind_ok (answer_ok hlive)]
    simp only [hisRoot, if_true]
    exact .of_outline (((keeps_onTables (Tables.keeps_increase c.slot)).bind fun _ => .pure _) h)
  | false =>
    have hzero : h.rootCount (.cons tag handle) = .ok 0 := by
      rw [rootCount, hlive]
      simp [hisRoot]
    obtain ⟨b, hb, hentry, hadds⟩ := entry_adds hs
    refine ⟨b, hb, fun hone => ⟨hzero, hentry hone⟩, ?_⟩
    rw [root_of_liveCell hlive hisRoot]
    rcases roomForRoot_cases hs with ⟨e, -, he⟩ | ⟨h₁, hok₁, -⟩
    · rw [he] at hadds
      rw [bind_error he]
      exact hadds
    · rw [hok₁] at hadds
      exact hadds.bind hok₁ (keeps_toRoots _)

/-- A root takes a page of slots when it becomes black and there is neither a gap nor a free slot. -/
theorem toBlack_adds (hs : h.tables.Sound) (l : Location) (i : Nat) :
    ∃ a, a ≤ 1 ∧ (a = 1 → h.tables.zones.whiteTop = h.tables.zones.capacity ∧
        h.tables.zones.blackTop = h.tables.zones.greyBegin) ∧
      h.Adds (Outcome.state (toBlack l i h)) a 0 := by
  rw [toBlack_eq]
  cases hroom : h.tables.zones.canExtendBlack with
  | true => exact ⟨0, by simp, by simp, (Adds.refl h).bind (r := ()) rfl (keeps_retire l i)⟩
  | false =>
    simp only [Zones.canExtendBlack, Bool.or_eq_false_iff, Bool.not_eq_false'] at hroom
    obtain ⟨hgap, hfull⟩ := hroom
    have hempty : h.tables.zones.blackTop = h.tables.zones.greyBegin :=
      Nat.le_antisymm hs.zones.ordered.gap (Nat.le_of_not_lt (of_decide_eq_false hgap))
    obtain ⟨id, sizing, kinds, t⟩ := h
    simp only [Bool.false_eq_true, if_false]
    rcases Tables.growZones_cases hs sizing.cellsPerPage with
      ⟨e, -, herr⟩ | ⟨u, page, slots, hu, hg, hlen, -, hpush⟩
    · rw [bind_error (onTables_error herr)]
      exact ⟨0, by simp, by simp, .refl _⟩
    · exact ⟨1, by simp, fun _ => ⟨eq_of_beq hfull, hempty⟩,
        (adds_slots hg hlen hpush).bind (onTables_ok hu) (keeps_retire l i)⟩

/-- Only the last count of a root takes a page, for a cons table without a gap and without a free slot. -/
theorem unroot_adds (hs : h.tables.Sound) (x : Value) :
    ∃ a, a ≤ 1 ∧ (a = 1 → h.rootCount x = .ok 1 ∧ h.tables.zones.whiteTop = h.tables.zones.capacity ∧
        h.tables.zones.blackTop = h.tables.zones.greyBegin) ∧
      h.Adds (Outcome.state (unroot x h)) a 0 := by
  rcases h.liveCell_cases x with ⟨e, -, he⟩ | ⟨tag, handle, c, rfl, -, hc, hlive⟩
  · refine ⟨0, by simp, by simp, ?_⟩
    rw [unroot, bind_get, bind_error (answer_error he)]
    exact .refl h
  cases hisRoot : c.isRoot with
  | false =>
    refine ⟨0, by simp, by simp, ?_⟩
    rw [unroot, bind_get, bind_ok (answer_ok hlive)]
    simp only [hisRoot, Bool.false_eq_true, if_false]
    exact .refl h
  | true =>
    have hroot := (hs.isRoot_iff hc).1 hisRoot
    obtain ⟨he, -, hpos, -⟩ := hs.entry_of_root hc hroot
    have hcount : h.rootCount (.cons tag handle) = .ok (h.tables.count handle.location) := by
      rw [rootCount, hlive]
      simp only [hisRoot, if_true, he]
    rw [unroot_of_liveCell hs hc hroot hlive, hcount]
    by_cases hmore : 1 < h.tables.count handle.location
    · rw [if_pos hmore]
      exact ⟨0, by simp, by simp,
        .of_outline (((keeps_onTables (Tables.keeps_decrease c.slot)).bind fun _ => .pure _) h)⟩
    · have hone : h.tables.count handle.location = 1 := Nat.le_antisymm (Nat.le_of_not_lt hmore) hpos
      rw [if_neg hmore, hone]
      obtain ⟨a, ha, hroom, hadds⟩ := toBlack_adds hs handle.location c.slot
      exact ⟨a, ha, fun hpage => ⟨rfl, hroom hpage⟩, hadds⟩

/-- An operation may draw `a` pages for the cons table and `b` pages for the root table: one page for a
single cell, and only for a table without a place for it. A cell that leaves the root table may also take
the gap. -/
inductive Draws (h : Heap) : Operation Value → Nat → Nat → Prop where
  | none {op : Operation Value} : Draws h op 0 0
  | cons {tag : Tag} {car cdr : Value} :
    h.tables.zones.whiteTop = h.tables.zones.capacity → Draws h (.cons tag car cdr) 1 0
  | rootedCons {tag : Tag} {car cdr : Value} {a b : Nat} :
    a ≤ 1 → b ≤ 1 → (a = 1 → h.tables.zones.whiteTop = h.tables.zones.capacity) →
    (b = 1 → h.tables.roots.live = h.tables.roots.capacity) → Draws h (.rootedCons tag car cdr) a b
  | list {items : List Value} {a : Nat} : a ≤ items.length → Draws h (.list items) a 0
  /-- Only a cons without a count needs an entry. -/
  | root {x : Value} :
    h.rootCount x = .ok 0 → h.tables.roots.live = h.tables.roots.capacity → Draws h (.root x) 0 1
  /-- Only a root with a last count needs a slot. -/
  | unroot {x : Value} :
    h.rootCount x = .ok 1 → h.tables.zones.whiteTop = h.tables.zones.capacity →
    h.tables.zones.blackTop = h.tables.zones.greyBegin → Draws h (.unroot x) 1 0

end Heap

namespace Memory

variable {m : Memory} {α : Type}

theorem heap_onHeap (act : HeapM α) (m : Memory) :
    (Outcome.state (onHeap act m)).heap = Outcome.state (act m.heap) := by
  obtain ⟨h, ledger⟩ := m
  rw [onHeap]
  cases act h <;> rfl

/-- A new white cell takes a page when there is no free slot. -/
theorem cons_adds (hs : m.heap.tables.Sound) (tag : Tag) (car cdr : Value) :
    ∃ a, a ≤ 1 ∧ (a = 1 → m.heap.tables.zones.whiteTop = m.heap.tables.zones.capacity) ∧
      m.heap.Adds (Outcome.state (cons tag car cdr m)).heap a 0 := by
  rcases checkCons_cases m tag car cdr with ⟨e, -, he⟩ | ⟨hcheck, -, -⟩
  · rw [cons, bind_error he]
    exact ⟨0, by simp, by simp, .refl m.heap⟩
  obtain ⟨h, ledger⟩ := m
  obtain ⟨a, ha, hroom, hadds, -⟩ := Heap.cell_adds hs
  refine ⟨a, ha, hroom, ?_⟩
  rcases Heap.roomForCell_cases hs with ⟨e, -, he⟩ | ⟨h₁, hok₁, -⟩
  · obtain ⟨m', herr, hintact⟩ := holding_error he car cdr
    rw [cons, bind_ok hcheck, bind_error herr, Outcome.state, hintact.heap]
    rwa [he] at hadds
  · rw [hok₁] at hadds
    rw [cons, bind_ok hcheck, bind_ok (holding_ok hok₁ car cdr)]
    have hrest : ∀ m₁ : Memory, outline (Outcome.state ((fill tag car cdr >>= fun l =>
        onHeap (Heap.issue l) >>= fun handle => pure (Value.cons tag handle) : MemoryM Value) m₁)) = outline m₁ :=
      (keeps_fill tag car cdr).bind fun l => (keeps_onHeap (Heap.keeps_issue l)).bind fun _ => .pure _
    exact hadds.congr (hrest _)

/-- A new root takes a page for each table that is full. -/
theorem rootedCons_adds (hs : m.heap.tables.Sound) (tag : Tag) (car cdr : Value) :
    ∃ a b, a ≤ 1 ∧ b ≤ 1 ∧ (a = 1 → m.heap.tables.zones.whiteTop = m.heap.tables.zones.capacity) ∧
      (b = 1 → m.heap.tables.roots.live = m.heap.tables.roots.capacity) ∧
      m.heap.Adds (Outcome.state (rootedCons tag car cdr m)).heap a b := by
  rcases checkCons_cases m tag car cdr with ⟨e, -, he⟩ | ⟨hcheck, -, -⟩
  · rw [rootedCons, bind_error he]
    exact ⟨0, 0, by simp, by simp, by simp, by simp, .refl m.heap⟩
  obtain ⟨h, ledger⟩ := m
  obtain ⟨a, b, ha, hb, hcell, hentry, hadds⟩ := Heap.both_adds hs
  refine ⟨a, b, ha, hb, hcell, hentry, ?_⟩
  rcases Heap.roomForBoth_cases hs with ⟨e, -, he⟩ | ⟨h₁, hok₁, -⟩
  · obtain ⟨m', herr, hintact⟩ := holding_error he car cdr
    rw [rootedCons, bind_ok hcheck, bind_error herr, Outcome.state, hintact.heap]
    rwa [he] at hadds
  · rw [hok₁] at hadds
    rw [rootedCons, bind_ok hcheck, bind_ok (holding_ok hok₁ car cdr)]
    have hrest : ∀ m₁ : Memory, outline (Outcome.state ((fill tag car cdr >>= fun l =>
        onHeap (Heap.toRoots l) >>= fun _ => onHeap (Heap.issue l) >>= fun handle =>
        pure (Value.cons tag handle) : MemoryM Value) m₁)) = outline m₁ :=
      (keeps_fill tag car cdr).bind fun l => (keeps_onHeap (Heap.keeps_toRoots l)).bind fun _ =>
        (keeps_onHeap (Heap.keeps_issue l)).bind fun _ => .pure _
    exact hadds.congr (hrest _)

/-- A list takes at most a page for each item. -/
theorem list_adds (items : List Value) : ∀ {m : Memory}, m.heap.tables.Sound →
    ∃ a, a ≤ items.length ∧ m.heap.Adds (Outcome.state (list items m)).heap a 0 := by
  induction items with
  | nil => exact fun {m} _ => ⟨0, Nat.le_refl 0, .refl m.heap⟩
  | cons item items ih =>
    intro m hs
    obtain ⟨a, ha, hadds⟩ := ih hs
    rw [list_cons]
    rcases list_cases items hs with ⟨e, m', -, -, -, -, -, -, -, herr, -⟩ | ⟨m₁, x, w, hok, -, hb⟩
    · rw [herr] at hadds
      rw [bind_error herr]
      exact ⟨a, Nat.le_succ_of_le ha, hadds⟩
    · rw [hok] at hadds
      rw [bind_ok hok]
      obtain ⟨c, hc, -, hadds'⟩ := cons_adds hb.sound .cons item x
      exact ⟨a + c, Nat.add_le_add ha hc, hadds.trans hadds'⟩

end Memory

/-- A number up to one is zero or one. -/
theorem Heap.Draws.of_le_one {h : Heap} {op : Operation Value} {a : Nat} (ha : a ≤ 1)
    (hone : a = 1 → h.Draws op 1 0) : h.Draws op a 0 := by
  obtain rfl | rfl : a = 0 ∨ a = 1 := by omega
  · exact .none
  · exact hone rfl

/-- **Every operation draws the pages that it may, and no others.** -/
theorem Operation.adds {m : Memory} (hs : m.heap.tables.Sound) (op : Operation Value) :
    ∃ a b, m.heap.Draws op a b ∧ m.heap.Adds (Outcome.state (op.run m)).heap a b := by
  have hkept : ∀ {α : Type} {act : MemoryM α} {f : α → Result}, op.run = f <$> act →
      Keeps Memory.outline act → ∃ a b, m.heap.Draws op a b ∧ m.heap.Adds (Outcome.state (op.run m)).heap a b := by
    intro α act f hop hact
    rw [hop, Outcome.state_map]
    exact ⟨0, 0, .none, .of_outline (hact m)⟩
  cases op with
  | cons tag car cdr =>
    obtain ⟨a, ha, hroom, hadds⟩ := Memory.cons_adds hs tag car cdr
    rw [run, Outcome.state_map]
    exact ⟨a, 0, .of_le_one ha fun hone => .cons (hroom hone), hadds⟩
  | rootedCons tag car cdr =>
    obtain ⟨a, b, ha, hb, hcell, hentry, hadds⟩ := Memory.rootedCons_adds hs tag car cdr
    rw [run, Outcome.state_map]
    exact ⟨a, b, .rootedCons ha hb hcell hentry, hadds⟩
  | list items =>
    obtain ⟨a, ha, hadds⟩ := Memory.list_adds items hs
    rw [run, Outcome.state_map]
    exact ⟨a, 0, .list ha, hadds⟩
  | root x =>
    obtain ⟨b, hb, hroom, hadds⟩ := Heap.root_adds hs x
    rw [run, Outcome.state_map, Memory.heap_onHeap]
    refine ⟨0, b, ?_, hadds⟩
    obtain rfl | rfl : b = 0 ∨ b = 1 := by omega
    · exact .none
    · obtain ⟨hcount, hfull⟩ := hroom rfl
      exact .root hcount hfull
  | unroot x =>
    obtain ⟨a, ha, hroom, hadds⟩ := Heap.unroot_adds hs x
    rw [run, Outcome.state_map, Memory.heap_onHeap]
    refine ⟨a, 0, .of_le_one ha fun hone => ?_, hadds⟩
    obtain ⟨hcount, hfull, hgap⟩ := hroom hone
    exact .unroot hcount hfull hgap
  | setChild side target x => exact hkept rfl (Memory.keeps_setChild side target x)
  | shade x => exact hkept rfl (Memory.keeps_onHeap (Heap.keeps_shadeValue x))
  | scan budget => exact hkept rfl (Memory.keeps_onHeap (Heap.keeps_scanFrom budget 0))
  | startCycle => exact hkept rfl (Memory.keeps_onHeap Heap.keeps_startCycle)
  | sweep => exact hkept rfl (Memory.keeps_onHeap Heap.keeps_sweep)
  | collect => exact hkept rfl (Memory.keeps_onHeap Heap.keeps_collect)

/-! ## Runs -/

/-- Both tables have whole pages, and the limit is that of the sizing. -/
structure Heap.Paged (h : Heap) : Prop where
  whole : ∃ k n, h.tables.zones.capacity = h.sizing.cellsPerPage * k ∧
    h.tables.roots.capacity = h.sizing.rootsPerPage * n ∧ h.tables.storage.pages.size = k + n
  limit : h.tables.storage.budget.limit = h.sizing.pageLimit

theorem Heap.paged_new (id : UInt32) (sizing : Sizing) : (new id sizing).Paged := ⟨⟨0, 0, rfl, rfl, rfl⟩, rfl⟩

theorem Heap.Paged.adds {h h' : Heap} {a b : Nat} (hp : h.Paged) (hadds : h.Adds h' a b) : h'.Paged := by
  obtain ⟨⟨k, n, hslots, hentries, hpages⟩, hlimit⟩ := hp
  refine ⟨⟨k + a, n + b, ?_, ?_, ?_⟩, ?_⟩
  · rw [hadds.slots, hadds.sizing, hslots, Nat.mul_add]
  · rw [hadds.entries, hadds.sizing, hentries, Nat.mul_add]
  · rw [hadds.pages, hpages]
    omega
  · rw [hadds.limit, hadds.sizing, hlimit]

/-- All cells are counted by the sizes of the pages. -/
theorem Storage.length_allCells (s : Storage) : s.allCells.length = s.sizes.sum := by
  rw [allCells, List.length_flatMap, sizes]
  rfl

namespace Memory

variable {m : Memory}

/-- Every move adds pages, or none. -/
theorem Good.adds (hg : m.Good) (mv : Move) : ∃ a b, m.heap.Adds (mv.after m).heap a b := by
  obtain ⟨h, ledger⟩ := m
  cases mv with
  | operate op =>
    obtain ⟨a, b, -, hadds⟩ := op.adds hg.sound
    rw [Move.operate_after]
    exact ⟨a, b, hadds⟩
  | register tag kind =>
    rw [Move.after, Move.run]
    rcases register_cases ⟨h, ledger⟩ tag kind with ⟨e, he⟩ | ⟨kinds, hok⟩
    · rw [he]
      exact ⟨0, 0, .refl h⟩
    · rw [hok]
      exact ⟨0, 0, .of_outline rfl⟩
  | object tag body =>
    rw [Move.after, Move.run, Outcome.state_map]
    rcases object_cases ⟨h, ledger⟩ tag body with ⟨e, he⟩ | ⟨tag', hok⟩
    · rw [he]
      exact ⟨0, 0, .refl h⟩
    · rw [hok]
      exact ⟨0, 0, .refl h⟩
  | standard tag body => exact ⟨0, 0, .refl h⟩
  | retain x => exact ⟨0, 0, .refl h⟩
  | release x => exact ⟨0, 0, .refl h⟩
  | supply memory => exact ⟨0, 0, rfl, rfl, rfl, rfl, rfl⟩

/-- Runs keep tables of whole pages, and add pages only. -/
theorem Good.paged_runs (hg : m.Good) (hp : m.heap.Paged) (moves : List Move) :
    (m.runs moves).heap.Paged ∧ (m.runs moves).heap.sizing = m.heap.sizing := by
  induction moves generalizing m with
  | nil => exact ⟨hp, rfl⟩
  | cons mv moves ih =>
    obtain ⟨a, b, hadds⟩ := hg.adds mv
    obtain ⟨hpaged, hsizing⟩ := ih (hg.after mv) (hp.adds hadds)
    exact ⟨hpaged, hsizing.trans hadds.sizing⟩

/-- **After any run of a heap, the capacities of both tables are whole pages, as many as there are pages,
and as many as are charged to the budget. They are within the limit, if there is one, and the storage has
one cell for each slot and each entry. No move makes a table smaller or gives a page back. A single
operation adds pages only to tables that have no place left for its cell, and at most one to each, when it
is no list.** -/
theorem pages_are_accounted (id : UInt32) (sizing : Sizing) (ledger : Ledger) (moves : List Move) :
    let m := (start id sizing ledger).runs moves
    let s := m.heap.tables.storage
    ∃ o, m.heap.occupancy = .ok o ∧
      (∃ k n, o.capacity = sizing.cellsPerPage * k ∧ o.rootCapacity = sizing.rootsPerPage * n ∧
        k + n = o.pages) ∧
      o.pages = s.pages.size ∧ o.pages = s.budget.used ∧
      (∀ limit, sizing.pageLimit = some limit → o.pages ≤ limit) ∧
      s.cells = o.capacity + o.rootCapacity ∧ s.allCells.length = o.capacity + o.rootCapacity ∧
      (∀ mv : Move, ∃ o', (mv.after m).heap.occupancy = .ok o' ∧ o.capacity ≤ o'.capacity ∧
        o.rootCapacity ≤ o'.rootCapacity ∧ o.pages ≤ o'.pages) ∧
      ∀ op : Operation Value, ∃ o' a b, (Outcome.state (op.run m)).heap.occupancy = .ok o' ∧
        m.heap.Draws op a b ∧ o'.capacity = o.capacity + sizing.cellsPerPage * a ∧
        o'.rootCapacity = o.rootCapacity + sizing.rootsPerPage * b ∧ o'.pages = o.pages + (a + b) := by
  intro m s
  have hg : m.Good := good_runs id sizing ledger moves
  obtain ⟨⟨⟨k, n, hslots, hentries, hpages⟩, hlimit⟩, hsizing⟩ :=
    (good_start id sizing ledger).paged_runs (Heap.paged_new id sizing) moves
  rw [show ((start id sizing ledger).runs moves).heap.sizing = sizing from hsizing] at hslots hentries hlimit
  have hcharged : s.budget.used = s.pages.size := by rw [hg.sound.storage.charged, Storage.length_sizes]
  have hcells : s.cells = m.heap.tables.zones.capacity + m.heap.tables.roots.capacity := hg.sound.cells
  refine ⟨_, hg.occupancy_eq, ⟨k, n, hslots, hentries, hpages.symm⟩, rfl, hcharged.symm, ?_, hcells, ?_, ?_, ?_⟩
  · intro limit hsome
    have hused := hg.sound.storage.within limit (hlimit.trans hsome)
    rwa [hcharged] at hused
  · rw [Storage.length_allCells, ← hg.sound.storage.cells]
    exact hcells
  · intro mv
    obtain ⟨a, b, hadds⟩ := hg.adds mv
    refine ⟨_, (hg.after mv).occupancy_eq, ?_, ?_, ?_⟩
    · exact Nat.le.intro hadds.slots.symm
    · exact Nat.le.intro hadds.entries.symm
    · exact Nat.le.intro hadds.pages.symm
  · intro op
    obtain ⟨a, b, hdraws, hadds⟩ := op.adds hg.sound
    have hsizing' : m.heap.sizing = sizing := hsizing
    have hafter : (Move.operate op).after m = Outcome.state (op.run m) := Outcome.state_map
    have hg' : (Outcome.state (op.run m)).Good := hafter ▸ hg.after (.operate op)
    refine ⟨_, a, b, hg'.occupancy_eq, hdraws, ?_, ?_, hadds.pages⟩
    · exact hsizing' ▸ hadds.slots
    · exact hsizing' ▸ hadds.entries

end Memory

end ConsHeap
