import ConsHeap.Heap.Rooting
import ConsHeap.Proofs.Heap.Shading

/-!
# Slots and roots

* `Heap.roomForCell_cases`, `Heap.roomForRoot_cases`, `Heap.roomForBoth_cases`: a table that is full
  grows, or nothing changes. A growth for both tables that fails half way is undone.
* `Heap.fill_ok`: a spare cell becomes a new white one.
* `Heap.root_cases`, `Heap.unroot_cases`: a cell becomes a root or one more count of it, and back.
-/

namespace ConsHeap.Heap

variable {h h' : Heap} {l : Location} {c : Cell} {x : Value}

/-! ## Room -/

/-- Slots that have come in are cut off, and the pages since then are given up. -/
theorem shrinkTo_eq {id : UInt32} {sizing : Sizing} {kinds : Kinds} {s : Storage} {z : Zones} {r : Roots}
    (hz : z.whiteTop ≤ z.capacity) (hr : r.live ≤ r.capacity) (new : List Location) (pages : Nat) :
    shrinkTo ⟨z.capacity, r.capacity, pages⟩
        ⟨id, sizing, kinds, ⟨s, { z with slots := z.slots ++ new }, r⟩⟩ =
      dropPages (s.pages.size - pages) ⟨id, sizing, kinds, ⟨s, z, r⟩⟩ := by
  rw [shrinkTo, bind_ok (onTables_ok (Tables.cutSlots_append hz new)),
    bind_ok (onTables_ok (Tables.cutEntries_self hr)), bind_get]

/-- Nothing has grown, so there is nothing to undo. -/
theorem shrinkTo_self (hs : h.tables.Sound) : shrinkTo h.extent h = .ok () h := by
  obtain ⟨id, sizing, kinds, ⟨s, z, r⟩⟩ := h
  have hundo := @shrinkTo_eq id sizing kinds s z r hs.zones.ordered.free hs.roots.live_le [] s.pages.size
  simp only [Array.appendList_nil, Nat.sub_self] at hundo
  exact hundo

/-- The tables have grown, any number of times, and nothing else has changed. -/
structure Widens (h h' : Heap) : Prop where
  becomes : h.Becomes h' h'.view
  grows : h.view.Grows h'.view
  grown : Relation.ReflTransGen (fun t u => ∃ slots entries, Tables.Grown t u slots entries) h.tables h'.tables

theorem Widens.refl (hs : h.tables.Sound) : h.Widens h := ⟨.refl hs, .refl _, .refl⟩

theorem Widens.trans {h₁ h₂ : Heap} (hw : h.Widens h₁) (hw' : h₁.Widens h₂) : h.Widens h₂ :=
  ⟨hw.becomes.trans hw'.becomes, hw.grows.trans hw'.grows, hw.grown.trans hw'.grown⟩

theorem Widens.page {id : UInt32} {sizing : Sizing} {kinds : Kinds} {t u : Tables} {slots : List Location}
    {entries : List RootEntry} (hg : Tables.Grown t u slots entries) (hs : t.Sound) :
    Widens ⟨id, sizing, kinds, t⟩ ⟨id, sizing, kinds, u⟩ :=
  ⟨becomes_tables (hg.sound hs) rfl, hg.grows hs id, .single ⟨slots, entries, hg⟩⟩

/-- The cons table has a free slot or grows, or nothing changes. Growth can be undone. -/
theorem roomForCell_cases (hs : h.tables.Sound) :
    (∃ e, e.isAllocation = true ∧ roomForCell h = .error (.error e) h) ∨
      ∃ h', roomForCell h = .ok () h' ∧ h.Widens h' ∧
        h'.tables.zones.isFull = false ∧ shrinkTo h.extent h' = .ok () h := by
  cases hfull : h.tables.zones.isFull with
  | false =>
    refine .inr ⟨h, ?_, .refl hs, hfull, shrinkTo_self hs⟩
    rw [roomForCell, bind_get]
    simp [hfull]
  | true =>
    obtain ⟨id, sizing, kinds, ⟨s, z, r⟩⟩ := h
    simp only at hfull
    rcases Tables.growZones_cases hs sizing.cellsPerPage with
      ⟨e, halloc, he⟩ | ⟨⟨s', z', r'⟩, page, new, hu, hg, hlen, hpos, hpush⟩
    · left
      refine ⟨e, halloc, ?_⟩
      rw [roomForCell, bind_get]
      simp only [hfull, if_true]
      exact onTables_error he
    · right
      have hz := hg.zones
      have hr := hg.roots
      simp only at hz hr hpush
      have hr' : r' = r := by simp [hr]
      subst hz hr' hpush
      refine ⟨_, ?_, .page hg hs, ?_, ?_⟩
      · rw [roomForCell, bind_get]
        simp only [hfull, if_true]
        exact onTables_ok hu
      · have hcap := hg.capacity
        have hfree := hs.zones.ordered.free
        simp only at hcap hfree
        simp only [Zones.isFull, beq_eq_false_iff_ne, hcap]
        omega
      · -- the new slots go, and with them the one new page
        refine (shrinkTo_eq hs.zones.ordered.free hs.roots.live_le new s.pages.size).trans ?_
        rw [show (s.push page).pages.size - s.pages.size = 1 by simp [Storage.push], dropPages]
        refine bind_ok (a := ()) (onTables_ok ?_)
        rw [Tables.onStorage, Storage.dropPage_push]

/-- The root table has a spare entry or grows, or nothing changes. -/
theorem roomForRoot_cases (hs : h.tables.Sound) :
    (∃ e, e.isAllocation = true ∧ roomForRoot h = .error (.error e) h) ∨
      ∃ h', roomForRoot h = .ok () h' ∧ h.Widens h' ∧
        h'.tables.roots.isFull = false ∧ h'.tables.zones = h.tables.zones := by
  cases hfull : h.tables.roots.isFull with
  | false =>
    refine .inr ⟨h, ?_, .refl hs, hfull, rfl⟩
    rw [roomForRoot, bind_get]
    simp [hfull]
  | true =>
    obtain ⟨id, sizing, kinds, t⟩ := h
    simp only at hfull
    rcases Tables.growRoots_cases hs sizing.rootsPerPage with
      ⟨e, halloc, he⟩ | ⟨u, page, new, hu, hg, hlen, hpos, -⟩
    · left
      refine ⟨e, halloc, ?_⟩
      rw [roomForRoot, bind_get]
      simp only [hfull, if_true]
      exact onTables_error he
    · right
      refine ⟨_, ?_, .page hg hs, ?_, ?_⟩
      · rw [roomForRoot, bind_get]
        simp only [hfull, if_true]
        exact onTables_ok hu
      · have hcap := hg.roots_capacity
        have hlive := hg.live
        have hle := hs.roots.live_le
        simp only at hcap hlive hle
        simp only [Roots.isFull, beq_eq_false_iff_ne, hcap, hlive]
        omega
      · simp [hg.zones]

/-- Both tables have room, or nothing has changed: if there is no room for the root, the growth of
the cons table is undone. -/
theorem roomForBoth_cases (hs : h.tables.Sound) :
    (∃ e, e.isAllocation = true ∧ roomForBoth h = .error (.error e) h) ∨
      ∃ h', roomForBoth h = .ok () h' ∧ h.Widens h' ∧
        h'.tables.zones.isFull = false ∧ h'.tables.roots.isFull = false := by
  rcases roomForCell_cases hs with ⟨e, halloc, he⟩ | ⟨h₁, hok₁, hw₁, hfull₁, hundo⟩
  · left
    refine ⟨e, halloc, ?_⟩
    rw [roomForBoth, bind_get, tryCatch_error (bind_error he), bind_ok (shrinkTo_self hs)]
    rfl
  rcases roomForRoot_cases hw₁.becomes.sound with ⟨e, halloc, he⟩ | ⟨h₂, hok₂, hw₂, hfull₂, hz₂⟩
  · left
    refine ⟨e, halloc, ?_⟩
    -- the cons table may have grown by now, which is undone
    rw [roomForBoth, bind_get, tryCatch_error ((bind_ok hok₁).trans he), bind_ok hundo]
    rfl
  · right
    refine ⟨h₂, ?_, hw₁.trans hw₂, by rw [hz₂]; exact hfull₁, hfull₂⟩
    rw [roomForBoth, bind_get, tryCatch_ok ((bind_ok hok₁).trans hok₂)]

/-! ## New cells -/

/-- A spare cell becomes a white one with new contents. -/
theorem fill_ok (hs : h.tables.Sound) (hfull : h.tables.zones.isFull = false) (tag : Tag)
    (car cdr : Value) :
    ∃ h' l c, Heap.fill tag car cdr h = .ok (l, c) h' ∧ h.view.color l = none ∧ h.cell? l = some c ∧
      h'.tables.roots = h.tables.roots ∧
      h.Becomes h' (h.view.fill l (c.renew tag car cdr).contents) := by
  obtain ⟨id, sizing, kinds, t⟩ := h
  obtain ⟨u₁, u₂, u₃, i, l, c, hu₁, hslot, hcell, hu₂, hu₃, hsound, hdead, hc, hroots, hview⟩ :=
    Tables.fill_ok hs hfull tag car cdr id
  refine ⟨_, l, c, ?_, hdead, hc, hroots, becomes_tables hsound hview⟩
  rw [Heap.fill, bind_ok (onTables_ok hu₁), bind_ok (onTables_ok hslot), bind_ok (onTables_ok hcell),
    bind_ok (onTables_ok hu₂), bind_ok (onTables_ok hu₃)]
  rfl

/-- A handle is issued for the cell as it is. -/
theorem issue_ok (hc : h.view.contents l = some c) :
    issue l h = .ok ⟨h.view.id, l, c.generation⟩ h := by
  obtain ⟨id, sizing, kinds, ⟨s, z, r⟩⟩ := h
  obtain ⟨d, hd, rfl⟩ := Option.map_eq_some_iff.1 hc
  rw [issue, bind_ok (onTables_ok (Tables.cellAt_ok hd)), bind_get]
  rfl

/-! ## Into the root table -/

/-- A live cell that is no root becomes one, before the cells that it refers to are shaded. A spare cell
is in the slot where it was left. -/
theorem toRoots_eq (hs : h.tables.Sound) (hfull : h.tables.roots.isFull = false) (hc : h.cell? l = some c)
    (hl : h.view.color l ≠ none) (hroot : h.view.color l ≠ some .root) :
    ∃ h' spare, toRoots l h = shadeContents l h' ∧ h.Becomes h' (h.view.pin l) ∧
      h'.tables.zones = { h.tables.zones.vacated c.slot with
        slots := (h.tables.zones.vacated c.slot).slots.setIfInBounds (h.tables.zones.hole c.slot) spare } := by
  obtain ⟨id, sizing, kinds, ⟨s, z, r⟩⟩ := h
  obtain ⟨hslot, hz, -⟩ := hs.slot_of_live hc hl hroot
  -- out of its zone
  obtain ⟨u, hu, hr, hzs, hzones, hhole, hcolor⟩ := Tables.takeOut_ok hs.zones hslot (by rw [hz]; exact hl)
  have hsu := hs.relocated hr hzs
  have hview₁ := hs.view_paint hr hzs hcolor id
  -- into the root table
  have hdead : (u.zones.zone (z.hole c.slot)).color = none := by
    rw [← Tables.color?_of_slot hzs hhole, hcolor, if_pos rfl]
  obtain ⟨v, w, spare, hv, hw, hsw, hwz, hview₂⟩ :=
    Tables.pin_ok hsu hhole hdead (by rw [hr.roots]; exact hfull) id
  rw [hview₁, View.pin_paint] at hview₂
  refine ⟨⟨id, sizing, kinds, w⟩, spare, ?_, becomes_tables hsw hview₂, by rw [hwz, hzones]⟩
  rw [toRoots, bind_ok (onTables_ok (Tables.cellAt_ok hc)), bind_ok (onTables_ok hu),
    bind_ok (onTables_ok hv), bind_ok (onTables_ok hw)]

/-- A live cell that is no root becomes one, and the white cells that it refers to become grey. -/
theorem toRoots_ok (hs : h.tables.Sound) (hfull : h.tables.roots.isFull = false)
    (hl : h.view.color l ≠ none) (hroot : h.view.color l ≠ some .root) :
    ∃ h', toRoots l h = .ok () h' ∧ h.Becomes h' (h.view.root l) := by
  obtain ⟨c, hc⟩ := Tables.exists_cell hl
  obtain ⟨h₁, spare, hstart, hb, -⟩ := toRoots_eq hs hfull hc hl hroot
  obtain ⟨h', hok, hb'⟩ := hb.shadeContents_ok (Tables.stored_of_live hl h.id)
  exact ⟨h', hstart.trans hok, hb'⟩

/-- A cons that is no root yet needs room in the root table. -/
theorem root_of_liveCell (hlive : h.liveCell x = .ok (l, c)) (hroot : c.isRoot = false) :
    root x h = (do roomForRoot; toRoots l : HeapM Unit) h := by
  rw [root, bind_get, bind_ok (answer_ok hlive)]
  simp only [hroot, Bool.false_eq_true, if_false]

/-- A value is refused, or its cell becomes a root, or gets one more count. -/
theorem root_cases (hs : h.tables.Sound) (x : Value) :
    (∃ e, h.Refuses (.root x) e ∧ root x h = .error (.error e) h) ∨
      ∃ tag handle h', x = .cons tag handle ∧ h.resolve handle = some handle.location ∧
        root x h = .ok () h' ∧
        ((h.view.color handle.location = some .root ∧
            h.Becomes h' (h.view.recount handle.location (h.view.count handle.location + 1))) ∨
          (h.view.color handle.location ≠ some .root ∧ ∃ g : View, h.view.Grows g ∧
            h.Becomes h' (g.root handle.location))) := by
  rcases h.liveCell_cases x with ⟨e, hx, he⟩ | ⟨tag, handle, c, rfl, hres, hc, hlive⟩
  · left
    refine ⟨e, .of_live rfl hx, ?_⟩
    rw [root, bind_get, bind_error (answer_error he)]
  obtain ⟨-, -, hl, -⟩ := resolve_eq_some_iff.1 hres
  rw [Option.isSome_iff_ne_none] at hl
  by_cases hroot : h.view.color handle.location = some .root
  · -- a root already, so that only its count changes
    right
    obtain ⟨he, hlt, -, hisRoot⟩ := hs.entry_of_root hc hroot
    obtain ⟨id, sizing, kinds, t⟩ := h
    obtain ⟨u, hu, hsu, hview⟩ := Tables.increase_recount hs hlt he id
    refine ⟨tag, handle, _, rfl, hres, ?_, .inl ⟨hroot, becomes_tables hsu hview⟩⟩
    rw [root, bind_get, bind_ok (answer_ok hlive)]
    simp only [hisRoot, if_true]
    rw [bind_ok (onTables_ok hu)]
    rfl
  · have hisRoot : c.isRoot = false := (hs.slot_of_live hc hl hroot).2.2
    have hstart := root_of_liveCell hlive hisRoot
    rcases roomForRoot_cases hs with ⟨e, halloc, he⟩ | ⟨h₁, hok₁, ⟨hb₁, hg, -⟩, hfull, -⟩
    · left
      exact ⟨e, .memory halloc, hstart.trans (bind_error he)⟩
    · right
      -- growth does not change that the cell is live and no root
      have hcolor : h₁.view.color = h.view.color := hg.color
      obtain ⟨h', hok, hb⟩ := toRoots_ok hb₁.sound hfull (by rw [hcolor]; exact hl)
        (by rw [hcolor]; exact hroot)
      exact ⟨tag, handle, h', rfl, hres, hstart.trans ((bind_ok hok₁).trans hok),
        .inr ⟨hroot, h₁.view, hg, hb₁.trans hb⟩⟩

/-! ## Out of the root table -/

/-- The moves that take a root back into the cons table, once there is room for it. -/
def retire (l : Location) (i : Nat) : HeapM Unit := do
  let _ ← onTables (Tables.decrease i)
  let parked ← onTables (Tables.dismiss i)
  let slot ← onTables Tables.extendBlack
  let spare ← onTables (Tables.exchange slot l)
  let _ ← onTables (Tables.park parked spare)
  shadeContents l

theorem toBlack_eq (l : Location) (i : Nat) (h : Heap) :
    toBlack l i h =
      ((unless h.tables.zones.canExtendBlack do onTables (Tables.growZones h.sizing.cellsPerPage)) >>= fun _ =>
        retire l i : HeapM Unit) h := by
  rw [toBlack, bind_get]
  cases h.tables.zones.canExtendBlack <;> rfl

/-- A root with a count of one becomes black, when there is room for it, before the cells that it refers
to are shaded. -/
theorem retire_eq {i : Nat} (hs : h.tables.Sound) (hi : i < h.tables.roots.live)
    (he : h.tables.roots.entries[i]? = some ⟨l, 1⟩)
    (hroom : h.tables.zones.canExtendBlack) :
    ∃ h', retire l i h = shadeContents l h' ∧ h.Becomes h' (h.view.release l) ∧
      h'.tables.zones = { h.tables.zones.opened with
        slots := h.tables.zones.opened.slots.setIfInBounds h.tables.zones.blackTop l } := by
  obtain ⟨id, sizing, kinds, t⟩ := h
  obtain ⟨u₁, u₂, u₃, u₄, v, spare, hu₁, hu₂, hu₃, hu₄, hv, hsv, hzones, hview⟩ :=
    Tables.release_ok hs hi he hroom id
  refine ⟨⟨id, sizing, kinds, v⟩, ?_, becomes_tables hsv hview, hzones⟩
  rw [retire, bind_ok (onTables_ok hu₁), bind_ok (onTables_ok hu₂), bind_ok (onTables_ok hu₃),
    bind_ok (onTables_ok hu₄), bind_ok (onTables_ok hv)]

/-- A root with a count of one becomes black, when there is room for it, and the white cells that it
refers to become grey. -/
theorem release_ok {i : Nat} (hs : h.tables.Sound) (hi : i < h.tables.roots.live)
    (he : h.tables.roots.entries[i]? = some ⟨l, 1⟩)
    (hroom : h.tables.zones.canExtendBlack) :
    ∃ h', retire l i h = .ok () h' ∧ h.Becomes h' (h.view.unroot l) := by
  have hroot : h.tables.color? l ≠ none := by
    rw [hs.color?_of_entry he, if_pos hi]
    simp
  obtain ⟨h₁, hstart, hb, -⟩ := retire_eq hs hi he hroom
  obtain ⟨h', hok, hb'⟩ := hb.shadeContents_ok (Tables.stored_of_live hroot h.id)
  exact ⟨h', hstart.trans hok, hb'⟩

/-- A root with a count of one becomes black. When there is no room for it in the cons table, nothing
changes. -/
theorem toBlack_cases {i : Nat} (hs : h.tables.Sound) (hi : i < h.tables.roots.live)
    (he : h.tables.roots.entries[i]? = some ⟨l, 1⟩) :
    (∃ e, e.isAllocation = true ∧ toBlack l i h = .error (.error e) h) ∨
      ∃ (h' : Heap) (g : View), toBlack l i h = .ok () h' ∧ h.view.Grows g ∧
        h.Becomes h' (g.unroot l) := by
  rw [toBlack_eq]
  cases hroom : h.tables.zones.canExtendBlack with
  | true =>
    obtain ⟨h', hok, hb⟩ := release_ok hs hi he hroom
    exact .inr ⟨h', h.view, hok, .refl _, hb⟩
  | false =>
    obtain ⟨id, sizing, kinds, t⟩ := h
    simp only [Bool.false_eq_true, if_false]
    rcases Tables.growZones_cases hs sizing.cellsPerPage with
      ⟨e, halloc, herr⟩ | ⟨u, page, new, hu, hg, hlen, hpos, -⟩
    · left
      exact ⟨e, halloc, bind_error (onTables_error herr)⟩
    · right
      have hb : Becomes ⟨id, sizing, kinds, t⟩ ⟨id, sizing, kinds, u⟩ _ :=
        becomes_tables (hg.sound hs) rfl
      -- the new slots are free
      have hroom' : u.zones.canExtendBlack := by
        have hcap : u.zones.capacity = t.zones.capacity + new.length := hg.capacity
        have hfree : t.zones.whiteTop ≤ t.zones.capacity := hs.zones.ordered.free
        have hz : u.zones.whiteTop = t.zones.whiteTop := by rw [hg.zones]
        rw [Zones.canExtendBlack_iff, hz, hcap]
        right
        omega
      obtain ⟨h', hok, hb'⟩ := release_ok hb.sound (by rw [hg.live]; exact hi) (hg.entry_of_entry he)
        hroom'
      exact ⟨h', u.view id, (bind_ok (onTables_ok hu)).trans hok, hg.grows hs id, hb.trans hb'⟩

/-- A root loses a count, or leaves the root table with its last one. -/
theorem unroot_of_liveCell (hs : h.tables.Sound) (hc : h.cell? l = some c)
    (hroot : h.tables.color? l = some .root) (hlive : h.liveCell x = .ok (l, c)) :
    unroot x h = (if 1 < h.tables.count l then do
      let _ ← onTables (Tables.decrease c.slot)
    else toBlack l c.slot : HeapM Unit) h := by
  obtain ⟨he, -, -, hisRoot⟩ := hs.entry_of_root hc hroot
  obtain ⟨id, sizing, kinds, t⟩ := h
  rw [unroot, bind_get, bind_ok (answer_ok hlive)]
  simp only [hisRoot, if_true]
  -- the entry that the cell records has the count of the view
  rw [bind_ok (onTables_ok (Tables.entryAt_ok he))]

/-- A value is refused, or is a root that loses one count, or its last one. -/
theorem unroot_cases (hs : h.tables.Sound) (x : Value) :
    (∃ e, h.Refuses (.unroot x) e ∧ unroot x h = .error (.error e) h) ∨
      ∃ tag handle h', x = .cons tag handle ∧ h.resolve handle = some handle.location ∧
        unroot x h = .ok () h' ∧ h.view.color handle.location = some .root ∧
        ((1 < h.view.count handle.location ∧
            h.Becomes h' (h.view.recount handle.location (h.view.count handle.location - 1))) ∨
          (h.view.count handle.location = 1 ∧
            ∃ g : View, h.view.Grows g ∧ h.Becomes h' (g.unroot handle.location))) := by
  rcases h.liveCell_cases x with ⟨e, hx, he⟩ | ⟨tag, handle, c, rfl, hres, hc, hlive⟩
  · left
    refine ⟨e, .of_live rfl hx, ?_⟩
    rw [unroot, bind_get, bind_error (answer_error he)]
  cases hisRoot : c.isRoot with
  | false =>
    left
    refine ⟨.notRooted, .notRooted, ?_⟩
    rw [unroot, bind_get, bind_ok (answer_ok hlive)]
    simp only [hisRoot, Bool.false_eq_true, if_false]
    exact bind_error rfl
  | true =>
    have hroot := (hs.isRoot_iff hc).1 hisRoot
    obtain ⟨he, hlt, hpos, -⟩ := hs.entry_of_root hc hroot
    rw [unroot_of_liveCell hs hc hroot hlive]
    obtain ⟨id, sizing, kinds, ⟨s, z, r⟩⟩ := h
    by_cases hone : 1 < Tables.count ⟨s, z, r⟩ handle.location
    · right
      obtain ⟨u, hu, hsu, hview⟩ := Tables.decrease_recount hs hlt he hone id
      refine ⟨tag, handle, _, rfl, hres, ?_, hroot, .inl ⟨hone, becomes_tables hsu hview⟩⟩
      rw [if_pos hone, bind_ok (onTables_ok hu)]
      rfl
    · have hcount : Tables.count ⟨s, z, r⟩ handle.location = 1 :=
        Nat.le_antisymm (Nat.le_of_not_lt hone) hpos
      rw [if_neg hone]
      rw [hcount] at he
      rcases toBlack_cases hs hlt he with ⟨e, halloc, herr⟩ | ⟨h', g, hok, hg, hb⟩
      · exact .inl ⟨e, .memory halloc, herr⟩
      · exact .inr ⟨tag, handle, h', rfl, hres, hok, hroot, .inr ⟨hcount, g, hg, hb⟩⟩

end ConsHeap.Heap
