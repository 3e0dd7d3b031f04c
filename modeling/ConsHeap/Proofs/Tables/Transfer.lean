import ConsHeap.Proofs.View.Basic

/-!
# Cells between the tables

A cell that is rooted trades places with a spare cell of the root table, and one that is released
trades back. In between, one cell is named twice or records the wrong table; only the whole exchange
keeps the tables sound.

* `Tables.getElem?_exchange`, `Tables.records_exchange`: two entries have changed places.
* `Tables.Traded`: a slot and an entry have traded their cells. The tables stay sound.
* `Tables.tradeIn_ok`, `Tables.tradeOut_ok`: trading places on the way to the root table and back.
* `Tables.pin_ok`: a cell left in a dead slot becomes a root.
* `Tables.Rearranged`: the entries of the live roots have changed. The tables stay sound.
* `Tables.increase_recount`, `Tables.decrease_recount`: the count of a root changes.
* `Tables.release_ok`: a root with a count of one becomes black.
-/

namespace ConsHeap.Tables

variable {t u : Tables} {i j k n : Nat} {l m : Location} {c : Cell} {e : RootEntry}

section Steps

variable {s : Storage} {z : Zones} {r : Roots}

theorem entryAt_ok (h : r.entries[i]? = some e) : entryAt i ⟨s, z, r⟩ = .ok e ⟨s, z, r⟩ := by
  rw [entryAt, bind_get]
  simp only [h]
  rfl

theorem modifyRoots_ok (f : Roots → Roots) : modifyRoots f ⟨s, z, r⟩ = .ok () ⟨s, z, f r⟩ := rfl

theorem writeEntry_ok :
    writeEntry i e ⟨s, z, r⟩ = .ok () ⟨s, z, { r with entries := r.entries.setIfInBounds i e }⟩ := rfl

theorem exchange_ok (h : z.slots[i]? = some m) (hc : s.get? l = some c)
    (hi : i ≤ Placement.maxSlot) :
    exchange i l ⟨s, z, r⟩ =
      .ok m ⟨s.set l (c.place i false), { z with slots := z.slots.setIfInBounds i l }, r⟩ := by
  rw [exchange, bind_ok (slotAt_ok h), bind_ok writeSlot_ok, bind_ok (place_ok hc hi false)]
  rfl

theorem enrol_ok (hfull : r.isFull = false) (he : r.entries[r.live]? = some e)
    (hc : s.get? l = some c) (hi : r.live ≤ Placement.maxSlot) :
    enrol l ⟨s, z, r⟩ = .ok e.location
      ⟨s.set l (c.place r.live true), z, ⟨r.entries.setIfInBounds r.live ⟨l, 1⟩, r.live + 1⟩⟩ := by
  rw [enrol, bind_get, bind_ok (expect_ok (by simp [hfull])), bind_ok (entryAt_ok he),
    bind_ok writeEntry_ok, bind_ok (place_ok hc hi true), bind_ok (modifyRoots_ok _)]
  rfl

theorem park_ok (hi : r.live ≤ i) (he : r.entries[i]? = some e) (hc : s.get? l = some c)
    (hmax : i ≤ Placement.maxSlot) :
    park i l ⟨s, z, r⟩ = .ok e.location
      ⟨s.set l (c.place i false), z, { r with entries := r.entries.setIfInBounds i ⟨l, 0⟩ }⟩ := by
  rw [park, bind_get, bind_ok (expect_ok (by simpa using hi)), bind_ok (entryAt_ok he),
    bind_ok writeEntry_ok, bind_ok (place_ok hc hmax false)]
  rfl

theorem increase_ok (hi : i < r.live) (he : r.entries[i]? = some e) :
    increase i ⟨s, z, r⟩ = .ok (e.count + 1)
      ⟨s, z, { r with entries := r.entries.setIfInBounds i ⟨e.location, e.count + 1⟩ }⟩ := by
  rw [increase, bind_get, bind_ok (expect_ok (by simpa using hi)), bind_ok (entryAt_ok he),
    bind_ok writeEntry_ok]
  rfl

theorem decrease_ok (hi : i < r.live) (he : r.entries[i]? = some e) (hpos : 0 < e.count) :
    decrease i ⟨s, z, r⟩ = .ok (e.count - 1)
      ⟨s, z, { r with entries := r.entries.setIfInBounds i ⟨e.location, e.count - 1⟩ }⟩ := by
  rw [decrease, bind_get, bind_ok (expect_ok (by simpa using hi)), bind_ok (entryAt_ok he),
    bind_ok (expect_ok (by simpa using hpos)), bind_ok (minus_ok (by omega)), bind_ok writeEntry_ok]
  rfl

/-- The last root is only cut off the live entries. -/
theorem dismiss_last_ok (hlive : r.live = i + 1) (he : r.entries[i]? = some ⟨l, 0⟩) :
    dismiss i ⟨s, z, r⟩ = .ok i ⟨s, z, { r with live := i }⟩ := by
  have hi : i < r.live := by omega
  have hlast : r.live - 1 = i := by omega
  rw [dismiss, bind_get, bind_ok (expect_ok (by simpa using hi)), bind_ok (entryAt_ok he),
    bind_ok (expect_ok (by simp)), bind_ok (minus_ok (show 1 ≤ r.live by omega))]
  simp only [hlast, ne_eq, not_true_eq_false, if_false]
  rw [bind_ok (modifyRoots_ok _)]
  rfl

/-- The last root takes the entry of any other, and both cells record where they are now. -/
theorem dismiss_inner_ok {b : Cell} {d : RootEntry} (hik : i < k) (hlive : r.live = k + 1)
    (he : r.entries[i]? = some ⟨l, 0⟩) (hd : r.entries[k]? = some d) (hne : l ≠ d.location)
    (hc : s.get? l = some c) (hb : s.get? d.location = some b) (hk : k ≤ Placement.maxSlot) :
    dismiss i ⟨s, z, r⟩ = .ok k ⟨(s.set d.location (b.place i b.isRoot)).set l (c.place k c.isRoot), z,
      ⟨(r.entries.setIfInBounds i d).setIfInBounds k ⟨l, 0⟩, k⟩⟩ := by
  have hi : i < r.live := by omega
  have hlast : r.live - 1 = k := by omega
  have hc' : (s.set d.location (b.place i b.isRoot)).get? l = some c := by
    rw [Storage.get?_set_of_ne hne, hc]
  rw [dismiss, bind_get, bind_ok (expect_ok (by simpa using hi)), bind_ok (entryAt_ok he),
    bind_ok (expect_ok (by simp)), bind_ok (minus_ok (show 1 ≤ r.live by omega))]
  simp only [hlast, ne_eq, Nat.ne_of_lt hik, not_false_eq_true, if_true]
  rw [bind_ok (entryAt_ok hd), bind_ok writeEntry_ok, bind_ok writeEntry_ok,
    bind_ok (renumber_ok hb (by omega)), bind_ok (renumber_ok hc' hk), bind_ok (modifyRoots_ok _)]
  rfl

end Steps

/-- An entry that was written is there. -/
theorem getElem?_written {a : Array RootEntry} (he : a[i]? = some e) (d : RootEntry) :
    (a.setIfInBounds i d)[i]? = some d :=
  Array.getElem?_setIfInBounds_self_of_lt (Array.getElem?_eq_some_iff.1 he).1

/-- Two entries that were written over each other have changed places. -/
theorem getElem?_exchange {a : Array RootEntry} {d : RootEntry} (he : a[i]? = some e) (hd : a[j]? = some d)
    (k : Nat) : ((a.setIfInBounds i d).setIfInBounds j e)[Equiv.swap i j k]? = a[k]? := by
  have hi : i < a.size := (Array.getElem?_eq_some_iff.1 he).1
  have hj : j < a.size := (Array.getElem?_eq_some_iff.1 hd).1
  simp only [Array.getElem?_setIfInBounds, Array.size_setIfInBounds, hi, hj, if_true]
  rcases eq_or_ne k i with rfl | hki
  · rw [Equiv.swap_apply_left, if_pos rfl, he]
  rcases eq_or_ne k j with rfl | hkj
  · rw [Equiv.swap_apply_right, if_neg hki, if_pos rfl, hd]
  · rw [Equiv.swap_apply_of_ne_of_ne hki hkj, if_neg hkj.symm, if_neg hki.symm]

/-- Each cell records the place to which its entry has gone when two entries have changed places. -/
theorem records_exchange {s s' : Storage} {a : Array RootEntry} {d x : RootEntry} {p q b : Bool}
    (he : a[i]? = some e) (hd : a[j]? = some d) (hx : a[k]? = some x) (hi : s.Records e.location i p)
    (hj : s.Records d.location j q) (hk : s.Records x.location k b)
    (hp : s.Placed s' d.location i q e.location j p) : s'.Records x.location (Equiv.swap i j k) b := by
  rcases eq_or_ne k i with rfl | hki
  · obtain rfl := Option.some.inj (hx.symm.trans he)
    rw [Equiv.swap_apply_left, (hk.unique hi).2]
    exact hp.second
  rcases eq_or_ne k j with rfl | hkj
  · obtain rfl := Option.some.inj (hx.symm.trans hd)
    rw [Equiv.swap_apply_right, (hk.unique hj).2]
    exact hp.first
  · rw [Equiv.swap_apply_of_ne_of_ne hki hkj]
    refine hk.congr (hp.rest _ ?_ ?_)
    · exact fun heq => hkj (hk.unique (heq ▸ hj)).1
    · exact fun heq => hki (hk.unique (heq ▸ hi)).1

/-! ## Trading places -/

/-- Slot `i` has given its cell `l` to entry `k`, where it counts `n`, and has got the cell `m` that
the entry named before. -/
structure Traded (t u : Tables) (i k : Nat) (l m : Location) (n : Nat) : Prop where
  slot : t.zones.slots[i]? = some l
  entry : ∃ e, t.roots.entries[k]? = some e ∧ e.location = m
  zones : u.zones = { t.zones with slots := t.zones.slots.setIfInBounds i m }
  entries : u.roots.entries = t.roots.entries.setIfInBounds k ⟨l, n⟩
  live_le : u.roots.live ≤ t.roots.capacity
  live_iff : ∀ j : Nat, j ≠ k → (j < u.roots.live ↔ j < t.roots.live)
  counted : 0 < n ↔ k < u.roots.live
  placed : t.storage.Placed u.storage l k (decide (k < u.roots.live)) m i false

namespace Traded

variable (ht : Traded t u i k l m n)
include ht

theorem slots (j : Nat) : u.zones.slots[j]? = if i = j then some m else t.zones.slots[j]? := by
  have hlt : i < t.zones.slots.size := Zones.lt_capacity ht.slot
  simp only [ht.zones, Array.getElem?_setIfInBounds, hlt, if_true]

theorem entries_eq (j : Nat) :
    u.roots.entries[j]? = if k = j then some ⟨l, n⟩ else t.roots.entries[j]? := by
  obtain ⟨e, he, -⟩ := ht.entry
  have hlt : k < t.roots.entries.size := (Array.getElem?_eq_some_iff.1 he).1
  simp only [ht.entries, Array.getElem?_setIfInBounds, hlt, if_true]

theorem zone (j : Nat) : u.zones.zone j = t.zones.zone j := by
  rw [ht.zones]
  rfl

theorem capacity : u.zones.capacity = t.zones.capacity := by
  rw [ht.zones]
  exact Array.size_setIfInBounds

theorem roots_capacity : u.roots.capacity = t.roots.capacity := by
  rw [Roots.capacity, ht.entries]
  exact Array.size_setIfInBounds

theorem ne (h : t.Sound) : m ≠ l := by
  obtain ⟨e, he, rfl⟩ := ht.entry
  intro heq
  exact h.apart he (heq ▸ Array.mem_iff_getElem?.2 ⟨i, ht.slot⟩)

/-- Other slots name other cells. -/
theorem slot_ne (h : t.Sound) {j : Nat} {x : Location} (hij : i ≠ j)
    (hx : t.zones.slots[j]? = some x) : x ≠ l ∧ x ≠ m := by
  obtain ⟨e, he, rfl⟩ := ht.entry
  refine ⟨?_, ?_⟩
  · rintro rfl
    exact hij (h.zones.injective ht.slot hx)
  · rintro rfl
    exact h.apart he (Array.mem_iff_getElem?.2 ⟨j, hx⟩)

/-- Other entries name other cells. -/
theorem entry_ne (h : t.Sound) {j : Nat} {d : RootEntry} (hkj : k ≠ j)
    (hd : t.roots.entries[j]? = some d) : d.location ≠ l ∧ d.location ≠ m := by
  obtain ⟨e, he, rfl⟩ := ht.entry
  refine ⟨fun heq => ?_, fun heq => hkj (h.roots.injective he hd heq.symm)⟩
  exact h.apart hd (heq ▸ Array.mem_iff_getElem?.2 ⟨i, ht.slot⟩)

/-- Any other cell is named where it was, or is not there. -/
theorem cases_of_ne (h : t.Sound) {x : Location} (hxl : x ≠ l) (hxm : x ≠ m) :
    (∃ j : Nat, t.zones.slots[j]? = some x ∧ u.zones.slots[j]? = some x) ∨
      (∃ (j : Nat) (d : RootEntry), j ≠ k ∧ t.roots.entries[j]? = some d ∧
        u.roots.entries[j]? = some d ∧ d.location = x) ∨
      t.storage.get? x = none ∧ u.storage.get? x = none := by
  rcases h.cases x with ⟨j, hj⟩ | ⟨j, d, hd, rfl⟩ | hnone
  · have hij : i ≠ j := by
      rintro rfl
      exact hxl (Option.some.inj (hj.symm.trans ht.slot))
    exact .inl ⟨j, hj, by rw [ht.slots, if_neg hij, hj]⟩
  · have hkj : k ≠ j := by
      obtain ⟨e, he, rfl⟩ := ht.entry
      rintro rfl
      exact hxm (congrArg RootEntry.location (Option.some.inj (hd.symm.trans he)))
    exact .inr (.inl ⟨j, d, hkj.symm, hd, by rw [ht.entries_eq, if_neg hkj, hd], rfl⟩)
  · exact .inr (.inr ⟨hnone, (ht.placed.rest x hxl hxm).trans hnone⟩)

/-- Both tables stay sound. -/
theorem sound (h : t.Sound) : u.Sound where
  zones := by
    constructor
    · obtain ⟨hgap, hgrey, hwhite, hfree⟩ := h.zones.ordered
      have hcap := ht.capacity
      rw [ht.zones] at hcap ⊢
      exact ⟨hgap, hgrey, hwhite, by rw [hcap]; exact hfree⟩
    · intro j x hx
      rw [ht.slots] at hx
      split at hx
      · next hij =>
        cases hx
        exact hij ▸ ht.placed.second
      · next hij =>
        obtain ⟨hxl, hxm⟩ := ht.slot_ne h hij hx
        exact (h.zones.records hx).congr (ht.placed.rest x hxl hxm)
  roots := by
    constructor
    · rw [ht.roots_capacity]
      exact ht.live_le
    · intro j d hd
      rw [ht.entries_eq] at hd
      split at hd
      · next hkj =>
        cases hd
        exact hkj ▸ ht.placed.first
      · next hkj =>
        obtain ⟨hdl, hdm⟩ := ht.entry_ne h hkj hd
        rw [decide_eq_decide.2 (ht.live_iff j (Ne.symm hkj))]
        exact (h.roots.records hd).congr (ht.placed.rest _ hdl hdm)
    · intro j d hd
      rw [ht.entries_eq] at hd
      split at hd
      · next hkj =>
        cases hd
        exact hkj ▸ ht.counted
      · next hkj =>
        rw [ht.live_iff j (Ne.symm hkj)]
        exact h.roots.counted hd
  apart := by
    intro j d hd hmem
    -- four cases: the entry and the slot that have traded, or another one
    obtain ⟨j', hj'⟩ := Array.mem_iff_getElem?.1 hmem
    rw [ht.entries_eq] at hd
    rw [ht.slots] at hj'
    split at hd
    · cases hd
      split at hj'
      · exact ht.ne h (Option.some.inj hj')
      · next hij => exact (ht.slot_ne h hij hj').1 rfl
    · next hkj =>
      split at hj'
      · exact (ht.entry_ne h hkj hd).2 (Option.some.inj hj').symm
      · exact h.apart hd (Array.mem_iff_getElem?.2 ⟨j', hj'⟩)
  named := by
    intro x c hx
    rcases eq_or_ne x l with rfl | hxl
    · exact .inr ⟨k, ⟨x, n⟩, by rw [ht.entries_eq, if_pos rfl], rfl⟩
    rcases eq_or_ne x m with rfl | hxm
    · exact .inl (Array.mem_iff_getElem?.2 ⟨i, by rw [ht.slots, if_pos rfl]⟩)
    rcases ht.cases_of_ne h hxl hxm with ⟨j, -, hj⟩ | ⟨j, d, -, -, hd, rfl⟩ | ⟨-, hnone⟩
    · exact .inl (Array.mem_iff_getElem?.2 ⟨j, hj⟩)
    · exact .inr ⟨j, d, hd, rfl⟩
    · rw [hnone] at hx
      cases hx
  storage := h.storage.congr ht.placed.shape
  cells := by rw [ht.capacity, ht.roots_capacity, ht.placed.shape.cells, h.cells]
  slots_le := by
    rw [ht.capacity]
    exact h.slots_le
  entries_le := by
    rw [ht.roots_capacity]
    exact h.entries_le

/-- The cell of the slot is a root if its entry is live, the cell of the entry has the colour of the
slot, and no other cell changes its colour. -/
theorem color? (h : t.Sound) (x : Location) :
    u.color? x = if x = l then (if k < u.roots.live then some .root else none)
      else if x = m then (t.zones.zone i).color else t.color? x := by
  have hu := ht.sound h
  rcases eq_or_ne x l with rfl | hxl
  · rw [if_pos rfl]
    exact hu.color?_of_entry (e := ⟨x, n⟩) (by rw [ht.entries_eq, if_pos rfl])
  rw [if_neg hxl]
  rcases eq_or_ne x m with rfl | hxm
  · rw [if_pos rfl, color?_of_slot hu.zones (k := i) (by rw [ht.slots, if_pos rfl]), ht.zone]
  rw [if_neg hxm]
  rcases ht.cases_of_ne h hxl hxm with ⟨j, hj, hj'⟩ | ⟨j, d, hjk, hd, hd', rfl⟩ | ⟨hnone, hnone'⟩
  · rw [color?_of_slot hu.zones hj', color?_of_slot h.zones hj, ht.zone]
  · rw [hu.color?_of_entry hd', h.color?_of_entry hd]
    simp only [ht.live_iff j hjk]
  · rw [color?_of_get?_eq_none hnone, color?_of_get?_eq_none hnone']

/-- The cell of the slot has its count, the cell of the entry has none, and no other count changes. -/
theorem count (h : t.Sound) (x : Location) :
    u.count x = if x = l then n else if x = m then 0 else t.count x := by
  have hu := ht.sound h
  rcases eq_or_ne x l with rfl | hxl
  · rw [if_pos rfl]
    exact hu.count_of_entry (e := ⟨x, n⟩) (by rw [ht.entries_eq, if_pos rfl])
  rw [if_neg hxl]
  rcases eq_or_ne x m with rfl | hxm
  · rw [if_pos rfl]
    exact hu.zones.count_of_slot (k := i) (by rw [ht.slots, if_pos rfl])
  rw [if_neg hxm]
  rcases ht.cases_of_ne h hxl hxm with ⟨j, hj, hj'⟩ | ⟨j, d, -, hd, hd', rfl⟩ | ⟨hnone, hnone'⟩
  · rw [hu.zones.count_of_slot hj', h.zones.count_of_slot hj]
  · rw [hu.count_of_entry hd', h.count_of_entry hd]
  · rw [count_of_get?_eq_none hnone, count_of_get?_eq_none hnone']

end Traded

/-! ## Into the root table -/

/-- The cell in a slot trades places with the first spare cell of the root table. -/
theorem tradeIn_ok (h : t.Sound) (hi : t.zones.slots[i]? = some l) (hfull : t.roots.isFull = false) :
    ∃ (u v : Tables) (e : RootEntry), enrol l t = .ok e.location u ∧
      exchange i e.location u = .ok l v ∧ t.roots.entries[t.roots.live]? = some e ∧
      v.roots.live = t.roots.live + 1 ∧ Traded t v i t.roots.live l e.location 1 := by
  obtain ⟨s, z, r⟩ := t
  simp only at hi hfull
  have hlt : r.live < r.entries.size := by
    have := h.roots.live_le
    simp only [Roots.isFull, Roots.capacity, beq_eq_false_iff_ne] at hfull this
    omega
  -- the first entry after the live ones names the spare cell
  obtain ⟨e, he⟩ : ∃ e, r.entries[r.live]? = some e := ⟨_, Array.getElem?_eq_getElem hlt⟩
  have hmaxr := (h.roots.records he).le_maxSlot
  have hmaxi := (h.zones.records hi).le_maxSlot
  obtain ⟨c, hc, -, -⟩ := h.zones.records hi
  obtain ⟨d, hd, -, -⟩ := h.roots.records he
  simp only at hc hd hmaxr hmaxi
  have hne : e.location ≠ l := fun heq => h.apart he (heq ▸ Array.mem_iff_getElem?.2 ⟨i, hi⟩)
  have hd' : (s.set l (c.place r.live true)).get? e.location = some d := by
    rw [Storage.get?_set_of_ne hne, hd]
  refine ⟨_, _, e, enrol_ok hfull he hc hmaxr, exchange_ok hi hd' hmaxi, he, rfl, ?_⟩
  constructor
  · exact hi
  · exact ⟨e, he, rfl⟩
  · rfl
  · rfl
  · exact hlt
  · intro j hj
    have hj : j ≠ r.live := hj
    show j < r.live + 1 ↔ j < r.live
    omega
  · exact ⟨fun _ => Nat.lt_succ_self _, fun _ => Nat.one_pos⟩
  · simp only [Nat.lt_succ_self, decide_true]
    exact Storage.placed_set_set hne hc hd hmaxr hmaxi true false

/-- A cell that was left in a dead slot becomes a root with a count of one. -/
theorem pin_ok (h : t.Sound) (hi : t.zones.slots[i]? = some l) (hz : (t.zones.zone i).color = none)
    (hfull : t.roots.isFull = false) (id : UInt32) :
    ∃ u v spare, enrol l t = .ok spare u ∧ exchange i spare u = .ok l v ∧ v.Sound ∧
      v.zones = { t.zones with slots := t.zones.slots.setIfInBounds i spare } ∧
      v.view id = (t.view id).pin l := by
  obtain ⟨u, v, e, hu, hv, he, hlive, ht⟩ := tradeIn_ok h hi hfull
  refine ⟨u, v, e.location, hu, hv, ht.sound h, ht.zones, ?_⟩
  have hlt : t.roots.live < v.roots.live := by omega
  refine View.ext rfl (funext fun x => ?_) (funext ht.placed.contents) (funext fun x => ?_)
  · show v.color? x = Function.update t.color? l (some .root) x
    rw [ht.color? h, Function.update_apply, if_pos hlt]
    by_cases hx : x = e.location
    · -- the spare cell was dead and is left dead
      rw [if_pos hx, hx, h.color?_of_entry he, if_neg (Nat.lt_irrefl _), hz]
    · rw [if_neg hx]
  · show v.count x = Function.update t.count l 1 x
    rw [ht.count h, Function.update_apply]
    by_cases hx : x = e.location
    · have hcount : 0 < e.count ↔ t.roots.live < t.roots.live := h.roots.counted he
      rw [if_pos hx, hx, h.count_of_entry he, show e.count = 0 by omega]
    · rw [if_neg hx]

/-! ## Changes within the root table -/

/-- The cells of the root table have gone to other entries, and their counts may have changed. Only
live roots have moved. -/
structure Rearranged (t u : Tables) (goes : Equiv.Perm Nat) : Prop where
  zones : u.zones = t.zones
  live : u.roots.live = t.roots.live
  capacity : u.roots.capacity = t.roots.capacity
  entries : ∀ k : Nat, (u.roots.entries[goes k]?).map RootEntry.location =
    (t.roots.entries[k]?).map RootEntry.location
  records : ∀ {k : Nat} {e : RootEntry}, u.roots.entries[k]? = some e →
    u.storage.Records e.location k (decide (k < t.roots.live))
  counted : ∀ {k : Nat} {e : RootEntry}, u.roots.entries[k]? = some e → (0 < e.count ↔ k < t.roots.live)
  within : ∀ k : Nat, goes k < t.roots.live ↔ k < t.roots.live
  rest : ∀ x, t.color? x ≠ some .root → u.storage.get? x = t.storage.get? x
  shape : t.storage.SameShape u.storage
  contents : ∀ x, u.storage.contents? x = t.storage.contents? x

namespace Rearranged

variable {goes : Equiv.Perm Nat} (hr : Rearranged t u goes)
include hr

theorem entry_to {e : RootEntry} (he : t.roots.entries[k]? = some e) :
    ∃ d : RootEntry, u.roots.entries[goes k]? = some d ∧ d.location = e.location := by
  have h := hr.entries k
  rw [he, Option.map_some, Option.map_eq_some_iff] at h
  exact h

theorem entry_from {d : RootEntry} (hd : u.roots.entries[k]? = some d) :
    ∃ e : RootEntry, t.roots.entries[goes.symm k]? = some e ∧ e.location = d.location := by
  have h := hr.entries (goes.symm k)
  rw [Equiv.apply_symm_apply, hd, Option.map_some, eq_comm, Option.map_eq_some_iff] at h
  exact h

/-- The cells of the cons table are as they were. -/
theorem rest_of_mem (h : t.Sound) {x : Location} (hx : x ∈ t.zones.slots) :
    u.storage.get? x = t.storage.get? x := by
  obtain ⟨j, hj⟩ := Array.mem_iff_getElem?.1 hx
  refine hr.rest x ?_
  rw [color?_of_slot h.zones hj]
  cases t.zones.zone j <;> simp [Zone.color]

/-- Both tables stay sound. -/
theorem sound (h : t.Sound) : u.Sound where
  zones := by
    constructor
    · rw [hr.zones]
      exact h.zones.ordered
    · intro j x hx
      rw [hr.zones] at hx
      exact (h.zones.records hx).congr (hr.rest_of_mem h (Array.mem_iff_getElem?.2 ⟨j, hx⟩))
  roots := by
    constructor
    · rw [hr.live, hr.capacity]
      exact h.roots.live_le
    · intro j d hd
      rw [hr.live]
      exact hr.records hd
    · intro j d hd
      rw [hr.live]
      exact hr.counted hd
  apart := by
    intro j d hd
    obtain ⟨e, he, heq⟩ := hr.entry_from hd
    rw [hr.zones, ← heq]
    exact h.apart he
  named := by
    intro x c hx
    obtain ⟨c', hc'⟩ := hr.shape.exists_get? hx
    rcases h.named hc' with hin | ⟨j, e, he, rfl⟩
    · exact .inl (hr.zones ▸ hin)
    · obtain ⟨d, hd, heq⟩ := hr.entry_to he
      exact .inr ⟨goes j, d, hd, heq⟩
  storage := h.storage.congr hr.shape
  cells := by rw [hr.zones, hr.capacity, hr.shape.cells, h.cells]
  slots_le := by
    rw [hr.zones]
    exact h.slots_le
  entries_le := by
    rw [hr.capacity]
    exact h.entries_le

/-- No cell changes its colour. -/
theorem color? (h : t.Sound) (x : Location) : u.color? x = t.color? x := by
  have hu := hr.sound h
  rcases h.cases x with ⟨j, hj⟩ | ⟨j, e, he, rfl⟩ | hnone
  · rw [color?_of_slot hu.zones (k := j) (by rw [hr.zones, hj]), color?_of_slot h.zones hj, hr.zones]
  · obtain ⟨d, hd, heq⟩ := hr.entry_to he
    rw [← heq, hu.color?_of_entry hd, heq, h.color?_of_entry he, hr.live]
    simp only [hr.within]
  · rw [color?_of_get?_eq_none hnone, color?_of_get?_eq_none]
    rw [hr.rest x (by simp [color?_of_get?_eq_none hnone]), hnone]

/-- The counts are those of the entries now. -/
theorem count (h : t.Sound) {f : Location → Nat}
    (hin : ∀ {k : Nat} {d : RootEntry}, u.roots.entries[k]? = some d → f d.location = d.count)
    (hout : ∀ x, (∀ (k : Nat) (e : RootEntry), t.roots.entries[k]? = some e → x ≠ e.location) →
      f x = t.count x) (x : Location) : u.count x = f x := by
  have hu := hr.sound h
  rcases h.cases x with ⟨j, hj⟩ | ⟨j, e, he, rfl⟩ | hnone
  · have hmem : x ∈ t.zones.slots := Array.mem_iff_getElem?.2 ⟨j, hj⟩
    rw [hout x fun k e he hx => h.apart he (hx ▸ hmem), h.zones.count_of_slot hj,
      hu.zones.count_of_slot (k := j) (by rw [hr.zones, hj])]
  · obtain ⟨d, hd, heq⟩ := hr.entry_to he
    rw [← heq, hu.count_of_entry hd, hin hd]
  · have hne : ∀ (k : Nat) (e : RootEntry), t.roots.entries[k]? = some e → x ≠ e.location := by
      rintro k e he rfl
      exact (h.roots.records he).ne_none hnone
    rw [hout x hne, count_of_get?_eq_none hnone, count_of_get?_eq_none]
    rw [hr.rest x (by simp [color?_of_get?_eq_none hnone]), hnone]

end Rearranged

/-- Another count for a live root. -/
theorem Sound.recount (h : t.Sound) (hi : i < t.roots.live) (he : t.roots.entries[i]? = some e)
    (hn : 0 < n) (id : UInt32) {u : Tables} (hu : u = ⟨t.storage, t.zones,
      { t.roots with entries := t.roots.entries.setIfInBounds i ⟨e.location, n⟩ }⟩) :
    u.Sound ∧ u.view id = (t.view id).recount e.location n := by
  have hlt : i < t.roots.entries.size := (Array.getElem?_eq_some_iff.1 he).1
  have hentry : ∀ k : Nat, u.roots.entries[k]? = if i = k then some ⟨e.location, n⟩
      else t.roots.entries[k]? := by
    intro k
    simp only [hu, Array.getElem?_setIfInBounds, hlt, if_true]
  have hloc : ∀ k : Nat, (u.roots.entries[k]?).map RootEntry.location =
      (t.roots.entries[k]?).map RootEntry.location := by
    intro k
    rw [hentry]
    split
    · next hik => rw [← hik, he, Option.map_some, Option.map_some]
    · rfl
  -- no cell goes to another entry
  have hr : Rearranged t u (Equiv.refl Nat) := by
    constructor
    · rw [hu]
    · rw [hu]
    · rw [hu]
      exact Array.size_setIfInBounds
    · exact hloc
    · intro k d hd
      have hk := hloc k
      rw [hd, Option.map_some, eq_comm, Option.map_eq_some_iff] at hk
      obtain ⟨d', hd', heq⟩ := hk
      rw [← heq, hu]
      exact h.roots.records hd'
    · intro k d hd
      rw [hentry] at hd
      split at hd
      · next hik =>
        cases hd
        exact ⟨fun _ => hik ▸ hi, fun _ => hn⟩
      · exact h.roots.counted hd
    · exact fun _ => Iff.rfl
    · rw [hu]
      exact fun _ _ => rfl
    · rw [hu]
      exact .refl _
    · rw [hu]
      exact fun _ => rfl
  refine ⟨hr.sound h, View.ext rfl (funext (hr.color? h)) (funext hr.contents) (funext ?_)⟩
  refine hr.count h ?_ ?_
  · intro k d hd
    show Function.update t.count e.location n d.location = d.count
    rw [hentry] at hd
    split at hd
    · cases hd
      rw [Function.update_self]
    · next hik =>
      rw [Function.update_of_ne, h.count_of_entry hd]
      exact fun heq => hik (h.roots.injective he hd heq.symm)
  · intro x hx
    exact Function.update_of_ne (hx i e he) _ _

/-- One more count for a root. -/
theorem increase_recount (h : t.Sound) (hi : i < t.roots.live) (he : t.roots.entries[i]? = some e)
    (id : UInt32) :
    ∃ u, increase i t = .ok (e.count + 1) u ∧ u.Sound ∧
      u.view id = (t.view id).recount e.location (e.count + 1) :=
  ⟨_, increase_ok hi he, h.recount hi he (Nat.succ_pos _) id rfl⟩

/-- One count less for a root that keeps one. -/
theorem decrease_recount (h : t.Sound) (hi : i < t.roots.live) (he : t.roots.entries[i]? = some e)
    (hn : 1 < e.count) (id : UInt32) :
    ∃ u, decrease i t = .ok (e.count - 1) u ∧ u.Sound ∧
      u.view id = (t.view id).recount e.location (e.count - 1) :=
  ⟨_, decrease_ok hi he (by omega), h.recount hi he (by omega) id rfl⟩

/-- Two live roots exchange their entries. -/
theorem Sound.swap_entries (h : t.Sound) (hij : i ≠ j) (hi : i < t.roots.live) (hj : j < t.roots.live)
    {d : RootEntry} {b : Cell} (he : t.roots.entries[i]? = some e) (hd : t.roots.entries[j]? = some d)
    (hc : t.storage.get? e.location = some c) (hb : t.storage.get? d.location = some b) {u : Tables}
    (hu : u = ⟨(t.storage.set d.location (b.place i true)).set e.location (c.place j true), t.zones,
      { t.roots with entries := (t.roots.entries.setIfInBounds i d).setIfInBounds j e }⟩) :
    Rearranged t u (Equiv.swap i j) ∧ ∀ k : Nat, u.roots.entries[Equiv.swap i j k]? = t.roots.entries[k]? := by
  have hne : e.location ≠ d.location := fun heq => hij (h.roots.injective he hd heq)
  have hswap : ∀ k : Nat, u.roots.entries[Equiv.swap i j k]? = t.roots.entries[k]? := by
    rw [hu]
    exact getElem?_exchange he hd
  have hwithin : ∀ k : Nat, Equiv.swap i j k < t.roots.live ↔ k < t.roots.live := by
    intro k
    rcases eq_or_ne k i with rfl | hki
    · rw [Equiv.swap_apply_left]
      exact iff_of_true hj hi
    rcases eq_or_ne k j with rfl | hkj
    · rw [Equiv.swap_apply_right]
      exact iff_of_true hi hj
    · rw [Equiv.swap_apply_of_ne_of_ne hki hkj]
  have hei : t.storage.Records e.location i true := decide_eq_true hi ▸ h.roots.records he
  have hdj : t.storage.Records d.location j true := decide_eq_true hj ▸ h.roots.records hd
  -- both cells record the entry that they have gone to
  have hp : t.storage.Placed u.storage d.location i true e.location j true := by
    rw [hu]
    exact Storage.placed_set_set hne hb hc hei.le_maxSlot hdj.le_maxSlot true true
  refine ⟨?_, hswap⟩
  constructor
  · rw [hu]
  · rw [hu]
  · rw [hu]
    simp only [Roots.capacity, Array.size_setIfInBounds]
  · intro k
    rw [hswap]
  · intro p x hx
    obtain ⟨k, rfl⟩ := (Equiv.swap i j).surjective p
    rw [hswap] at hx
    rw [decide_eq_decide.2 (hwithin k)]
    exact records_exchange he hd hx hei hdj (h.roots.records hx) hp
  · intro p x hx
    obtain ⟨k, rfl⟩ := (Equiv.swap i j).surjective p
    rw [hswap] at hx
    rw [hwithin]
    exact h.roots.counted hx
  · exact hwithin
  · intro x hx
    have hxe : x ≠ e.location := by
      rintro rfl
      exact hx ((h.color?_of_entry he).trans (if_pos hi))
    have hxd : x ≠ d.location := by
      rintro rfl
      exact hx ((h.color?_of_entry hd).trans (if_pos hj))
    exact hp.rest x hxd hxe
  · exact hp.shape
  · exact hp.contents

/-! ## Out of the root table -/

/-- A root with a count of one is left in the first dead entry, still recorded as a root. The tables
would be sound if that entry were live and counted. -/
theorem dismiss_ok (h : t.Sound) (hi : i < t.roots.live) (he : t.roots.entries[i]? = some ⟨l, 1⟩)
    (id : UInt32) :
    ∃ u w : Tables, decrease i t = .ok 0 u ∧
      dismiss i u = .ok (t.roots.live - 1) ⟨w.storage, w.zones,
        ⟨w.roots.entries.setIfInBounds (t.roots.live - 1) ⟨l, 0⟩, t.roots.live - 1⟩⟩ ∧
      w.Sound ∧ w.view id = t.view id ∧ w.zones = t.zones ∧ w.roots.live = t.roots.live ∧
      w.roots.entries[t.roots.live - 1]? = some ⟨l, 1⟩ := by
  obtain ⟨s, z, r⟩ := t
  simp only at hi he ⊢
  have he0 : (r.entries.setIfInBounds i ⟨l, 0⟩)[i]? = some ⟨l, 0⟩ := getElem?_written he _
  rcases eq_or_ne i (r.live - 1) with hlast | hlast
  · -- the root is the last one already
    refine ⟨_, ⟨s, z, r⟩, decrease_ok hi he Nat.one_pos, ?_, h, rfl, rfl, rfl, hlast ▸ he⟩
    rw [← hlast]
    exact dismiss_last_ok (by simp only; omega) he0
  -- the last live root takes its entry
  have hlt : r.live - 1 < r.live := by omega
  have hcap : r.live ≤ r.entries.size := h.roots.live_le
  obtain ⟨d, hd⟩ : ∃ d, r.entries[r.live - 1]? = some d :=
    ⟨_, Array.getElem?_eq_getElem (show r.live - 1 < r.entries.size by omega)⟩
  obtain ⟨c, hc, -, hcr⟩ := h.roots.records he
  obtain ⟨b, hb, -, hbr⟩ := h.roots.records hd
  rw [decide_eq_true hi] at hcr
  rw [decide_eq_true hlt] at hbr
  simp only at hc hb
  have hne : l ≠ d.location := fun heq => hlast (h.roots.injective he hd heq)
  have hmaxj := (h.roots.records hd).le_maxSlot
  obtain ⟨hr, hentries⟩ := h.swap_entries hlast hi hlt he hd hc hb rfl
  refine ⟨_, _, decrease_ok hi he Nat.one_pos, ?_, hr.sound h, ?_, rfl, rfl, ?_⟩
  · have hd0 : (r.entries.setIfInBounds i ⟨l, 0⟩)[r.live - 1]? = some d := by
      rw [Array.getElem?_setIfInBounds, if_neg hlast, hd]
    rw [dismiss_inner_ok (by omega) (by simp only; omega) he0 hd0 hne hc hb hmaxj, hbr, hcr]
    simp only [Array.setIfInBounds_setIfInBounds]
  · refine View.ext rfl (funext (hr.color? h)) (funext hr.contents) (funext ?_)
    refine hr.count h (f := count _) ?_ fun _ _ => rfl
    intro k x hx
    rw [← Equiv.swap_apply_self i (r.live - 1) k, hentries] at hx
    exact h.count_of_entry hx
  · have hself := hentries i
    rw [Equiv.swap_apply_left] at hself
    exact hself.trans he

/-- Moves in the cons table do not look at the root table. -/
theorem Relocated.withRoots (h : t.Relocated u) (r : Roots) :
    Relocated ⟨t.storage, t.zones, r⟩ ⟨u.storage, u.zones, r⟩ :=
  ⟨rfl, h.shape, h.contents, h.flags, h.outside, h.slots⟩

/-- The last root, whose entry is dead already, trades places with the cell in a slot. -/
theorem tradeOut_ok {s : Storage} {z : Zones} {r : Roots} (h : Sound ⟨s, z, r⟩) (hlive : r.live = n + 1)
    (he : r.entries[n]? = some ⟨l, 1⟩) (hi : z.slots[i]? = some m) :
    ∃ u v : Tables, exchange i l ⟨s, z, ⟨r.entries.setIfInBounds n ⟨l, 0⟩, n⟩⟩ = .ok m u ∧
      park n m u = .ok l v ∧ v.roots.live = n ∧ Traded ⟨s, z, r⟩ v i n m l 0 := by
  have hlt : n < r.entries.size := (Array.getElem?_eq_some_iff.1 he).1
  have hmaxi := (h.zones.records hi).le_maxSlot
  have hmaxn := (h.roots.records he).le_maxSlot
  obtain ⟨c, hc, -, -⟩ := h.roots.records he
  obtain ⟨d, hd, -, -⟩ := h.zones.records hi
  simp only at hc hd
  have hne : m ≠ l := fun heq => h.apart he (heq ▸ Array.mem_iff_getElem?.2 ⟨_, hi⟩)
  have hd' : (s.set l (c.place i false)).get? m = some d := by rw [Storage.get?_set_of_ne hne, hd]
  have he' : (r.entries.setIfInBounds n ⟨l, 0⟩)[n]? = some ⟨l, 0⟩ := getElem?_written he _
  refine ⟨_, _, exchange_ok hi hc hmaxi, park_ok (e := ⟨l, 0⟩) (Nat.le_refl n) he' hd' hmaxn, rfl, ?_⟩
  constructor
  · exact hi
  · exact ⟨_, he, rfl⟩
  · rfl
  · exact Array.setIfInBounds_setIfInBounds ..
  · exact Nat.le_of_lt hlt
  · intro j hj
    show j < n ↔ j < r.live
    omega
  · exact ⟨fun h0 => absurd h0 (Nat.lt_irrefl 0), fun h0 => absurd h0 (Nat.lt_irrefl n)⟩
  · simp only [Nat.lt_irrefl, decide_false]
    exact (Storage.placed_set_set hne hc hd hmaxi hmaxn false false).symm

/-- A root with a count of one goes back to the cons table, and becomes black there. -/
theorem release_ok (h : t.Sound) (hi : i < t.roots.live) (he : t.roots.entries[i]? = some ⟨l, 1⟩)
    (hroom : t.zones.canExtendBlack) (id : UInt32) :
    ∃ u₁ u₂ u₃ u₄ v spare, decrease i t = .ok 0 u₁ ∧ dismiss i u₁ = .ok (t.roots.live - 1) u₂ ∧
      extendBlack u₂ = .ok t.zones.blackTop u₃ ∧ exchange t.zones.blackTop l u₃ = .ok spare u₄ ∧
      park (t.roots.live - 1) spare u₄ = .ok l v ∧ v.Sound ∧
      v.zones = { t.zones.opened with slots := t.zones.opened.slots.setIfInBounds t.zones.blackTop l } ∧
      v.view id = (t.view id).release l := by
  obtain ⟨u₁, ⟨s, z, r⟩, hu₁, hu₂, hw, hview, hwz, hwl, hwe⟩ := dismiss_ok h hi he id
  simp only at hu₂ hwz hwl hwe
  subst hwz
  generalize hlast : t.roots.live - 1 = last at hu₂ hwe ⊢
  have hlive : r.live = last + 1 := by omega
  -- a slot for a black cell, which a spare cell has for now
  have hz₂ : ZonesSound ⟨s, t.zones, ⟨r.entries.setIfInBounds last ⟨l, 0⟩, last⟩⟩ :=
    ⟨hw.zones.ordered, hw.zones.records⟩
  obtain ⟨u₃, spare, hu₃, hr₃, hz₃, hopened, hslot, hdead, hcolor⟩ := extendBlack_ok hz₂ hroom
  -- the tables as if the root had kept its entry
  have hr : Relocated ⟨s, t.zones, r⟩ ⟨u₃.storage, u₃.zones, r⟩ := hr₃.withRoots r
  have hx : Sound ⟨u₃.storage, u₃.zones, r⟩ := hw.relocated hr ⟨hz₃.ordered, hz₃.records⟩
  obtain ⟨s₃, z₃, r₃⟩ := u₃
  have hr₃' : r₃ = ⟨r.entries.setIfInBounds last ⟨l, 0⟩, last⟩ := hr₃.roots
  subst hr₃'
  obtain ⟨u₄, v, hu₄, hv, hvl, ht⟩ := tradeOut_ok hx hlive hwe hslot
  have hzones : v.zones = { t.zones.opened with
      slots := t.zones.opened.slots.setIfInBounds t.zones.blackTop l } := by
    rw [ht.zones]
    simp only at hopened
    rw [hopened]
  refine ⟨u₁, _, _, u₄, v, spare, hu₁, hu₂, hu₃, hu₄, hv, ht.sound hx, hzones, ?_⟩
  rw [← hview]
  have hne : spare ≠ l := (ht.ne hx).symm
  have hblack : (z₃.zone t.zones.blackTop).color = some .black := by
    rw [← color?_of_slot hx.zones hslot]
    exact (hcolor spare).trans (if_pos rfl)
  refine View.ext rfl (funext fun x => ?_) (funext fun x => ?_) (funext fun x => ?_)
  · show v.color? x = Function.update (color? ⟨s, t.zones, r⟩) l (some .black) x
    rw [ht.color? hx, Function.update_apply, if_neg (show ¬ last < v.roots.live by omega)]
    by_cases hxs : x = spare
    · rw [if_pos hxs, if_neg (by rw [hxs]; exact hne), hxs]
      exact hdead.symm
    · rw [if_neg hxs, hblack]
      split
      · rfl
      · exact (hcolor x).trans (if_neg hxs)
  · exact (ht.placed.contents x).trans (hr.contents x)
  · show v.count x = Function.update (count ⟨s, t.zones, r⟩) l 0 x
    rw [ht.count hx, Function.update_apply, hw.count_relocated hr hx.zones]
    by_cases hxs : x = spare
    · rw [if_pos hxs, if_neg (by rw [hxs]; exact hne), hxs]
      rw [← hw.count_relocated hr hx.zones, hx.zones.count_of_slot hslot]
    · rw [if_neg hxs]

end ConsHeap.Tables
