import ConsHeap.Proofs.Storage
import ConsHeap.Proofs.Tables.Zones

/-!
# Moves in the cons table

A table is indexed when its boundaries are in order and every slot names a cell that records the
number of the slot. Each move of an indexed table succeeds, is the move of the zones it stands for,
and leaves the table indexed. It touches nothing but the places of cells in the cons table. A table
is sound when its cells record as well that they are not roots, and a move keeps that, too.

* `Tables.Indexed`, `Tables.ZonesSound`, `Tables.Relocated`: the two conditions, and what a move
  leaves alone.
* `Tables.shade_relocated`, `Tables.takeOut_relocated`, `Tables.extendBlack_relocated`,
  `Tables.blacken_relocated`: the moves that exchange slots.
* `Tables.color?_of_slot`: the colour of a cell is the zone of its slot.
* `Tables.extendWhite_ok`, `Tables.shade_ok`, `Tables.takeOut_ok`, `Tables.extendBlack_ok`,
  `Tables.blacken_ok`, `Tables.turn_ok`: what the moves of a sound table do to the colours.
-/

namespace ConsHeap.Tables

variable {t u v : Tables} {i j k : Nat} {l m : Location} {c : Cell}

/-! ## Single steps -/

section Steps

variable {s : Storage} {z : Zones} {r : Roots}

theorem slotAt_ok (h : z.slots[i]? = some l) : slotAt i ⟨s, z, r⟩ = .ok l ⟨s, z, r⟩ := by
  rw [slotAt, bind_get]
  simp only [h]
  rfl

theorem writeSlot_ok :
    writeSlot i l ⟨s, z, r⟩ = .ok () ⟨s, { z with slots := z.slots.setIfInBounds i l }, r⟩ := rfl

theorem modifyZones_ok (f : Zones → Zones) : modifyZones f ⟨s, z, r⟩ = .ok () ⟨s, f z, r⟩ := rfl

theorem cellAt_ok (h : s.get? l = some c) : cellAt l ⟨s, z, r⟩ = .ok c ⟨s, z, r⟩ := by
  rw [cellAt, bind_get]
  simp only [h]
  rfl

theorem place_ok (h : s.get? l = some c) (hi : i ≤ Placement.maxSlot) (b : Bool) :
    place l i b ⟨s, z, r⟩ = .ok () ⟨s.set l (c.place i b), z, r⟩ := by
  rw [place, bind_ok (cellAt_ok h), bind_ok (expect_ok (by simpa using hi))]
  rfl

theorem renumber_ok (h : s.get? l = some c) (hi : i ≤ Placement.maxSlot) :
    renumber l i ⟨s, z, r⟩ = .ok () ⟨s.set l (c.place i c.isRoot), z, r⟩ := by
  rw [renumber, bind_ok (cellAt_ok h), bind_ok (expect_ok (by simpa using hi))]
  rfl

theorem updateCell_ok (h : s.get? l = some c) (f : Cell → Cell) :
    updateCell l f ⟨s, z, r⟩ = .ok () ⟨s.set l (f c), z, r⟩ := by
  rw [updateCell, bind_ok (cellAt_ok h)]
  rfl

end Steps

/-! ## Soundness -/

/-- The boundaries are in order, and every slot names a cell that records its number. -/
structure Indexed (t : Tables) : Prop where
  ordered : t.zones.Ordered
  records : ∀ {i l}, t.zones.slots[i]? = some l → ∃ b, t.storage.Records l i b

/-- No cell is named by two slots. -/
theorem Indexed.injective (h : t.Indexed) (hi : t.zones.slots[i]? = some l)
    (hj : t.zones.slots[j]? = some l) : i = j := by
  obtain ⟨a, ha⟩ := h.records hi
  obtain ⟨b, hb⟩ := h.records hj
  exact (ha.unique hb).1

theorem Indexed.nodup (h : t.Indexed) : t.zones.slots.toList.Nodup := by
  rw [List.nodup_iff_pairwise_ne, List.pairwise_iff_getElem]
  intro i j hi hj hij heq
  refine absurd (h.injective (i := i) (j := j) (l := t.zones.slots.toList[i]) ?_ ?_) (by omega)
  · rw [← Array.getElem?_toList, List.getElem?_eq_getElem hi]
  · rw [← Array.getElem?_toList, List.getElem?_eq_getElem hj, heq]

theorem Indexed.shift {z : Zones} (h : t.Indexed) (hz : z.slots = t.zones.slots)
    (ho : z.Ordered) : Indexed { t with zones := z } :=
  ⟨ho, fun hi => h.records (by rwa [hz] at hi)⟩

/-- The boundaries are in order, and every slot names a cell that records it. -/
structure ZonesSound (t : Tables) : Prop where
  ordered : t.zones.Ordered
  records : ∀ {i l}, t.zones.slots[i]? = some l → t.storage.Records l i false

theorem ZonesSound.indexed (h : t.ZonesSound) : t.Indexed :=
  ⟨h.ordered, fun hi => ⟨false, h.records hi⟩⟩

/-- No cell is named by two slots. -/
theorem ZonesSound.injective (h : t.ZonesSound) (hi : t.zones.slots[i]? = some l)
    (hj : t.zones.slots[j]? = some l) : i = j :=
  h.indexed.injective hi hj

/-- What a move in the cons table leaves alone: the root table, the pages, what the cells hold,
which of them are roots, the cells that the table does not name, and which cells it does. -/
structure Relocated (t u : Tables) : Prop where
  roots : u.roots = t.roots
  shape : t.storage.SameShape u.storage
  contents : ∀ l, u.storage.contents? l = t.storage.contents? l
  flags : ∀ l, (u.storage.get? l).map Cell.isRoot = (t.storage.get? l).map Cell.isRoot
  outside : ∀ l, l ∉ t.zones.slots → u.storage.get? l = t.storage.get? l
  slots : u.zones.slots.Perm t.zones.slots

theorem Relocated.refl (t : Tables) : t.Relocated t :=
  ⟨rfl, .refl _, fun _ => rfl, fun _ => rfl, fun _ _ => rfl, .refl _⟩

theorem Relocated.mem_iff (h : t.Relocated u) (l : Location) :
    l ∈ u.zones.slots ↔ l ∈ t.zones.slots := h.slots.mem_iff

theorem Relocated.capacity (h : t.Relocated u) : u.zones.capacity = t.zones.capacity :=
  h.slots.size_eq

theorem Relocated.trans (h : t.Relocated u) (h' : u.Relocated v) : t.Relocated v where
  roots := h'.roots.trans h.roots
  shape := h.shape.trans h'.shape
  contents l := (h'.contents l).trans (h.contents l)
  flags l := (h'.flags l).trans (h.flags l)
  outside l hl := (h'.outside l (mt (h.mem_iff l).1 hl)).trans (h.outside l hl)
  slots := h'.slots.trans h.slots

/-- A shift of the boundaries alone. -/
theorem Relocated.shift {z : Zones} (h : t.Relocated u) (hz : z.slots = u.zones.slots) :
    t.Relocated { u with zones := z } :=
  ⟨h.roots, h.shape, h.contents, h.flags, h.outside, by rw [hz]; exact h.slots⟩

/-- A move of a sound table that leaves it indexed leaves it sound. -/
theorem Relocated.sound (h : t.Relocated u) (ht : t.ZonesSound) (hu : u.Indexed) : u.ZonesSound := by
  refine ⟨hu.ordered, ?_⟩
  intro i l hi
  -- the cell was named before, and its flag is what it was then
  obtain ⟨k, hk⟩ := Array.mem_iff_getElem?.1 ((h.mem_iff l).1 (Array.mem_iff_getElem?.2 ⟨i, hi⟩))
  obtain ⟨c, hc, -, hroot⟩ := ht.records hk
  obtain ⟨b, d, hd, hslot, rfl⟩ := hu.records hi
  have hflag := h.flags l
  rw [hc, hd, Option.map_some, Option.map_some, Option.some.injEq] at hflag
  exact ⟨d, hd, hslot, hflag.trans hroot⟩

/-! ## Colours -/

/-- The colour of a cell is the zone of its slot. -/
theorem color?_of_slot (h : t.ZonesSound) (hk : t.zones.slots[k]? = some l) :
    t.color? l = (t.zones.zone k).color := by
  obtain ⟨c, hc, rfl, hroot⟩ := h.records hk
  simp [color?, hc, hroot, hk]

/-- A cell that the cons table does not name is a root, or has no colour. -/
theorem color?_of_not_mem (hl : l ∉ t.zones.slots) :
    t.color? l = (t.storage.get? l).bind fun c => if c.isRoot then some .root else none := by
  have hne : ∀ k : Nat, t.zones.slots[k]? ≠ some l := by
    intro k hk
    exact hl (Array.mem_iff_getElem?.2 ⟨k, hk⟩)
  cases hc : t.storage.get? l <;> simp [color?, hc, hne]

theorem Relocated.color?_of_not_mem (h : t.Relocated u) (hl : l ∉ t.zones.slots) :
    u.color? l = t.color? l := by
  rw [Tables.color?_of_not_mem hl, Tables.color?_of_not_mem (mt (h.mem_iff l).1 hl), h.outside l hl]

/-- The colours after a move, from where it takes each slot. -/
theorem Relocated.color?_eq (h : t.Relocated u) (hu : u.ZonesSound)
    {f : Location → Option Color} (goes : Nat → Nat)
    (hslots : ∀ k, u.zones.slots[goes k]? = t.zones.slots[k]?)
    (hin : ∀ k l, t.zones.slots[k]? = some l → (u.zones.zone (goes k)).color = f l)
    (hout : ∀ l, l ∉ t.zones.slots → t.color? l = f l) (l : Location) : u.color? l = f l := by
  by_cases hl : l ∈ t.zones.slots
  · obtain ⟨k, hk⟩ := Array.mem_iff_getElem?.1 hl
    rw [color?_of_slot hu ((hslots k).trans hk), hin k l hk]
  · rw [h.color?_of_not_mem hl, hout l hl]

/-- A move that only changes the zone of the cell at slot `i`. -/
theorem Relocated.color?_update (h : t.Relocated u) (ht : t.ZonesSound) (hu : u.ZonesSound)
    {z : Option Color} (goes : Nat → Nat)
    (hslots : ∀ k, u.zones.slots[goes k]? = t.zones.slots[k]?)
    (hi : t.zones.slots[i]? = some l) (hself : (u.zones.zone (goes i)).color = z)
    (hrest : ∀ k, k ≠ i → (u.zones.zone (goes k)).color = (t.zones.zone k).color) (m : Location) :
    u.color? m = if m = l then z else t.color? m := by
  refine h.color?_eq hu (f := fun m => if m = l then z else t.color? m) goes hslots ?_ ?_ m
  · intro k m hk
    rcases eq_or_ne k i with rfl | hki
    · have hml : m = l := Option.some.inj (hk.symm.trans hi)
      rw [if_pos hml, hself]
    · have hml : m ≠ l := by
        rintro rfl
        exact hki (ht.injective hk hi)
      rw [if_neg hml, hrest k hki, color?_of_slot ht hk]
  · intro m hm
    have hml : m ≠ l := by
      rintro rfl
      exact hm (Array.mem_iff_getElem?.2 ⟨i, hi⟩)
    rw [if_neg hml]

/-! ## The moves -/

/-- Exchanging what two slots name. -/
theorem swap_ok (h : t.Indexed) (hi : i < t.zones.capacity) (hj : j < t.zones.capacity) :
    ∃ u, swap i j t = .ok () u ∧ t.Relocated u ∧ u.Indexed ∧ u.zones = t.zones.swap i j := by
  by_cases hij : i = j
  · subst hij
    refine ⟨t, ?_, .refl t, h, (t.zones.swap_self i).symm⟩
    rw [swap, if_pos rfl, pure_apply]
  obtain ⟨a, ha⟩ := Zones.lt_capacity_iff.1 hi
  obtain ⟨b, hb⟩ := Zones.lt_capacity_iff.1 hj
  obtain ⟨fa, hra⟩ := h.records ha
  obtain ⟨fb, hrb⟩ := h.records hb
  have hmaxi := hra.le_maxSlot
  have hmaxj := hrb.le_maxSlot
  obtain ⟨ca, hca, -, -⟩ := hra
  obtain ⟨cb, hcb, -, -⟩ := hrb
  have hab : a ≠ b := by
    rintro rfl
    exact hij (h.injective ha hb)
  -- two slots are exchanged, and then the two cells record it
  have hca' : (t.storage.set b (cb.place i cb.isRoot)).get? a = some ca :=
    (Storage.get?_set_of_ne hab _).trans hca
  have hslots : (t.zones.slots.setIfInBounds i b).setIfInBounds j a =
      t.zones.slots.swapIfInBounds i j := by
    have hi' : i < t.zones.slots.size := hi
    have hj' : j < t.zones.slots.size := hj
    have hgi : t.zones.slots[i] = a := (Array.getElem?_eq_some_iff.1 ha).2
    have hgj : t.zones.slots[j] = b := (Array.getElem?_eq_some_iff.1 hb).2
    rw [Array.swapIfInBounds_def, dif_pos hi', dif_pos hj']
    refine Array.ext_getElem? fun k => ?_
    simp only [Array.getElem?_setIfInBounds, Array.getElem?_swap, Array.size_setIfInBounds, hgi, hgj,
      hi', hj', if_true]
  have hp := Storage.placed_set_set hab hcb hca hmaxi hmaxj cb.isRoot ca.isRoot
  refine ⟨⟨(t.storage.set b (cb.place i cb.isRoot)).set a (ca.place j ca.isRoot), t.zones.swap i j,
    t.roots⟩, ?_, ?_, ?_, rfl⟩
  · rw [swap, if_neg hij, bind_ok (slotAt_ok ha), bind_ok (slotAt_ok hb), bind_ok writeSlot_ok,
      bind_ok writeSlot_ok, bind_ok (renumber_ok hcb hmaxi), renumber_ok hca' hmaxj]
    simp only [hslots, Zones.swap]
  · refine ⟨rfl, hp.shape, hp.contents, hp.flags hcb hca, fun l hl => hp.rest l ?_ ?_,
      t.zones.swap_perm i j⟩
    · rintro rfl
      exact hl (Array.mem_iff_getElem?.2 ⟨j, hb⟩)
    · rintro rfl
      exact hl (Array.mem_iff_getElem?.2 ⟨i, ha⟩)
  · constructor
    · obtain ⟨hgap, hgrey, hwhite, hfree⟩ := h.ordered
      exact ⟨hgap, hgrey, hwhite, by rw [Zones.capacity_swap]; exact hfree⟩
    · intro k l hk
      rcases eq_or_ne k j with rfl | hkj
      · have hka : t.zones.slots[i]? = some l := by
          rw [← Zones.slots_swap hi hj, Equiv.swap_apply_left]
          exact hk
        obtain rfl := Option.some.inj (ha.symm.trans hka)
        exact ⟨_, hp.second⟩
      rcases eq_or_ne k i with rfl | hki
      · have hkb : t.zones.slots[j]? = some l := by
          rw [← Zones.slots_swap hi hj, Equiv.swap_apply_right]
          exact hk
        obtain rfl := Option.some.inj (hb.symm.trans hkb)
        exact ⟨_, hp.first⟩
      · rw [← Equiv.swap_apply_of_ne_of_ne hki hkj, Zones.slots_swap hi hj] at hk
        obtain ⟨f, hf⟩ := h.records hk
        refine ⟨f, hf.congr (hp.rest l ?_ ?_)⟩
        · rintro rfl
          exact hkj (h.injective hk hb)
        · rintro rfl
          exact hki (h.injective hk ha)

theorem extendWhite_eq (hfull : t.zones.isFull = false) :
    extendWhite t = .ok t.zones.whiteTop { t with zones := t.zones.extended } := by
  rw [extendWhite, bind_get, bind_ok (expect_ok (by simp [hfull])), bind_ok (modifyZones_ok _)]
  rfl

/-- The first free slot becomes white, and with it the spare cell that it names. -/
theorem extendWhite_ok (h : t.ZonesSound) (hfull : t.zones.isFull = false) :
    ∃ u l, extendWhite t = .ok t.zones.whiteTop u ∧ u = { t with zones := t.zones.extended } ∧
      t.Relocated u ∧ u.ZonesSound ∧ t.zones.slots[t.zones.whiteTop]? = some l ∧ t.color? l = none ∧
      ∀ m, u.color? m = if m = l then some .white else t.color? m := by
  have hord := h.ordered
  have hox := Zones.ordered_extended hord hfull
  obtain ⟨l, hl⟩ := Zones.lt_capacity_iff.1 (Zones.whiteTop_lt hord hfull)
  have hr := (Relocated.refl t).shift (z := t.zones.extended) rfl
  have hs := hr.sound h (h.indexed.shift (z := t.zones.extended) rfl hox)
  refine ⟨_, l, extendWhite_eq hfull, rfl, hr, hs, hl, ?_, ?_⟩
  · rw [color?_of_slot h hl, (Zones.zone_eq_free hord).2 (Nat.le_refl _), Zone.color]
  · refine hr.color?_update h hs id (fun k => rfl) hl ?_ ?_
    · rw [id, Zones.zone_extended hord hfull, if_pos rfl, Zone.color]
    · intro k hk
      rw [id, Zones.zone_extended hord hfull, if_neg hk]

/-- Shading the cell of a white slot exchanges it with the first white one. -/
theorem shade_relocated (h : t.Indexed) (hz : t.zones.zone i = .white) :
    ∃ u, shade i t = .ok () u ∧ t.Relocated u ∧ u.Indexed ∧ u.zones = t.zones.shaded i := by
  obtain ⟨hgap, hgrey, hwhite, hfree⟩ := h.ordered
  have hi := (Zones.zone_eq_white h.ordered).1 hz
  obtain ⟨v, hv, hr, hs, hvz⟩ := swap_ok h (i := i) (j := t.zones.greyTop) (by omega) (by omega)
  refine ⟨{ v with zones := t.zones.shaded i }, ?_, hr.shift (by rw [hvz]; rfl),
    hs.shift (by rw [hvz]; rfl) (Zones.ordered_shaded h.ordered hz), rfl⟩
  rw [shade, bind_get, bind_ok (expect_ok (by simpa using hz)), bind_ok hv, modifyZones_ok, hvz]
  rfl

/-- The white cell at slot `i` becomes grey. -/
theorem shade_ok (h : t.ZonesSound) (hi : t.zones.slots[i]? = some l)
    (hz : t.zones.zone i = .white) :
    ∃ u, shade i t = .ok () u ∧ t.Relocated u ∧ u.ZonesSound ∧ u.zones = t.zones.shaded i ∧
      ∀ m, u.color? m = if m = l then some .grey else t.color? m := by
  obtain ⟨u, hu, hr, hidx, huz⟩ := shade_relocated h.indexed hz
  have hs := hr.sound h hidx
  refine ⟨u, hu, hr, hs, huz, ?_⟩
  refine hr.color?_update h hs _ (huz ▸ Zones.slots_shaded h.ordered hz) hi ?_ ?_
  · rw [huz, Zones.zone_shaded h.ordered hz, if_pos rfl, Zone.color]
  · intro k hk
    rw [huz, Zones.zone_shaded h.ordered hz, if_neg hk]

/-- Taking out the cell of a live slot closes its zone with one swap, or with two for a grey one. -/
theorem takeOut_relocated (h : t.Indexed) (hz : (t.zones.zone i).color ≠ none) :
    ∃ u, takeOut i t = .ok (t.zones.hole i) u ∧ t.Relocated u ∧ u.Indexed ∧
      u.zones = t.zones.vacated i := by
  have hord := h.ordered
  obtain ⟨hgap, hgrey, hwhite, hfree⟩ := h.ordered
  have hlt : i < t.zones.capacity := by
    have := Zones.lt_whiteTop_of_live hord hz
    omega
  have hov := Zones.ordered_vacated hord i
  cases hzi : t.zones.zone i with
  | black =>
    have := Zones.zone_eq_black.1 hzi
    obtain ⟨v, hv, hr, hs, hvz⟩ := swap_ok h hlt (j := t.zones.blackTop - 1) (by omega)
    have hvac : { v.zones with blackTop := t.zones.blackTop - 1 } = t.zones.vacated i := by
      simp only [hvz, Zones.vacated, hzi]
    refine ⟨{ v with zones := t.zones.vacated i }, ?_, hr.shift ?_, hs.shift ?_ hov, rfl⟩
    · rw [takeOut, bind_get]
      simp only [hzi, Zones.hole, if_true]
      rw [bind_ok (minus_ok (by omega)), bind_ok hv, bind_ok (modifyZones_ok _), hvac]
      rfl
    all_goals rw [← hvac]
  | grey =>
    have := (Zones.zone_eq_grey hord).1 hzi
    obtain ⟨v, hv, hr, hs, hvz⟩ := swap_ok h hlt (j := t.zones.greyTop - 1) (by omega)
    obtain ⟨w, hw, hr', hs', hwz⟩ := swap_ok hs (i := t.zones.greyTop - 1)
      (j := t.zones.whiteTop - 1) (by rw [hr.capacity]; omega) (by rw [hr.capacity]; omega)
    have hvac : { w.zones with greyTop := t.zones.greyTop - 1, whiteTop := t.zones.whiteTop - 1 } =
        t.zones.vacated i := by
      simp only [hwz, hvz, Zones.vacated, hzi]
    refine ⟨{ w with zones := t.zones.vacated i }, ?_, (hr.trans hr').shift ?_, hs'.shift ?_ hov, rfl⟩
    · rw [takeOut, bind_get]
      simp only [hzi, Zones.hole, reduceCtorEq, if_false]
      rw [bind_ok (minus_ok (by omega)), bind_ok hv, bind_ok (minus_ok (by omega)), bind_ok hw,
        bind_ok (modifyZones_ok _), hvac]
      rfl
    all_goals rw [← hvac]
  | white =>
    have := (Zones.zone_eq_white hord).1 hzi
    obtain ⟨v, hv, hr, hs, hvz⟩ := swap_ok h hlt (j := t.zones.whiteTop - 1) (by omega)
    have hvac : { v.zones with whiteTop := t.zones.whiteTop - 1 } = t.zones.vacated i := by
      simp only [hvz, Zones.vacated, hzi]
    refine ⟨{ v with zones := t.zones.vacated i }, ?_, hr.shift ?_, hs.shift ?_ hov, rfl⟩
    · rw [takeOut, bind_get]
      simp only [hzi, Zones.hole, reduceCtorEq, if_false]
      rw [bind_ok (minus_ok (by omega)), bind_ok hv, bind_ok (modifyZones_ok _), hvac]
      rfl
    all_goals rw [← hvac]
  | gap => simp [hzi, Zone.color] at hz
  | free => simp [hzi, Zone.color] at hz

/-- A live cell leaves its zone. It is left in the hole, outside every live zone. -/
theorem takeOut_ok (h : t.ZonesSound) (hi : t.zones.slots[i]? = some l)
    (hz : (t.zones.zone i).color ≠ none) :
    ∃ u, takeOut i t = .ok (t.zones.hole i) u ∧ t.Relocated u ∧ u.ZonesSound ∧
      u.zones = t.zones.vacated i ∧ u.zones.slots[t.zones.hole i]? = some l ∧
      ∀ m, u.color? m = if m = l then none else t.color? m := by
  have hord := h.ordered
  obtain ⟨u, hu, hr, hidx, huz⟩ := takeOut_relocated h.indexed hz
  have hs := hr.sound h hidx
  have hslots : ∀ k, u.zones.slots[t.zones.vacate i k]? = t.zones.slots[k]? := by
    rw [huz]
    exact Zones.slots_vacated hord hz
  refine ⟨u, hu, hr, hs, huz, ?_, ?_⟩
  · rw [← Zones.vacate_self, hslots, hi]
  · refine hr.color?_update h hs _ hslots hi ?_ ?_
    · rw [Zones.vacate_self, huz]
      rcases Zones.zone_hole hord hz with hgap | hfree
      · rw [hgap, Zone.color]
      · rw [(Zones.zone_eq_free (huz ▸ hs.ordered)).2 (Nat.le_of_eq hfree.symm), Zone.color]
    · intro k hk
      rw [huz, Zones.zone_vacated hord hz hk]

/-- A slot for a black cell is the first of the gap. Without a gap the white and the grey zone make
room, each with one swap of its ends. -/
theorem extendBlack_relocated (h : t.Indexed) (hroom : t.zones.canExtendBlack) :
    ∃ u, extendBlack t = .ok t.zones.blackTop u ∧ t.Relocated u ∧ u.Indexed ∧
      u.zones = t.zones.opened := by
  have hord := h.ordered
  obtain ⟨hgap, hgrey, hwhite, hfree⟩ := h.ordered
  have hoo := Zones.ordered_opened hord hroom
  by_cases hg : t.zones.hasGap
  · have hopen : { t.zones with blackTop := t.zones.blackTop + 1 } = t.zones.opened := by
      rw [Zones.opened, if_pos hg]
    refine ⟨{ t with zones := t.zones.opened }, ?_, (Relocated.refl t).shift ?_, h.shift ?_ hoo, rfl⟩
    · rw [extendBlack, bind_get]
      simp only [hg, if_true]
      rw [bind_ok (modifyZones_ok _), hopen]
      rfl
    all_goals rw [← hopen]
  · have hlt := Zones.lt_capacity_of_canExtendBlack hord hroom hg
    have hng := mt Zones.hasGap_iff.2 hg
    -- the first free cell goes before the white ones, and then before the grey ones
    obtain ⟨v, hv, hr, hs, hvz⟩ := swap_ok h (i := t.zones.greyTop) (j := t.zones.whiteTop)
      (by omega) hlt
    obtain ⟨w, hw, hr', hs', hwz⟩ := swap_ok hs (i := t.zones.greyBegin) (j := t.zones.greyTop)
      (by rw [hr.capacity]; omega) (by rw [hr.capacity]; omega)
    have hopen : (⟨w.zones.slots, w.zones.blackTop + 1, w.zones.greyBegin + 1, w.zones.greyTop + 1,
        w.zones.whiteTop + 1⟩ : Zones) = t.zones.opened := by
      rw [Zones.opened, if_neg hg, hwz, hvz]
      rfl
    refine ⟨{ w with zones := t.zones.opened }, ?_, (hr.trans hr').shift ?_, hs'.shift ?_ hoo, rfl⟩
    · rw [extendBlack, bind_get]
      simp only [hg, if_false, Bool.false_eq_true]
      rw [bind_ok (expect_ok (by simp [Zones.isFull]; omega)), bind_ok hv, bind_ok hw,
        bind_ok (modifyZones_ok _), hopen, pure_apply]
      congr 1
      omega
    all_goals rw [← hopen]

/-- The black zone gets one more slot, which still names a spare cell. No live cell changes its
colour. -/
theorem extendBlack_ok (h : t.ZonesSound) (hroom : t.zones.canExtendBlack) :
    ∃ u spare, extendBlack t = .ok t.zones.blackTop u ∧ t.Relocated u ∧ u.ZonesSound ∧
      u.zones = t.zones.opened ∧ u.zones.slots[t.zones.blackTop]? = some spare ∧
      t.color? spare = none ∧
      ∀ m, u.color? m = if m = spare then some .black else t.color? m := by
  have hord := h.ordered
  obtain ⟨hgap, hgrey, hwhite, hfree⟩ := h.ordered
  obtain ⟨u, hu, hr, hidx, huz⟩ := extendBlack_relocated h.indexed hroom
  have hs := hr.sound h hidx
  have hslots : ∀ k, u.zones.slots[t.zones.opening k]? = t.zones.slots[k]? := by
    rw [huz]
    exact Zones.slots_opened hord hroom
  -- the spare cell is the first of the gap, or the first free one
  have hlt := Zones.spareSlot_lt hord hroom
  obtain ⟨spare, hspare⟩ := Zones.lt_capacity_iff.1 hlt
  refine ⟨u, spare, hu, hr, hs, huz, ?_, ?_, ?_⟩
  · rw [← Zones.opening_spareSlot t.zones hord, hslots, hspare]
  · rw [color?_of_slot h hspare, Zones.zone_spareSlot hord]
  · refine hr.color?_update h hs _ hslots hspare ?_ ?_
    · rw [Zones.opening_spareSlot t.zones hord, huz, Zones.zone_eq_black.2, Zone.color]
      rw [Zones.blackTop_opened]
      exact Nat.lt_succ_self _
    · intro k hk
      rw [huz, Zones.zone_opened hord hk]

/-- Blackening exchanges the first grey cell with the first one of the gap. -/
theorem blacken_relocated (h : t.Indexed) (hg : t.zones.hasGrey)
    (hl : t.zones.slots[t.zones.greyBegin]? = some l) :
    ∃ u, blacken t = .ok (some l) u ∧ t.Relocated u ∧ u.Indexed ∧ u.zones = t.zones.blackened := by
  have hob := Zones.ordered_blackened h.ordered hg
  have hslots := Zones.slots_blackened h.ordered hg t.zones.greyBegin
  obtain ⟨hgap, hgrey, hwhite, hfree⟩ := h.ordered
  have hlt := Zones.hasGrey_iff.1 hg
  obtain ⟨v, hv, hr, hs, hvz⟩ := swap_ok h (i := t.zones.blackTop) (j := t.zones.greyBegin)
    (by omega) (by omega)
  have hvl : v.zones.slots[t.zones.blackTop]? = some l := by
    rw [Equiv.swap_apply_right, hl] at hslots
    rw [hvz]
    exact hslots
  refine ⟨{ v with zones := t.zones.blackened }, ?_, hr.shift (by rw [hvz]; rfl),
    hs.shift (by rw [hvz]; rfl) hob, rfl⟩
  rw [blacken, bind_get]
  simp only [hg, Bool.not_true, Bool.false_eq_true, if_false]
  by_cases hgap' : t.zones.hasGap
  · simp only [hgap', if_true]
    rw [bind_ok hv, bind_ok (slotAt_ok hvl), bind_ok (modifyZones_ok _), hvz]
    rfl
  · -- without a gap, the exchange changes nothing
    have heq : t.zones.blackTop = t.zones.greyBegin := by
      have := mt Zones.hasGap_iff.2 hgap'
      omega
    have hvt : v = t := by
      rw [swap, if_pos heq, pure_apply] at hv
      injection hv with _ hv
      exact hv.symm
    subst hvt
    simp only [hgap', Bool.false_eq_true, if_false]
    rw [bind_ok (slotAt_ok hvl), bind_ok (modifyZones_ok _), Zones.blackened, ← hvz]
    rfl

theorem blacken_none (hg : t.zones.hasGrey = false) : blacken t = .ok none t := by
  rw [blacken, bind_get]
  simp [hg]

/-- The first grey cell becomes black, if there is one. -/
theorem blacken_ok (h : t.ZonesSound) :
    (t.zones.hasGrey = false ∧ blacken t = .ok none t) ∨
      ∃ u l, t.zones.hasGrey ∧ blacken t = .ok (some l) u ∧ t.Relocated u ∧ u.ZonesSound ∧
        u.zones = t.zones.blackened ∧ t.zones.slots[t.zones.greyBegin]? = some l ∧
        t.color? l = some .grey ∧
        ∀ m, u.color? m = if m = l then some .black else t.color? m := by
  have hord := h.ordered
  cases hg : t.zones.hasGrey with
  | false => exact .inl ⟨rfl, blacken_none hg⟩
  | true =>
    right
    have hlt := Zones.hasGrey_iff.1 hg
    obtain ⟨l, hl⟩ := Zones.lt_capacity_iff.1 (Zones.greyBegin_lt hord hg)
    obtain ⟨u, hu, hr, hidx, huz⟩ := blacken_relocated h.indexed hg hl
    have hs := hr.sound h hidx
    refine ⟨u, l, rfl, hu, hr, hs, huz, hl, ?_, ?_⟩
    · rw [color?_of_slot h hl, (Zones.zone_eq_grey hord).2 ⟨Nat.le_refl _, hlt⟩, Zone.color]
    · refine hr.color?_update h hs _ (huz ▸ Zones.slots_blackened hord hg) hl ?_ ?_
      · rw [huz, Zones.zone_blackened hord hg, if_pos rfl, Zone.color]
      · intro k hk
        rw [huz, Zones.zone_blackened hord hg, if_neg hk]

/-- The colour of a cell after the turn of a cycle: white cells die, black ones become white. -/
def turnColor : Option Color → Option Color
  | some .black => some .white
  | some .root => some .root
  | _ => none

/-- Reclaiming gives up the white zone, and its cells are not touched. -/
theorem reclaim_relocated (h : t.Indexed) :
    ∃ u, reclaim t = .ok (t.zones.whiteTop - t.zones.greyTop) u ∧ t.Relocated u ∧ u.Indexed ∧
      u = { t with zones := t.zones.reclaimed } := by
  refine ⟨_, ?_, (Relocated.refl t).shift (z := t.zones.reclaimed) rfl,
    h.shift (z := t.zones.reclaimed) rfl (Zones.ordered_reclaimed h.ordered), rfl⟩
  rw [reclaim, bind_get, bind_ok (minus_ok h.ordered.white), bind_ok (modifyZones_ok _), pure_apply]
  rfl

/-- After the white zone was given up, a table without grey cells can start a cycle. -/
theorem whiten_reclaimed (hg : t.zones.hasGrey = false) :
    whiten { t with zones := t.zones.reclaimed } = .ok () { t with zones := t.zones.turned } := by
  have hgrey : t.zones.reclaimed.hasGrey = false := hg
  have hwhite : (t.zones.reclaimed.greyTop == t.zones.reclaimed.whiteTop) = true := beq_self_eq_true _
  rw [whiten, bind_get, bind_ok (expect_ok (by rw [hgrey, hwhite]; rfl)), modifyZones_ok]
  rfl

/-- A cycle ends when no grey cell is left. White joins the free tail, and black becomes white. -/
theorem turn_ok (h : t.ZonesSound) (hg : t.zones.hasGrey = false) :
    ∃ u v, reclaim t = .ok (t.zones.whiteTop - t.zones.greyTop) u ∧ whiten u = .ok () v ∧
      t.Relocated v ∧ v.ZonesSound ∧ v.zones = t.zones.turned ∧
      ∀ m, v.color? m = turnColor (t.color? m) := by
  have hord := h.ordered
  have hot := Zones.ordered_turned hord
  have hng := mt Zones.hasGrey_iff.2 (by simpa using hg)
  have hr := (Relocated.refl t).shift (z := t.zones.turned) rfl
  have hs := hr.sound h (h.indexed.shift (z := t.zones.turned) rfl hot)
  obtain ⟨u, hu, -, -, rfl⟩ := reclaim_relocated h.indexed
  refine ⟨_, { t with zones := t.zones.turned }, hu, whiten_reclaimed hg, hr, hs, rfl, ?_⟩
  refine hr.color?_eq hs (f := fun m => turnColor (t.color? m)) id (fun k => rfl) ?_ ?_
  · intro k m hk
    rw [color?_of_slot h hk, id, Zones.zone_turned]
    cases hzk : t.zones.zone k with
    | grey =>
      -- no slot is grey at the end of a cycle
      have := (Zones.zone_eq_grey hord).1 hzk
      omega
    | black | gap | white | free => rfl
  · intro m hm
    rw [color?_of_not_mem hm]
    cases t.storage.get? m with
    | none => rfl
    | some c => cases hc : c.isRoot <;> simp [hc, turnColor]

/-! ## The cells of a zone -/

/-- The cells of a zone, each once. -/
theorem ZonesSound.zone_cells (h : t.ZonesSound) {a b : Nat} {color : Color} (hb : b ≤ t.zones.capacity)
    (hroot : color ≠ .root)
    (hzone : ∀ k, (t.zones.zone k).color = some color ↔ a ≤ k ∧ k < b) :
    ∃ ls : List Location, ls.Nodup ∧ ls.length = b - a ∧ ∀ l, l ∈ ls ↔ t.color? l = some color := by
  refine ⟨(t.zones.slots.toList.take b).drop a, ?_, ?_, ?_⟩
  · exact (h.indexed.nodup.sublist (List.take_sublist b _)).sublist (List.drop_sublist a _)
  · have hcap : t.zones.slots.toList.length = t.zones.capacity := Array.length_toList
    rw [List.length_drop, List.length_take, hcap]
    omega
  · -- a member of the segment is named by a slot of the zone, and the other way round
    intro l
    rw [List.mem_iff_getElem?]
    constructor
    · rintro ⟨k, hk⟩
      rw [List.getElem?_drop, List.getElem?_take] at hk
      split at hk
      · next hlt =>
        rw [color?_of_slot h (by rw [← Array.getElem?_toList]; exact hk), hzone]
        omega
      · cases hk
    · intro hl
      by_cases hmem : l ∈ t.zones.slots
      · obtain ⟨k, hk⟩ := Array.mem_iff_getElem?.1 hmem
        rw [color?_of_slot h hk, hzone] at hl
        refine ⟨k - a, ?_⟩
        rw [List.getElem?_drop, List.getElem?_take, if_pos (by omega), Array.getElem?_toList,
          show a + (k - a) = k by omega, hk]
      · rw [color?_of_not_mem hmem] at hl
        cases hc : t.storage.get? l with
        | none => simp [hc] at hl
        | some c =>
          simp only [hc, Option.bind_some, Option.ite_none_right_eq_some, Option.some.injEq] at hl
          exact absurd hl.2.symm hroot

end ConsHeap.Tables
