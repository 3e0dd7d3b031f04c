import ConsHeap.Proofs.Tables.ConsTable

/-!
# What each move relocates

A move in the cons table is up to two exchanges of slots and a shift of the boundaries, and the
second exchange sees what the first has left. Nothing here is about the heap around the table: the
boundaries are in order, every slot names a cell that records its number, and that is all.

* `Tables.InZone`: a cell is named by a slot of a zone.
* `Tables.MovesOnly`: a move of one cell.
* `Tables.extendWhite_moves`, `Tables.shade_moves`, `Tables.takeOut_moves`, `Tables.extendBlack_moves`,
  `Tables.blacken_moves`, `Tables.turn_moves`: the moves one by one.
* `Tables.moves_relocate_their_subject`: **each move of an indexed table succeeds, leaves the table
  indexed, permutes its slots and takes no cell but its subject to another zone; the end of a cycle
  makes the white zone of the black cells and the free tail of all others.**
-/

namespace ConsHeap.Tables

variable {t u : Tables} {i k : Nat} {l m : Location} {z : Zone}

/-- A slot of the zone names the cell. -/
def InZone (t : Tables) (l : Location) (z : Zone) : Prop :=
  ∃ k, t.zones.slots[k]? = some l ∧ t.zones.zone k = z

theorem Indexed.inZone_iff (h : t.Indexed) (hk : t.zones.slots[k]? = some l) :
    t.InZone l z ↔ t.zones.zone k = z := by
  constructor
  · rintro ⟨j, hj, hz⟩
    rwa [h.injective hk hj]
  · intro hz
    exact ⟨k, hk, hz⟩

theorem InZone.mem (h : t.InZone l z) : l ∈ t.zones.slots := by
  obtain ⟨k, hk, -⟩ := h
  exact Array.mem_iff_getElem?.2 ⟨k, hk⟩

/-- The table stays indexed, its slots are permuted, and every cell but `l` stays in its zone. -/
structure MovesOnly (t u : Tables) (l : Location) : Prop where
  indexed : u.Indexed
  slots : u.zones.slots.Perm t.zones.slots
  others : ∀ m, m ≠ l → ∀ z, u.InZone m z ↔ t.InZone m z

/-- The zones of the cells after a move, from where it takes each slot. -/
theorem Relocated.inZone_iff (h : t.Relocated u) (hu : u.Indexed) (goes : Nat → Nat)
    (hslots : ∀ k, u.zones.slots[goes k]? = t.zones.slots[k]?) {P : Nat → Prop}
    (hzones : ∀ k, u.zones.zone (goes k) = z ↔ P k) :
    u.InZone m z ↔ ∃ k, t.zones.slots[k]? = some m ∧ P k := by
  constructor
  · intro hm
    obtain ⟨k, hk⟩ := Array.mem_iff_getElem?.1 ((h.mem_iff m).1 hm.mem)
    have hgoes : u.zones.slots[goes k]? = some m := (hslots k).trans hk
    exact ⟨k, hk, (hzones k).1 ((hu.inZone_iff hgoes).1 hm)⟩
  · rintro ⟨k, hk, hP⟩
    exact ⟨goes k, (hslots k).trans hk, (hzones k).2 hP⟩

/-- A move that takes only the cell at slot `i` to another zone. -/
theorem Relocated.movesOnly (h : t.Relocated u) (ht : t.Indexed) (hu : u.Indexed) (goes : Nat → Nat)
    (hslots : ∀ k, u.zones.slots[goes k]? = t.zones.slots[k]?) (hi : t.zones.slots[i]? = some l)
    (hzones : ∀ k, k ≠ i → u.zones.zone (goes k) = t.zones.zone k) : t.MovesOnly u l := by
  refine ⟨hu, h.slots, ?_⟩
  intro m hm z
  by_cases hmem : m ∈ t.zones.slots
  · obtain ⟨k, hk⟩ := Array.mem_iff_getElem?.1 hmem
    have hki : k ≠ i := by
      rintro rfl
      exact hm (Option.some.inj (hk.symm.trans hi))
    rw [hu.inZone_iff ((hslots k).trans hk), ht.inZone_iff hk, hzones k hki]
  · -- neither table names the cell
    exact ⟨fun hz => absurd ((h.mem_iff m).1 hz.mem) hmem, fun hz => absurd hz.mem hmem⟩

/-! ## The moves -/

/-- A free cell becomes the last white one. -/
theorem extendWhite_moves (h : t.Indexed) (hfull : t.zones.isFull = false) :
    ∃ l p u, t.InZone l .free ∧ extendWhite t = .ok p u ∧ t.MovesOnly u l ∧
      u.zones.whiteTop = p + 1 ∧ u.zones.slots[p]? = some l ∧ u.zones.zone p = .white := by
  have hord := h.ordered
  have hidx := h.shift (z := t.zones.extended) rfl (Zones.ordered_extended hord hfull)
  obtain ⟨l, hl⟩ := Zones.lt_capacity_iff.1 (Zones.whiteTop_lt hord hfull)
  have hr := (Relocated.refl t).shift (z := t.zones.extended) rfl
  have hzone := Zones.zone_extended hord hfull
  refine ⟨l, _, _, ⟨_, hl, (Zones.zone_eq_free hord).2 (Nat.le_refl _)⟩, extendWhite_eq hfull, ?_, rfl,
    hl, ?_⟩
  · refine hr.movesOnly h hidx id (fun k => rfl) hl ?_
    intro k hk
    exact (hzone k).trans (if_neg hk)
  · exact (hzone _).trans (if_pos rfl)

/-- A white cell becomes the last grey one. -/
theorem shade_moves (h : t.Indexed) (hz : t.zones.zone i = .white) :
    ∃ l p u, t.zones.slots[i]? = some l ∧ shade i t = .ok () u ∧ t.MovesOnly u l ∧
      u.zones.greyTop = p + 1 ∧ u.zones.slots[p]? = some l ∧ u.zones.zone p = .grey := by
  have hord := h.ordered
  obtain ⟨l, hl⟩ := Zones.exists_of_live hord (k := i) (by simp [hz, Zone.color])
  obtain ⟨u, hu, hr, hidx, huz⟩ := shade_relocated h hz
  have hslots := Zones.slots_shaded hord hz
  have hzone := Zones.zone_shaded hord hz
  rw [← huz] at hslots hzone
  refine ⟨l, t.zones.greyTop, u, hl, hu, ?_, by rw [huz]; rfl, ?_, ?_⟩
  · refine hr.movesOnly h hidx _ hslots hl ?_
    intro k hk
    exact (hzone k).trans (if_neg hk)
  · have hself := hslots i
    rw [Equiv.swap_apply_left] at hself
    exact hself.trans hl
  · have hself := hzone i
    rw [Equiv.swap_apply_left, if_pos rfl] at hself
    exact hself

/-- A live cell leaves its zone, for a slot of the gap or the first free one. -/
theorem takeOut_moves (h : t.Indexed) (hz : (t.zones.zone i).color ≠ none) :
    ∃ l p u, t.zones.slots[i]? = some l ∧ takeOut i t = .ok p u ∧ t.MovesOnly u l ∧
      u.zones.slots[p]? = some l ∧
      (u.zones.zone p = .gap ∨ p = u.zones.whiteTop ∧ u.zones.zone p = .free) := by
  have hord := h.ordered
  obtain ⟨l, hl⟩ := Zones.exists_of_live hord hz
  obtain ⟨u, hu, hr, hidx, huz⟩ := takeOut_relocated h hz
  have hslots := Zones.slots_vacated hord hz
  have hhole := Zones.zone_hole hord hz
  rw [← huz] at hslots hhole
  refine ⟨l, t.zones.hole i, u, hl, hu, ?_, ?_, ?_⟩
  · refine hr.movesOnly h hidx _ hslots hl ?_
    intro k hk
    rw [huz, Zones.zone_vacated hord hz hk]
  · rw [← Zones.vacate_self, hslots, hl]
  · rcases hhole with hgap | hfree
    · exact .inl hgap
    · exact .inr ⟨hfree, (Zones.zone_eq_free hidx.ordered).2 (Nat.le_of_eq hfree.symm)⟩

/-- A spare cell comes into the last slot of a black zone that is one slot larger. -/
theorem extendBlack_moves (h : t.Indexed) (hroom : t.zones.canExtendBlack) :
    ∃ l p u, (t.InZone l .gap ∨ t.InZone l .free) ∧ extendBlack t = .ok p u ∧ t.MovesOnly u l ∧
      p = t.zones.blackTop ∧ u.zones.blackTop = p + 1 ∧ u.zones.slots[p]? = some l := by
  have hord := h.ordered
  obtain ⟨l, hl⟩ := Zones.lt_capacity_iff.1 (Zones.spareSlot_lt hord hroom)
  obtain ⟨u, hu, hr, hidx, huz⟩ := extendBlack_relocated h hroom
  have hslots := Zones.slots_opened hord hroom
  rw [← huz] at hslots
  refine ⟨l, _, u, ?_, hu, ?_, rfl, by rw [huz, Zones.blackTop_opened], ?_⟩
  · rcases Zones.zone_spareSlot_cases hord with hgap | hfree
    · exact .inl ⟨_, hl, hgap⟩
    · exact .inr ⟨_, hl, hfree⟩
  · refine hr.movesOnly h hidx _ hslots hl ?_
    intro k hk
    rw [huz, Zones.zone_opened hord hk]
  · rw [← Zones.opening_spareSlot t.zones hord, hslots, hl]

/-- The first grey cell becomes the last black one. -/
theorem blacken_moves (h : t.Indexed) (hg : t.zones.hasGrey) :
    ∃ l p u, t.zones.slots[t.zones.greyBegin]? = some l ∧ blacken t = .ok (some l) u ∧
      t.MovesOnly u l ∧ u.zones.blackTop = p + 1 ∧ u.zones.slots[p]? = some l := by
  have hord := h.ordered
  obtain ⟨l, hl⟩ := Zones.lt_capacity_iff.1 (Zones.greyBegin_lt hord hg)
  obtain ⟨u, hu, hr, hidx, huz⟩ := blacken_relocated h hg hl
  have hslots := Zones.slots_blackened hord hg
  rw [← huz] at hslots
  refine ⟨l, t.zones.blackTop, u, hl, hu, ?_, by rw [huz]; rfl, ?_⟩
  · refine hr.movesOnly h hidx _ hslots hl ?_
    intro k hk
    rw [huz, Zones.zone_blackened hord hg, if_neg hk]
  · have hself := hslots t.zones.greyBegin
    rw [Equiv.swap_apply_right] at hself
    exact hself.trans hl

/-- At the end of a cycle the black cells make the white zone, and all others the free tail. -/
theorem turn_moves (h : t.Indexed) (hg : t.zones.hasGrey = false) :
    ∃ u v, reclaim t = .ok (t.zones.whiteTop - t.zones.greyTop) u ∧ u.Indexed ∧
      u.zones.slots.Perm t.zones.slots ∧ whiten u = .ok () v ∧ v.Indexed ∧ v.zones.slots.Perm t.zones.slots ∧
      ∀ l, (v.InZone l .white ↔ t.InZone l .black) ∧
        (v.InZone l .free ↔ ∃ z, z ≠ .black ∧ t.InZone l z) := by
  obtain ⟨u, hu, hru, hidxu, rfl⟩ := reclaim_relocated h
  have hr := (Relocated.refl t).shift (z := t.zones.turned) rfl
  have hidx := h.shift (z := t.zones.turned) rfl (Zones.ordered_turned h.ordered)
  refine ⟨_, _, hu, hidxu, hru.slots, whiten_reclaimed hg, hidx, hr.slots, ?_⟩
  intro l
  constructor
  · refine hr.inZone_iff hidx id (fun k => rfl) fun k => ?_
    rw [id, Zones.zone_turned]
    split <;> simp_all
  · rw [hr.inZone_iff hidx id (fun k => rfl) (P := fun k => t.zones.zone k ≠ .black)]
    · constructor
      · rintro ⟨k, hk, hz⟩
        exact ⟨_, hz, k, hk, rfl⟩
      · rintro ⟨z, hz, k, hk, rfl⟩
        exact ⟨k, hk, hz⟩
    · intro k
      rw [id, Zones.zone_turned]
      split <;> simp_all

/-- **Each move of an indexed table succeeds and takes no cell but its subject to another zone.** It
leaves the table indexed and permutes its slots. The end of a cycle makes the white zone of the black
cells and the free tail of all others. -/
theorem moves_relocate_their_subject (h : t.Indexed) :
    (∀ i, (t.zones.zone i).color ≠ none →
      ∃ l p u, t.zones.slots[i]? = some l ∧ takeOut i t = .ok p u ∧ t.MovesOnly u l ∧
        u.zones.slots[p]? = some l ∧
        (u.zones.zone p = .gap ∨ p = u.zones.whiteTop ∧ u.zones.zone p = .free)) ∧
    (∀ i, t.zones.zone i = .white →
      ∃ l p u, t.zones.slots[i]? = some l ∧ shade i t = .ok () u ∧ t.MovesOnly u l ∧
        u.zones.greyTop = p + 1 ∧ u.zones.slots[p]? = some l ∧ u.zones.zone p = .grey) ∧
    (t.zones.hasGrey →
      ∃ l p u, t.zones.slots[t.zones.greyBegin]? = some l ∧ blacken t = .ok (some l) u ∧
        t.MovesOnly u l ∧ u.zones.blackTop = p + 1 ∧ u.zones.slots[p]? = some l) ∧
    (t.zones.hasGrey = false → blacken t = .ok none t) ∧
    (t.zones.canExtendBlack →
      ∃ l p u, (t.InZone l .gap ∨ t.InZone l .free) ∧ extendBlack t = .ok p u ∧ t.MovesOnly u l ∧
        p = t.zones.blackTop ∧ u.zones.blackTop = p + 1 ∧ u.zones.slots[p]? = some l) ∧
    (t.zones.isFull = false →
      ∃ l p u, t.InZone l .free ∧ extendWhite t = .ok p u ∧ t.MovesOnly u l ∧
        u.zones.whiteTop = p + 1 ∧ u.zones.slots[p]? = some l ∧ u.zones.zone p = .white) ∧
    (t.zones.hasGrey = false →
      ∃ u v, reclaim t = .ok (t.zones.whiteTop - t.zones.greyTop) u ∧ u.Indexed ∧
        u.zones.slots.Perm t.zones.slots ∧ whiten u = .ok () v ∧ v.Indexed ∧ v.zones.slots.Perm t.zones.slots ∧
        ∀ l, (v.InZone l .white ↔ t.InZone l .black) ∧
          (v.InZone l .free ↔ ∃ z, z ≠ .black ∧ t.InZone l z)) := by
  refine ⟨?_, ?_, ?_, ?_, ?_, ?_, ?_⟩
  · intro i hz
    exact takeOut_moves h hz
  · intro i hz
    exact shade_moves h hz
  · exact blacken_moves h
  · exact blacken_none
  · exact extendBlack_moves h
  · exact extendWhite_moves h
  · exact turn_moves h

/-- Five cells with the boundaries in these places. The first cell is marked as a root, as no cell in
the cons table of a heap is. -/
def fiveCells (blackTop greyBegin greyTop whiteTop : Nat) : Tables where
  storage := ⟨#[⟨default, #[(Cell.spare 0).place 0 true, .spare 1, .spare 2, .spare 3, .spare 4]⟩],
    .ofLimit none, 5⟩
  zones := ⟨#[⟨0, 0⟩, ⟨0, 1⟩, ⟨0, 2⟩, ⟨0, 3⟩, ⟨0, 4⟩], blackTop, greyBegin, greyTop, whiteTop⟩
  roots := .empty

theorem indexed_fiveCells {blackTop greyBegin greyTop whiteTop : Nat}
    (h : (fiveCells blackTop greyBegin greyTop whiteTop).zones.Ordered) :
    (fiveCells blackTop greyBegin greyTop whiteTop).Indexed := by
  refine ⟨h, ?_⟩
  intro i l hi
  have hlt : i < 5 := Zones.lt_capacity hi
  match i, hi with
  | 0, hi | 1, hi | 2, hi | 3, hi | 4, hi =>
    obtain rfl := Option.some.inj hi
    exact ⟨_, _, rfl, Placement.slot_ofSlot_of_le (by decide), rfl⟩

/-- With one cell in each zone every move has a subject. Without the grey one, the cycle can end. -/
theorem moves_of_five_cells :
    (∃ p u, takeOut 2 (fiveCells 1 2 3 4) = .ok p u ∧ (fiveCells 1 2 3 4).MovesOnly u ⟨0, 2⟩) ∧
    (∃ u, shade 3 (fiveCells 1 2 3 4) = .ok () u ∧ (fiveCells 1 2 3 4).MovesOnly u ⟨0, 3⟩) ∧
    (∃ u, blacken (fiveCells 1 2 3 4) = .ok (some ⟨0, 2⟩) u ∧
      (fiveCells 1 2 3 4).MovesOnly u ⟨0, 2⟩) ∧
    blacken (fiveCells 1 2 2 4) = .ok none (fiveCells 1 2 2 4) ∧
    (∃ l u, extendBlack (fiveCells 1 1 3 4) = .ok 1 u ∧ (fiveCells 1 1 3 4).MovesOnly u l) ∧
    (∃ l p u, extendWhite (fiveCells 1 2 3 4) = .ok p u ∧ (fiveCells 1 2 3 4).MovesOnly u l) ∧
    ∃ u v, reclaim (fiveCells 1 2 2 4) = .ok 2 u ∧ whiten u = .ok () v ∧ v.InZone ⟨0, 0⟩ .white := by
  have h : (fiveCells 1 2 3 4).Indexed := indexed_fiveCells ⟨by decide, by decide, by decide, by decide⟩
  have hscanned : (fiveCells 1 2 2 4).Indexed :=
    indexed_fiveCells ⟨by decide, by decide, by decide, by decide⟩
  have hclosed : (fiveCells 1 1 3 4).Indexed :=
    indexed_fiveCells ⟨by decide, by decide, by decide, by decide⟩
  obtain ⟨htake, hshade, hblacken, -, -, hextend, -⟩ := moves_relocate_their_subject h
  obtain ⟨-, -, -, hnone, -, -, hturn⟩ := moves_relocate_their_subject hscanned
  obtain ⟨-, -, -, -, hopen, -, -⟩ := moves_relocate_their_subject hclosed
  refine ⟨?_, ?_, ?_, hnone (by decide), ?_, ?_, ?_⟩
  · obtain ⟨l, p, u, hl, hu, hm, -⟩ := htake 2 (by decide)
    obtain rfl := Option.some.inj hl
    exact ⟨p, u, hu, hm⟩
  · obtain ⟨l, p, u, hl, hu, hm, -⟩ := hshade 3 (by decide)
    obtain rfl := Option.some.inj hl
    exact ⟨u, hu, hm⟩
  · obtain ⟨l, p, u, hl, hu, hm, -⟩ := hblacken (by decide)
    obtain rfl := Option.some.inj hl
    exact ⟨u, hu, hm⟩
  · obtain ⟨l, p, u, -, hu, hm, rfl, -⟩ := hopen (by decide)
    exact ⟨l, u, hu, hm⟩
  · obtain ⟨l, p, u, -, hu, hm, -⟩ := hextend (by decide)
    exact ⟨l, p, u, hu, hm⟩
  · obtain ⟨u, v, hu, -, -, hv, -, -, hzones⟩ := hturn (by decide)
    exact ⟨u, v, hu, hv, (hzones ⟨0, 0⟩).1.2 ⟨0, rfl, by decide⟩⟩

end ConsHeap.Tables
