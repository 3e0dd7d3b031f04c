import ConsHeap.Proofs.Tables.Zones

/-!
# Out of the cons table and back

A cell that is taken out of its zone can come back as the last black one. On the way out the last cell
of the zone fills its place, and on the way back, when there is no gap, the first cells of the grey and
of the white zone make room. So cells of one zone may change their order, and cells of different zones
never do.

* `Zones.lt_iff_rank_lt`: slots of different zones are in the order of the zones.
* `Zones.returned`: the slot of every other cell after both moves.
* `Zones.opening_vacate`: **the two moves take it there.**
* `Zones.without`, `Zones.roundTrip`: the table after the first move, and after both.
* `Zones.roundTrip_self`, `Zones.roundTrip_other`: where the cells are then.
-/

namespace ConsHeap

/-! ## The order of the zones -/

/-- The zones in the order in which they lie. -/
def Zone.rank : Zone → Nat
  | black => 0
  | gap => 1
  | grey => 2
  | white => 3
  | free => 4

theorem Zone.rank_injective : Function.Injective Zone.rank := by
  intro y z h
  cases y <;> cases z <;> first | rfl | cases h

namespace Zones

variable {z : Zones} {i j k : Nat} {l : Location}

/-- Zones lie one after the other. -/
theorem rank_le (z : Zones) (h : j ≤ k) : (z.zone j).rank ≤ (z.zone k).rank := by
  unfold zone
  split_ifs <;> first | omega | decide

/-- Slots of different zones are in the order of the zones. -/
theorem lt_iff_rank_lt (hne : z.zone j ≠ z.zone k) : j < k ↔ (z.zone j).rank < (z.zone k).rank := by
  constructor
  · intro h
    exact Nat.lt_of_le_of_ne (z.rank_le (Nat.le_of_lt h)) (Zone.rank_injective.ne hne)
  · intro h
    by_contra hge
    have := z.rank_le (Nat.le_of_not_lt hge)
    omega

/-! ## There and back -/

/-- The table when slot `p` names another cell. -/
def put (z : Zones) (p : Nat) (l : Location) : Zones := { z with slots := z.slots.setIfInBounds p l }

theorem capacity_put (z : Zones) (p : Nat) (l : Location) : (z.put p l).capacity = z.capacity :=
  Array.size_setIfInBounds

theorem ordered_put (h : z.Ordered) (p : Nat) (l : Location) : (z.put p l).Ordered :=
  ⟨h.gap, h.grey, h.white, Nat.le_trans h.free (Nat.le_of_eq (capacity_put z p l).symm)⟩

theorem slots_put_of_ne {p : Nat} (h : k ≠ p) (l : Location) : (z.put p l).slots[k]? = z.slots[k]? :=
  Array.getElem?_setIfInBounds_ne h.symm

theorem slots_put_self {p : Nat} (h : p < z.capacity) (l : Location) : (z.put p l).slots[p]? = some l :=
  Array.getElem?_setIfInBounds_self_of_lt h

/-- The slot in which the cell of slot `k` is when the cell of slot `i` has become a root and is black
again. -/
def returned (z : Zones) (i k : Nat) : Nat :=
  match z.zone i with
  | .black => if k = z.blackTop - 1 then i else k
  | .grey =>
    if z.hasGap then
      if k = z.greyTop - 1 then i else if k = z.whiteTop - 1 then z.greyTop - 1 else k
    else if i = z.greyBegin then k
    else if k = z.greyTop - 1 then i
    else if k = z.greyBegin then z.greyTop - 1
    else k
  | .white =>
    if z.hasGap then
      if k = z.whiteTop - 1 then i else k
    else if z.hasGrey ∧ k = z.greyBegin then z.greyTop
    else if i = z.greyTop then k
    else if k = z.whiteTop - 1 then i
    else if k = z.greyTop then z.whiteTop - 1
    else k
  | .gap | .free => k

/-- A slot at an end of a zone. -/
def IsEnd (z : Zones) (k : Nat) : Prop :=
  k = z.blackTop - 1 ∨ k = z.greyBegin ∨ k = z.greyTop - 1 ∨ k = z.greyTop ∨ k = z.whiteTop - 1

/-- Only a cell at an end of a zone can be moved. -/
theorem returned_eq_or_isEnd (z : Zones) (i k : Nat) : z.returned i k = k ∨ z.IsEnd k := by
  unfold returned IsEnd
  split <;> (try split_ifs) <;> omega

/-- A cell that is grey or white leaves no gap behind, and fills none. -/
theorem hasGap_vacated (hz : z.zone i ≠ .black) : (z.vacated i).hasGap = z.hasGap := by
  unfold vacated
  split <;> first | rfl | exact absurd ‹_› hz

/-- A black cell leaves a gap, in which it comes back. -/
theorem opening_vacate_of_black (h : z.Ordered) (hz : z.zone i = .black) (hne : k ≠ i) :
    (z.vacated i).opening (z.vacate i k) = z.returned i k := by
  have hi := zone_eq_black.1 hz
  have hgap : (z.vacated i).hasGap := by
    rw [hasGap_iff]
    simp only [vacated, hz, swap]
    have := h.gap
    omega
  simp only [opening, hgap, if_true, vacate, hole, hz, reduceCtorEq, if_false, returned, Equiv.refl_apply,
    Equiv.swap_apply_def, if_neg hne]

/-- The last grey cell fills the place of a grey one, and the last white cell becomes the first. Without
a gap the cells then go round in the grey zone. -/
theorem opening_vacate_of_grey (h : z.Ordered) (hz : z.zone i = .grey) (hne : k ≠ i) :
    (z.vacated i).opening (z.vacate i k) = z.returned i k := by
  have hi := (zone_eq_grey h).1 hz
  have hwhite := h.white
  have hgap := hasGap_vacated (z := z) (i := i) (by simp [hz])
  by_cases hg : z.hasGap
  · have hopen : (z.vacated i).opening (z.vacate i k) =
        Equiv.swap (z.greyTop - 1) (z.whiteTop - 1) (Equiv.swap i (z.greyTop - 1) k) := by
      simp only [opening, hgap, hg, if_true, vacate, hz, Equiv.refl_apply, Equiv.trans_apply]
    rw [hopen]
    simp only [returned, hz, hg, if_true]
    by_cases hlast : k = z.greyTop - 1
    · rw [if_pos hlast, hlast, Equiv.swap_apply_right,
        Equiv.swap_apply_of_ne_of_ne (by omega) (by omega)]
    · rw [if_neg hlast, Equiv.swap_apply_of_ne_of_ne hne hlast, Equiv.swap_apply_def, if_neg hlast]
  · -- the last white cell is exchanged twice, and stays
    have hopen : (z.vacated i).opening (z.vacate i k) =
        Equiv.swap z.greyBegin (z.greyTop - 1) (Equiv.swap i (z.greyTop - 1) k) := by
      simp only [opening, hgap, hg, if_false, vacate, hz, if_true, Equiv.trans_apply, Bool.false_eq_true]
      simp only [vacated, hz, swap, Equiv.swap_apply_self]
    rw [hopen]
    simp only [returned, hz, hg, Bool.false_eq_true, if_false]
    by_cases hlast : k = z.greyTop - 1
    · rw [hlast, Equiv.swap_apply_right, if_pos rfl, Equiv.swap_apply_def]
      split_ifs <;> omega
    · rw [Equiv.swap_apply_of_ne_of_ne hne hlast, Equiv.swap_apply_def]
      split_ifs <;> omega

/-- The last white cell fills the place of a white one. Without a gap the first white and the first grey
cell then make room. -/
theorem opening_vacate_of_white (h : z.Ordered) (hz : z.zone i = .white) (hne : k ≠ i)
    (hk : k < z.whiteTop) : (z.vacated i).opening (z.vacate i k) = z.returned i k := by
  have hi := (zone_eq_white h).1 hz
  obtain ⟨h1, h2, h3, h4⟩ := h
  have hgap := hasGap_vacated (z := z) (i := i) (by simp [hz])
  by_cases hg : z.hasGap
  · simp only [opening, hgap, hg, if_true, vacate, hole, hz, reduceCtorEq, if_false, returned,
      Equiv.refl_apply, Equiv.swap_apply_def, if_neg hne]
  have hopen : (z.vacated i).opening (z.vacate i k) = Equiv.swap z.greyBegin z.greyTop
      (Equiv.swap z.greyTop (z.whiteTop - 1) (Equiv.swap i (z.whiteTop - 1) k)) := by
    simp only [opening, hgap, hg, if_false, vacate, hole, hz, reduceCtorEq, Equiv.trans_apply,
      Bool.false_eq_true]
    simp only [vacated, hz, swap]
  rw [hopen]
  simp only [returned, hz, hg, Bool.false_eq_true, if_false, hasGrey_iff]
  by_cases hgrey : k < z.greyTop
  · -- a cell before the white zone is touched by the last exchange only
    rw [Equiv.swap_apply_of_ne_of_ne (a := i) hne (by omega),
      Equiv.swap_apply_of_ne_of_ne (a := z.greyTop) (by omega) (by omega), Equiv.swap_apply_def]
    split_ifs <;> omega
  · have hwhite : Equiv.swap z.greyTop (z.whiteTop - 1) (Equiv.swap i (z.whiteTop - 1) k) =
        if i = z.greyTop then k else if k = z.whiteTop - 1 then i
        else if k = z.greyTop then z.whiteTop - 1 else k := by
      by_cases hfirst : i = z.greyTop
      · rw [if_pos hfirst, hfirst, Equiv.swap_apply_self]
      · rw [if_neg hfirst]
        by_cases hlast : k = z.whiteTop - 1
        · rw [if_pos hlast, hlast, Equiv.swap_apply_right,
            Equiv.swap_apply_of_ne_of_ne hfirst (by omega)]
        · rw [if_neg hlast, Equiv.swap_apply_of_ne_of_ne hne hlast, Equiv.swap_apply_def, if_neg hlast]
    rw [hwhite, Equiv.swap_apply_of_ne_of_ne (by split_ifs <;> omega) (by split_ifs <;> omega)]
    split_ifs <;> omega

/-- **When the cell of slot `i` is taken out and a black slot is opened, the cell of slot `k` goes where
`returned` says.** -/
theorem opening_vacate (h : z.Ordered) (hi : (z.zone i).color ≠ none) (hk : (z.zone k).color ≠ none)
    (hne : k ≠ i) : (z.vacated i).opening (z.vacate i k) = z.returned i k := by
  cases hz : z.zone i with
  | black => exact opening_vacate_of_black h hz hne
  | grey => exact opening_vacate_of_grey h hz hne
  | white => exact opening_vacate_of_white h hz hne (lt_whiteTop_of_live h hk)
  | gap => simp [hz, Zone.color] at hi
  | free => simp [hz, Zone.color] at hi

/-- The table after the cell of slot `i` was taken out for a spare one. -/
def without (z : Zones) (i : Nat) (spare : Location) : Zones := (z.vacated i).put (z.hole i) spare

theorem ordered_without (h : z.Ordered) (i : Nat) (spare : Location) : (z.without i spare).Ordered :=
  ordered_put (ordered_vacated h i) _ _

/-- A cell that was taken out leaves room for a black one. -/
theorem canExtendBlack_without (h : z.Ordered) (hi : (z.zone i).color ≠ none) (spare : Location) :
    (z.without i spare).canExtendBlack := by
  rw [without, canExtendBlack_iff, capacity_put]
  rcases zone_hole h hi with hgap | hfree
  · left
    have hlt : (z.vacated i).blackTop < (z.vacated i).greyBegin := by
      have := zone_eq_gap.1 hgap
      omega
    exact hasGap_iff.2 hlt
  · right
    obtain ⟨m, hm⟩ := exists_of_live h hi
    rw [← slots_vacated h hi, vacate_self, hfree] at hm
    exact Nat.ne_of_lt (lt_capacity hm)

/-- The table after the cell of slot `i`, which is at `l`, was taken out and has come back. -/
def roundTrip (z : Zones) (i : Nat) (spare l : Location) : Zones :=
  (z.without i spare).opened.put (z.without i spare).blackTop l

/-- The cell that comes back is black. -/
theorem roundTrip_self (h : z.Ordered) (hi : (z.zone i).color ≠ none) (spare l : Location) :
    ∃ p, (z.roundTrip i spare l).slots[p]? = some l ∧ (z.roundTrip i spare l).zone p = .black := by
  have hroom := canExtendBlack_without h hi spare
  have hlt : (z.without i spare).blackTop < (z.without i spare).opened.blackTop := by
    rw [blackTop_opened]
    exact Nat.lt_succ_self _
  obtain ⟨hgap, hgrey, hwhite, hfree⟩ := ordered_opened (ordered_without h i spare) hroom
  exact ⟨_, slots_put_self (by omega) l, zone_eq_black.2 hlt⟩

/-- Every other live cell is in the slot that `returned` says, and in its zone. -/
theorem roundTrip_other (h : z.Ordered) (hi : (z.zone i).color ≠ none) (hk : (z.zone k).color ≠ none)
    (hne : k ≠ i) (spare l : Location) :
    (z.roundTrip i spare l).slots[z.returned i k]? = z.slots[k]? ∧
      (z.roundTrip i spare l).zone (z.returned i k) = z.zone k := by
  have hord := ordered_without h i spare
  have hroom := canExtendBlack_without h hi spare
  have hgoes : (z.without i spare).opening (z.vacate i k) = z.returned i k := opening_vacate h hi hk hne
  have hzone : (z.without i spare).zone (z.vacate i k) = z.zone k := zone_vacated h hi hne
  -- it is not in the hole, it is not the spare cell, and so it does not come to the new black slot
  have hhole : z.vacate i k ≠ z.hole i := by
    rw [← vacate_self]
    exact (z.vacate i).injective.ne hne
  have hspare : z.vacate i k ≠ (z.without i spare).spareSlot := by
    intro heq
    rw [← hzone, heq, zone_spareSlot hord] at hk
    exact hk rfl
  have hback : z.returned i k ≠ (z.without i spare).blackTop := by
    rw [← hgoes, ← opening_spareSlot _ hord]
    exact (z.without i spare).opening.injective.ne hspare
  have hslots := slots_opened hord hroom (z.vacate i k)
  have hstays := zone_opened hord hspare
  rw [hgoes] at hslots hstays
  refine ⟨?_, hstays.trans hzone⟩
  calc (z.roundTrip i spare l).slots[z.returned i k]?
      = (z.without i spare).opened.slots[z.returned i k]? := slots_put_of_ne hback l
    _ = (z.without i spare).slots[z.vacate i k]? := hslots
    _ = (z.vacated i).slots[z.vacate i k]? := slots_put_of_ne hhole spare
    _ = z.slots[k]? := slots_vacated h hi k

/-- Live cells of different zones keep their order. -/
theorem returned_lt_iff (h : z.Ordered) (hi : (z.zone i).color ≠ none) (hj : (z.zone j).color ≠ none)
    (hk : (z.zone k).color ≠ none) (hji : j ≠ i) (hki : k ≠ i) (hne : z.zone j ≠ z.zone k) :
    z.returned i j < z.returned i k ↔ j < k := by
  obtain ⟨-, hzj⟩ := roundTrip_other h hi hj hji ⟨0, 0⟩ ⟨0, 0⟩
  obtain ⟨-, hzk⟩ := roundTrip_other h hi hk hki ⟨0, 0⟩ ⟨0, 0⟩
  rw [lt_iff_rank_lt hne, lt_iff_rank_lt (z := z.roundTrip i ⟨0, 0⟩ ⟨0, 0⟩) (by rwa [hzj, hzk]), hzj, hzk]

end Zones

end ConsHeap
