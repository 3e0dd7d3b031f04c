import ConsHeap.Tables.Moves
import Mathlib.Logic.Equiv.Basic

/-!
# The zones of the cons table

What each move does to the slots and boundaries of the cons table, apart from the storage. A move
exchanges slots and shifts boundaries, so for each one it is said where the location of a slot goes
and in which zone it then lies. Only the subject of a move changes its zone.

* `Zones.Ordered`: the boundaries are in order.
* `Zones.extended`, `Zones.shaded`, `Zones.vacated`, `Zones.opened`, `Zones.blackened`, `Zones.turned`: the table after
  a move.
-/

namespace ConsHeap.Zones

variable {z y : Zones} {i j k : Nat} {l : Location}

/-- The boundaries are in order. -/
structure Ordered (z : Zones) : Prop where
  gap : z.blackTop ≤ z.greyBegin
  grey : z.greyBegin ≤ z.greyTop
  white : z.greyTop ≤ z.whiteTop
  free : z.whiteTop ≤ z.capacity

theorem ordered_empty : empty.Ordered := ⟨Nat.le_refl 0, Nat.le_refl 0, Nat.le_refl 0, Nat.le_refl 0⟩

theorem lt_capacity_iff : k < z.capacity ↔ ∃ l, z.slots[k]? = some l := by
  constructor
  · intro h
    exact ⟨_, Array.getElem?_eq_getElem h⟩
  · rintro ⟨l, h⟩
    exact (Array.getElem?_eq_some_iff.1 h).1

theorem lt_capacity (h : z.slots[k]? = some l) : k < z.capacity := lt_capacity_iff.2 ⟨l, h⟩

/-- Slots on the same sides of the boundaries are in the same zone. -/
theorem zone_congr (h1 : k < y.blackTop ↔ i < z.blackTop) (h2 : k < y.greyBegin ↔ i < z.greyBegin)
    (h3 : k < y.greyTop ↔ i < z.greyTop) (h4 : k < y.whiteTop ↔ i < z.whiteTop) :
    y.zone k = z.zone i := by
  simp only [zone, h1, h2, h3, h4]

theorem zone_eq_black : z.zone i = .black ↔ i < z.blackTop := by
  unfold zone
  split_ifs <;> simp_all

theorem zone_eq_gap : z.zone i = .gap ↔ z.blackTop ≤ i ∧ i < z.greyBegin := by
  unfold zone
  split_ifs <;> simp_all

theorem zone_eq_grey (h : z.Ordered) : z.zone i = .grey ↔ z.greyBegin ≤ i ∧ i < z.greyTop := by
  have := h.gap
  unfold zone
  split_ifs <;> simp only [false_iff, true_iff] <;> omega

theorem zone_eq_white (h : z.Ordered) : z.zone i = .white ↔ z.greyTop ≤ i ∧ i < z.whiteTop := by
  have := h.gap
  have := h.grey
  unfold zone
  split_ifs <;> simp only [false_iff, true_iff] <;> omega

theorem zone_eq_free (h : z.Ordered) : z.zone i = .free ↔ z.whiteTop ≤ i := by
  have := h.gap
  have := h.grey
  have := h.white
  unfold zone
  split_ifs <;> simp only [false_iff, true_iff] <;> omega

/-- A slot in a live zone is below the white top. -/
theorem lt_whiteTop_of_live (h : z.Ordered) (hk : (z.zone k).color ≠ none) : k < z.whiteTop := by
  by_contra hge
  rw [(zone_eq_free h).2 (by omega)] at hk
  exact hk rfl

/-- A slot in a live zone names a cell. -/
theorem exists_of_live (h : z.Ordered) (hk : (z.zone k).color ≠ none) : ∃ l, z.slots[k]? = some l :=
  lt_capacity_iff.1 (Nat.lt_of_lt_of_le (lt_whiteTop_of_live h hk) h.free)

/-- Two slots exchanged. -/
def swap (z : Zones) (i j : Nat) : Zones := { z with slots := z.slots.swapIfInBounds i j }

@[simp] theorem capacity_swap (z : Zones) (i j : Nat) : (z.swap i j).capacity = z.capacity :=
  Array.size_swapIfInBounds

theorem swap_self (z : Zones) (i : Nat) : z.swap i i = z := by
  obtain ⟨slots, _, _, _, _⟩ := z
  simp only [swap, mk.injEq, and_self, and_true]
  refine Array.ext_getElem? fun k => ?_
  simp only [Array.swapIfInBounds_def]
  split
  · rw [Array.getElem?_swap]
    split_ifs with hk
    · rw [← hk, Array.getElem?_eq_getElem]
    · rfl
  · rfl

/-- What a slot names after the exchange. -/
theorem slots_swap (hi : i < z.capacity) (hj : j < z.capacity) (k : Nat) :
    (z.swap i j).slots[Equiv.swap i j k]? = z.slots[k]? := by
  have hi' : i < z.slots.size := hi
  have hj' : j < z.slots.size := hj
  simp only [swap, Array.swapIfInBounds_def, dif_pos hi', dif_pos hj', Array.getElem?_swap]
  rcases eq_or_ne k i with rfl | hki
  · simp [hi']
  rcases eq_or_ne k j with rfl | hkj
  · by_cases hik : k = i <;> simp_all
  · rw [Equiv.swap_apply_of_ne_of_ne hki hkj, if_neg hkj.symm, if_neg hki.symm]

theorem swap_perm (z : Zones) (i j : Nat) : (z.swap i j).slots.Perm z.slots := by
  simp only [swap, Array.swapIfInBounds_def]
  split
  · split
    · exact Array.swap_perm _ _
    · exact Array.Perm.refl _
  · exact Array.Perm.refl _

/-! ## Free to white -/

/-- The first free slot becomes white. -/
def extended (z : Zones) : Zones := { z with whiteTop := z.whiteTop + 1 }

theorem whiteTop_lt (h : z.Ordered) (hfull : z.isFull = false) : z.whiteTop < z.capacity := by
  simp only [isFull, beq_eq_false_iff_ne] at hfull
  exact Nat.lt_of_le_of_ne h.free hfull

theorem ordered_extended (h : z.Ordered) (hfull : z.isFull = false) : z.extended.Ordered :=
  ⟨h.gap, h.grey, Nat.le_succ_of_le h.white, whiteTop_lt h hfull⟩

/-- The first free slot becomes white, and any other stays in its zone. -/
theorem zone_extended (h : z.Ordered) (hfull : z.isFull = false) (k : Nat) :
    z.extended.zone k = if k = z.whiteTop then .white else z.zone k := by
  split
  · next hk =>
    rw [zone_eq_white (ordered_extended h hfull), hk]
    exact ⟨h.white, Nat.lt_succ_self _⟩
  · refine zone_congr Iff.rfl Iff.rfl Iff.rfl ?_
    simp only [extended]
    omega

/-! ## White to grey -/

/-- The white slot `i` becomes the last grey one. -/
def shaded (z : Zones) (i : Nat) : Zones := { z.swap i z.greyTop with greyTop := z.greyTop + 1 }

theorem ordered_shaded (h : z.Ordered) (hi : z.zone i = .white) : (z.shaded i).Ordered := by
  obtain ⟨h1, h2⟩ := (zone_eq_white h).1 hi
  have hcap := capacity_swap z i z.greyTop
  obtain ⟨hgap, hgrey, hwhite, hfree⟩ := h
  exact ⟨hgap, by simp only [shaded, swap]; omega, by simp only [shaded, swap]; omega,
    Nat.le_trans hfree (Nat.le_of_eq hcap.symm)⟩

/-- The cell that is shaded becomes grey, and any other stays in its zone. -/
theorem zone_shaded (h : z.Ordered) (hi : z.zone i = .white) (k : Nat) :
    (z.shaded i).zone (Equiv.swap i z.greyTop k) = if k = i then .grey else z.zone k := by
  obtain ⟨h1, h2⟩ := (zone_eq_white h).1 hi
  have hgap := h.gap
  have hgrey := h.grey
  rw [Equiv.swap_apply_def]
  split
  · refine (zone_eq_grey (ordered_shaded h hi)).2 ⟨hgrey, ?_⟩
    simp only [shaded]
    omega
  · split <;> apply zone_congr <;> simp only [shaded, swap] <;> omega

theorem slots_shaded (h : z.Ordered) (hi : z.zone i = .white) (k : Nat) :
    (z.shaded i).slots[Equiv.swap i z.greyTop k]? = z.slots[k]? := by
  have := (zone_eq_white h).1 hi
  have := h.free
  exact slots_swap (by omega) (by omega) k

/-! ## Out of a zone -/

/-- The slot in which a cell is left that is taken out of its zone. -/
def hole (z : Zones) (i : Nat) : Nat := if z.zone i = .black then z.blackTop - 1 else z.whiteTop - 1

/-- The table after the cell at slot `i` was taken out of its zone. -/
def vacated (z : Zones) (i : Nat) : Zones :=
  match z.zone i with
  | .black => { z.swap i (z.blackTop - 1) with blackTop := z.blackTop - 1 }
  | .grey =>
    { (z.swap i (z.greyTop - 1)).swap (z.greyTop - 1) (z.whiteTop - 1) with
      greyTop := z.greyTop - 1, whiteTop := z.whiteTop - 1 }
  | .white => { z.swap i (z.whiteTop - 1) with whiteTop := z.whiteTop - 1 }
  | .gap | .free => z

/-- Where a slot's cell goes when the cell at slot `i` is taken out. -/
def vacate (z : Zones) (i : Nat) : Equiv.Perm Nat :=
  if z.zone i = .grey then
    (Equiv.swap i (z.greyTop - 1)).trans (Equiv.swap (z.greyTop - 1) (z.whiteTop - 1))
  else Equiv.swap i (z.hole i)

theorem ordered_vacated (h : z.Ordered) (i : Nat) : (z.vacated i).Ordered := by
  have hord := h
  obtain ⟨hgap, hgrey, hwhite, hfree⟩ := h
  cases hz : z.zone i with
  | black =>
    have := zone_eq_black.1 hz
    constructor <;> simp only [vacated, hz, swap, capacity, Array.size_swapIfInBounds] at * <;> omega
  | grey =>
    have := (zone_eq_grey hord).1 hz
    constructor <;> simp only [vacated, hz, swap, capacity, Array.size_swapIfInBounds] at * <;> omega
  | white =>
    have := (zone_eq_white hord).1 hz
    constructor <;> simp only [vacated, hz, swap, capacity, Array.size_swapIfInBounds] at * <;> omega
  | gap =>
    simp only [vacated, hz]
    exact hord
  | free =>
    simp only [vacated, hz]
    exact hord

theorem slots_vacated (h : z.Ordered) (hi : (z.zone i).color ≠ none) (k : Nat) :
    (z.vacated i).slots[z.vacate i k]? = z.slots[k]? := by
  have hlt := lt_whiteTop_of_live h hi
  have hfree := h.free
  have hwhite := h.white
  have hgrey := h.grey
  have hgap := h.gap
  cases hz : z.zone i with
  | black =>
    have := zone_eq_black.1 hz
    simp only [vacated, vacate, hole, hz, reduceCtorEq, if_false, if_true]
    exact slots_swap (by omega) (by omega) k
  | grey =>
    have := (zone_eq_grey h).1 hz
    simp only [vacated, vacate, hz, if_true, Equiv.trans_apply]
    rw [slots_swap (by rw [capacity_swap]; omega) (by rw [capacity_swap]; omega)]
    exact slots_swap (by omega) (by omega) k
  | white =>
    have := (zone_eq_white h).1 hz
    simp only [vacated, vacate, hole, hz, reduceCtorEq, if_false]
    exact slots_swap (by omega) (by omega) k
  | gap => simp [hz, Zone.color] at hi
  | free => simp [hz, Zone.color] at hi

/-- The cell that is taken out is left in the hole. -/
theorem vacate_self (z : Zones) (i : Nat) : z.vacate i i = z.hole i := by
  cases hz : z.zone i with
  | grey => simp [vacate, hole, hz]
  | black | white | gap | free => simp [vacate, hz]

/-- The hole is in the gap, or the first free slot. -/
theorem zone_hole (h : z.Ordered) (hi : (z.zone i).color ≠ none) :
    (z.vacated i).zone (z.hole i) = .gap ∨ z.hole i = (z.vacated i).whiteTop := by
  cases hz : z.zone i with
  | black =>
    have := zone_eq_black.1 hz
    have := h.gap
    left
    rw [zone_eq_gap]
    simp only [vacated, hole, hz, if_true, swap]
    omega
  | grey | white =>
    right
    simp [vacated, hole, hz]
  | gap => simp [hz, Zone.color] at hi
  | free => simp [hz, Zone.color] at hi

/-- A cell that is not taken out stays in its zone. -/
theorem zone_vacated (h : z.Ordered) (hi : (z.zone i).color ≠ none) (hk : k ≠ i) :
    (z.vacated i).zone (z.vacate i k) = z.zone k := by
  have hgap := h.gap
  have hgrey := h.grey
  have hwhite := h.white
  cases hz : z.zone i with
  | black =>
    have := zone_eq_black.1 hz
    simp only [vacate, hole, hz, reduceCtorEq, if_false, if_true, Equiv.swap_apply_def, if_neg hk]
    split <;> apply zone_congr <;> simp only [vacated, hz, swap] <;> omega
  | grey =>
    have := (zone_eq_grey h).1 hz
    simp only [vacate, hz, if_true, Equiv.trans_apply, Equiv.swap_apply_def, if_neg hk]
    split_ifs <;> apply zone_congr <;> simp only [vacated, hz, swap] <;> omega
  | white =>
    have := (zone_eq_white h).1 hz
    simp only [vacate, hole, hz, reduceCtorEq, if_false, Equiv.swap_apply_def, if_neg hk]
    split <;> apply zone_congr <;> simp only [vacated, hz, swap] <;> omega
  | gap => simp [hz, Zone.color] at hi
  | free => simp [hz, Zone.color] at hi

/-! ## Room for a black cell -/

/-- The slot of the spare cell that comes into the black zone. -/
def spareSlot (z : Zones) : Nat := if z.hasGap then z.blackTop else z.whiteTop

/-- The table with one more black slot, at the black top. -/
def opened (z : Zones) : Zones :=
  if z.hasGap then { z with blackTop := z.blackTop + 1 }
  else
    { (z.swap z.greyTop z.whiteTop).swap z.greyBegin z.greyTop with
      blackTop := z.blackTop + 1, greyBegin := z.greyBegin + 1, greyTop := z.greyTop + 1,
      whiteTop := z.whiteTop + 1 }

/-- Where a slot's cell goes when a black slot is opened. -/
def opening (z : Zones) : Equiv.Perm Nat :=
  if z.hasGap then Equiv.refl Nat
  else (Equiv.swap z.greyTop z.whiteTop).trans (Equiv.swap z.greyBegin z.greyTop)

/-- Room for a black cell is a gap or a free slot. -/
theorem canExtendBlack_iff : z.canExtendBlack ↔ z.hasGap ∨ z.whiteTop ≠ z.capacity := by
  simp [canExtendBlack, isFull]

theorem hasGap_iff : z.hasGap ↔ z.blackTop < z.greyBegin := by
  simp [hasGap]

theorem lt_capacity_of_canExtendBlack (h : z.Ordered) (hroom : z.canExtendBlack)
    (hgap : ¬ z.hasGap) : z.whiteTop < z.capacity := by
  have := (canExtendBlack_iff.1 hroom).resolve_left hgap
  have := h.free
  omega

theorem ordered_opened (h : z.Ordered) (hroom : z.canExtendBlack) : z.opened.Ordered := by
  have hord := h
  obtain ⟨hgap, hgrey, hwhite, hfree⟩ := h
  by_cases hg : z.hasGap
  · have := hasGap_iff.1 hg
    constructor <;> simp only [opened, hg, if_true, capacity] at * <;> omega
  · have := lt_capacity_of_canExtendBlack hord hroom hg
    constructor <;>
      simp only [opened, hg, if_false, swap, capacity, Array.size_swapIfInBounds, Bool.false_eq_true]
        at * <;> omega

theorem slots_opened (h : z.Ordered) (hroom : z.canExtendBlack) (k : Nat) :
    z.opened.slots[z.opening k]? = z.slots[k]? := by
  by_cases hg : z.hasGap
  · simp [opened, opening, hg]
  · have hlt := lt_capacity_of_canExtendBlack h hroom hg
    have hgrey := h.grey
    have hwhite := h.white
    simp only [opened, opening, hg, if_false, Equiv.trans_apply, Bool.false_eq_true]
    rw [slots_swap (by rw [capacity_swap]; omega) (by rw [capacity_swap]; omega)]
    exact slots_swap (by omega) hlt k

theorem blackTop_opened (z : Zones) : z.opened.blackTop = z.blackTop + 1 := by
  unfold opened
  split <;> rfl

/-- The spare cell comes to the new black slot. -/
theorem opening_spareSlot (z : Zones) (h : z.Ordered) : z.opening z.spareSlot = z.blackTop := by
  by_cases hg : z.hasGap
  · simp [opening, spareSlot, hg]
  · have hgap := h.gap
    have := mt hasGap_iff.2 hg
    simp only [opening, spareSlot, hg, if_false, Equiv.trans_apply, Equiv.swap_apply_right,
      Bool.false_eq_true]
    omega

theorem spareSlot_lt (h : z.Ordered) (hroom : z.canExtendBlack) : z.spareSlot < z.capacity := by
  obtain ⟨hgap, hgrey, hwhite, hfree⟩ := h
  unfold spareSlot
  split
  · next hg =>
    have := hasGap_iff.1 hg
    omega
  · next hg => exact lt_capacity_of_canExtendBlack ⟨hgap, hgrey, hwhite, hfree⟩ hroom hg

/-- Cells other than the spare one stay in their zones. -/
theorem zone_opened (h : z.Ordered) (hk : k ≠ z.spareSlot) :
    z.opened.zone (z.opening k) = z.zone k := by
  have hgap := h.gap
  have hgrey := h.grey
  have hwhite := h.white
  by_cases hg : z.hasGap
  · have := hasGap_iff.1 hg
    simp only [spareSlot, hg, if_true] at hk
    simp only [opening, hg, if_true, Equiv.refl_apply]
    apply zone_congr <;> simp only [opened, hg, if_true]
    omega
  · have := mt hasGap_iff.2 hg
    simp only [spareSlot, hg, if_false, Bool.false_eq_true] at hk
    simp only [opening, hg, if_false, Equiv.trans_apply, Equiv.swap_apply_def, Bool.false_eq_true]
    split_ifs <;> apply zone_congr <;>
      simp only [opened, hg, if_false, swap, Bool.false_eq_true] <;> omega

/-- The spare cell was in the gap or the free tail. -/
theorem zone_spareSlot_cases (h : z.Ordered) :
    z.zone z.spareSlot = .gap ∨ z.zone z.spareSlot = .free := by
  by_cases hg : z.hasGap
  · left
    rw [zone_eq_gap]
    simp only [spareSlot, hg, if_true]
    exact ⟨Nat.le_refl _, hasGap_iff.1 hg⟩
  · right
    rw [zone_eq_free h]
    simp [spareSlot, hg]

theorem zone_spareSlot (h : z.Ordered) : (z.zone z.spareSlot).color = none := by
  rcases zone_spareSlot_cases h with hz | hz <;> rw [hz, Zone.color]

/-! ## Grey to black -/

/-- The first grey slot becomes the last black one. -/
def blackened (z : Zones) : Zones :=
  { z.swap z.blackTop z.greyBegin with
    blackTop := z.blackTop + 1, greyBegin := z.greyBegin + 1 }

theorem hasGrey_iff : z.hasGrey ↔ z.greyBegin < z.greyTop := by
  simp [hasGrey]

theorem ordered_blackened (h : z.Ordered) (hg : z.hasGrey) : z.blackened.Ordered := by
  have := hasGrey_iff.1 hg
  obtain ⟨hgap, hgrey, hwhite, hfree⟩ := h
  constructor <;>
    simp only [blackened, swap, capacity, Array.size_swapIfInBounds] at * <;> omega

theorem greyBegin_lt (h : z.Ordered) (hg : z.hasGrey) : z.greyBegin < z.capacity := by
  have := hasGrey_iff.1 hg
  have := h.white
  have := h.free
  omega

theorem slots_blackened (h : z.Ordered) (hg : z.hasGrey) (k : Nat) :
    z.blackened.slots[Equiv.swap z.blackTop z.greyBegin k]? = z.slots[k]? := by
  have hlt := greyBegin_lt h hg
  have := h.gap
  exact slots_swap (by omega) hlt k

/-- The first grey cell becomes black, and any other stays in its zone. -/
theorem zone_blackened (h : z.Ordered) (hg : z.hasGrey) (k : Nat) :
    z.blackened.zone (Equiv.swap z.blackTop z.greyBegin k) =
      if k = z.greyBegin then .black else z.zone k := by
  have := hasGrey_iff.1 hg
  have hgap := h.gap
  have hwhite := h.white
  rcases eq_or_ne k z.greyBegin with rfl | hk
  · rw [Equiv.swap_apply_right, if_pos rfl, zone_eq_black]
    simp only [blackened]
    omega
  · rw [if_neg hk, Equiv.swap_apply_def, if_neg hk]
    split_ifs <;> apply zone_congr <;> simp only [blackened, swap] <;> omega

/-! ## The end of a cycle -/

/-- White joins the free tail. -/
def reclaimed (z : Zones) : Zones := { z with whiteTop := z.greyTop }

theorem ordered_reclaimed (h : z.Ordered) : z.reclaimed.Ordered :=
  ⟨h.gap, h.grey, Nat.le_refl _, Nat.le_trans h.white h.free⟩

/-- White joins the free tail, and black becomes white. -/
def turned (z : Zones) : Zones :=
  { z with whiteTop := z.blackTop, blackTop := 0, greyBegin := 0, greyTop := 0 }

theorem ordered_turned (h : z.Ordered) : z.turned.Ordered := by
  obtain ⟨hgap, hgrey, hwhite, hfree⟩ := h
  constructor <;> simp only [turned, capacity] at * <;> omega

/-- Black cells are white afterwards, and all others are spare. -/
theorem zone_turned (k : Nat) : z.turned.zone k = if z.zone k = .black then .white else .free := by
  split
  · next hk =>
    have := zone_eq_black.1 hk
    simp [zone, turned, this]
  · next hk =>
    have := mt zone_eq_black.2 hk
    simp [zone, turned, this]

end ConsHeap.Zones
