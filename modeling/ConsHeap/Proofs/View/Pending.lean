import ConsHeap.Proofs.View.Holders
import ConsHeap.Proofs.View.Marking
import Mathlib.Data.Set.Card

/-!
# What is left to scan

A grey cell is left to scan, and so is every white cell that will be grey in time: one to which a cell
refers that is left to scan itself. Scanning a cell takes this cell off, and no other, whatever it is that
it shades. So the cells that are left are a measure for the scan, although the grey cells alone are not.

* `View.Pends`: the cells that are left to scan.
* `View.pends_blacken`: **one step takes off the cell that becomes black.**
* `View.Scans.ncard_pends`: a number of steps takes off as many cells.
* `View.Scans.pends_or_black`, `View.Scans.color_of_not_pends`: these become black, and no others change.
* `View.Safe.pends_iff`: no way from a grey cell to a white one leads around them.
-/

namespace ConsHeap.View

variable {v w : View} {l m : Location} {n : Nat}

/-- The cells that are left to scan: the grey ones, and in turn the white ones to which they refer. -/
inductive Pends (v : View) : Location → Prop where
  | grey {l : Location} : v.color l = some .grey → Pends v l
  | white {l m : Location} : Pends v l → m ∈ v.refs l → v.color m = some .white → Pends v m

/-- They are grey or white. -/
theorem Pends.color (h : v.Pends l) : v.color l = some .grey ∨ v.color l = some .white := by
  cases h with
  | grey hl => exact .inl hl
  | white _ _ hl => exact .inr hl

/-- Nothing is left when no cell is grey. -/
theorem not_pends (hend : ∀ l, v.color l ≠ some .grey) (l : Location) : ¬ v.Pends l := by
  intro h
  induction h with
  | grey hl => exact hend _ hl
  | white _ _ _ ih => exact ih

/-! ## One step -/

/-- A white cell to which the cell refers becomes grey. -/
theorem color_blacken_of_mem (hl : v.color l = some .grey) (hm : m ∈ v.refs l)
    (hw : v.color m = some .white) : (v.blacken l).color m = some .grey := by
  have hne : m ≠ l := by
    rintro rfl
    simp [hl] at hw
  refine color_shade_of_mem ?_ ?_
  · exact (Function.update_of_ne hne _ _).trans hw
  · rwa [refs_paint (by simp [hl])]

/-- Any other cell stays as it is. -/
theorem color_blacken_of_ne (hl : v.color l = some .grey) (hne : m ≠ l)
    (hm : m ∈ v.refs l → v.color m ≠ some .white) : (v.blacken l).color m = v.color m := by
  have hpaint : (v.paint l (some .black)).color m = v.color m := Function.update_of_ne hne _ _
  rw [blacken, refs_paint (by simp [hl])]
  by_cases hmem : m ∈ v.refs l
  · rw [color_shade_of_ne_white (by rw [hpaint]; exact hm hmem), hpaint]
  · rw [color_shade_of_not_mem hmem, hpaint]

/-- No cell becomes white. -/
theorem color_of_blacken_white (hl : v.color l = some .grey) (hm : (v.blacken l).color m = some .white) :
    m ≠ l ∧ v.color m = some .white ∧ m ∉ v.refs l := by
  have hne : m ≠ l := by
    rintro rfl
    rw [color_blacken_self] at hm
    cases hm
  by_cases hw : m ∈ v.refs l ∧ v.color m = some .white
  · rw [color_blacken_of_mem hl hw.1 hw.2] at hm
    cases hm
  · rw [not_and] at hw
    rw [color_blacken_of_ne hl hne hw] at hm
    exact ⟨hne, hm, fun hmem => hw hmem hm⟩

/-- **When a grey cell becomes black, it is no longer left to scan, and all others still are.** -/
theorem pends_blacken (hl : v.color l = some .grey) : (v.blacken l).Pends m ↔ v.Pends m ∧ m ≠ l := by
  have hrefs : (v.blacken l).refs = v.refs := (recolored_blacken hl).refs
  constructor
  · intro h
    induction h with
    | @grey m hm =>
      have hne : m ≠ l := by
        rintro rfl
        rw [color_blacken_self] at hm
        cases hm
      refine ⟨?_, hne⟩
      -- it was grey before, or the cell has shaded it
      by_cases hw : m ∈ v.refs l ∧ v.color m = some .white
      · exact .white (.grey hl) hw.1 hw.2
      · rw [color_blacken_of_ne hl hne (not_and.1 hw)] at hm
        exact .grey hm
    | white _ hmem hm ih =>
      obtain ⟨hne, hw, -⟩ := color_of_blacken_white hl hm
      rw [hrefs] at hmem
      exact ⟨.white ih.1 hmem hw, hne⟩
  · rintro ⟨h, hne⟩
    induction h with
    | @grey m hm => exact .grey (by rw [color_blacken_of_ne hl hne (by simp [hm]), hm])
    | @white k m hk hmem hw ih =>
      by_cases hml : m ∈ v.refs l
      · exact .grey (color_blacken_of_mem hl hml hw)
      · -- another cell than `l` refers to it, and that is left to scan as well
        have hkl : k ≠ l := by
          rintro rfl
          exact hml hmem
        refine .white (ih hkl) (by rwa [hrefs]) ?_
        rw [color_blacken_of_ne hl hne fun h => absurd h hml, hw]

/-! ## A whole scan -/

namespace Scans

/-- Every step takes one cell off what is left. -/
theorem ncard_pends (hs : v.Scans n w) : n + {l | w.Pends l}.ncard = {l | v.Pends l}.ncard := by
  induction hs with
  | done v => exact Nat.zero_add _
  | @next n v w l hl _ ih =>
    have hset : {m | (v.blacken l).Pends m} = {m | v.Pends m} \ {l} := by
      ext m
      exact pends_blacken hl
    have hone := Set.ncard_sdiff_singleton_add_one (show l ∈ {m | v.Pends m} from .grey hl) (Set.toFinite _)
    rw [hset] at ih
    omega

/-- What was left to scan is left still, or is black. -/
theorem pends_or_black (hs : v.Scans n w) (hm : v.Pends m) : w.Pends m ∨ w.color m = some .black := by
  induction hs with
  | done => exact .inl hm
  | @next n v w l hl hrest ih =>
    by_cases hml : m = l
    · subst hml
      exact .inr (hrest.color_of_black (color_blacken_self v m))
    · exact ih ((pends_blacken hl).2 ⟨hm, hml⟩)

/-- What was not left to scan stays as it is. -/
theorem color_of_not_pends (hs : v.Scans n w) (hm : ¬ v.Pends m) : w.color m = v.color m := by
  induction hs with
  | done => rfl
  | @next n v w l hl _ ih =>
    have hne : m ≠ l := by
      rintro rfl
      exact hm (.grey hl)
    rw [ih fun h => hm ((pends_blacken hl).1 h).1,
      color_blacken_of_ne hl hne fun hmem hw => hm (.white (.grey hl) hmem hw)]

/-- After a scan that leaves no grey cell, the black cells are the former ones and those that were left. -/
theorem color_eq_black_iff (hs : v.Scans n w) (hend : ∀ l, w.color l ≠ some .grey) :
    w.color m = some .black ↔ v.color m = some .black ∨ v.Pends m := by
  constructor
  · intro hm
    by_cases hp : v.Pends m
    · exact .inr hp
    · rw [hs.color_of_not_pends hp] at hm
      exact .inl hm
  · rintro (hm | hp)
    · exact hs.color_of_black hm
    · exact (hs.pends_or_black hp).resolve_left (not_pends hend m)

/-- The white cells are those that were not left to scan. -/
theorem color_eq_white_iff (hs : v.Scans n w) (hend : ∀ l, w.color l ≠ some .grey) :
    w.color m = some .white ↔ v.color m = some .white ∧ ¬ v.Pends m := by
  by_cases hp : v.Pends m
  · have hblack := (hs.pends_or_black hp).resolve_left (not_pends hend m)
    simp [hblack, hp]
  · rw [hs.color_of_not_pends hp, and_iff_left hp]

end Scans

/-! ## The way there -/

/-- The last cell before a white one is neither black nor a root, so that every way from a grey cell to a
grey or white one ends with cells that are left to scan. -/
theorem Safe.pends_of_way (h : v.Safe) (hl : v.color l = some .grey)
    (hway : Relation.ReflTransGen (fun a b => b ∈ v.refs a) l m) :
    v.color m ≠ none ∧ (v.color m = some .white → v.Pends m) := by
  induction hway with
  | refl => exact ⟨by simp [hl], by simp [hl]⟩
  | @tail k m _ hmem ih =>
    refine ⟨live_of_mem_refs hmem, fun hw => ?_⟩
    cases hk : v.color k with
    | none => exact absurd hk ih.1
    | some color =>
      cases color with
      | black => exact absurd hw (h.guarded (.inl hk) m hmem)
      | root => exact absurd hw (h.guarded (.inr hk) m hmem)
      | grey => exact .white (.grey hk) hmem hw
      | white => exact .white (ih.2 hk) hmem hw

/-- **A cell is left to scan just when it is grey, or it is white and references lead to it from a grey
cell, by whatever way.** -/
theorem Safe.pends_iff (h : v.Safe) : v.Pends m ↔ v.color m = some .grey ∨ v.color m = some .white ∧
    ∃ l, v.color l = some .grey ∧ Relation.ReflTransGen (fun a b => b ∈ v.refs a) l m := by
  constructor
  · intro hp
    induction hp with
    | grey hm => exact .inl hm
    | @white k m _ hmem hw ih =>
      refine .inr ⟨hw, ?_⟩
      rcases ih with hk | ⟨-, l, hl, hway⟩
      · exact ⟨k, hk, .single hmem⟩
      · exact ⟨l, hl, hway.tail hmem⟩
  · rintro (hm | ⟨hw, l, hl, hway⟩)
    · exact .grey hm
    · exact (h.pends_of_way hl hway).2 hw

end ConsHeap.View
