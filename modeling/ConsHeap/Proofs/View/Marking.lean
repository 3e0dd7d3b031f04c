import ConsHeap.Proofs.View.Safe

/-!
# What a collection keeps

* `View.Reach`: the cells that are reached from the roots.
* `View.Safe.black_or_root`: when no cell is grey, all of them are black or roots. So a sweep keeps
  them.
* `View.Marked`: only cells that are reached are grey or black. A sweep brings this about, and
  scanning keeps it. So the second of two collections keeps nothing else.
* `View.Collects.live_iff`, `View.Collects.eq_zero`: the second collection is exact, and all further
  ones find nothing.
-/

namespace ConsHeap.View

variable {v w : View} {l m : Location} {n : Nat} {handle : Handle}

/-- The cells that are reached from the roots. -/
inductive Reach (v : View) : Location → Prop where
  | root {l : Location} : v.color l = some .root → Reach v l
  | step {l m : Location} : Reach v l → m ∈ v.refs l → Reach v m

/-- The cells that are reached are live. -/
theorem Reach.live (hr : v.Reach l) : v.color l ≠ none := by
  cases hr with
  | root hl => simp [hl]
  | step _ hm => exact live_of_mem_refs hm

/-- The same cells are reached where the roots and the references are the same. -/
theorem reach_congr (hroot : ∀ l, w.color l = some .root ↔ v.color l = some .root)
    (hrefs : w.refs = v.refs) : w.Reach l ↔ v.Reach l := by
  constructor
  · intro hr
    induction hr with
    | root hl => exact .root ((hroot _).1 hl)
    | step _ hm ih => exact .step ih (hrefs ▸ hm)
  · intro hr
    induction hr with
    | root hl => exact .root ((hroot _).2 hl)
    | step _ hm ih => exact .step ih (hrefs ▸ hm)

/-- A change of colours among live cells. -/
structure Recolored (v w : View) : Prop where
  id : w.id = v.id
  contents : w.contents = v.contents
  count : w.count = v.count
  live : ∀ l, (w.color l).isSome = (v.color l).isSome
  root : ∀ l, w.color l = some .root ↔ v.color l = some .root

theorem Recolored.refl (v : View) : v.Recolored v := ⟨rfl, rfl, rfl, fun _ => rfl, fun _ => Iff.rfl⟩

theorem Recolored.trans {u : View} (h : u.Recolored v) (h' : v.Recolored w) : u.Recolored w :=
  ⟨h'.id.trans h.id, h'.contents.trans h.contents, h'.count.trans h.count,
    fun l => (h'.live l).trans (h.live l), fun l => (h'.root l).trans (h.root l)⟩

theorem Recolored.resolve (h : v.Recolored w) : w.resolve = v.resolve :=
  resolve_recolor h.id h.contents h.live

theorem Recolored.refs (h : v.Recolored w) : w.refs = v.refs := refs_congr h.contents h.resolve

theorem Recolored.reach (h : v.Recolored w) : w.Reach l ↔ v.Reach l := reach_congr h.root h.refs

theorem Recolored.color_ne_none (h : v.Recolored w) : w.color l ≠ none ↔ v.color l ≠ none := by
  rw [← Option.isSome_iff_ne_none, ← Option.isSome_iff_ne_none, h.live]

theorem recolored_shade (v : View) (S : Set Location) : v.Recolored (v.shade S) := by
  refine ⟨rfl, rfl, rfl, isSome_color_shade v S, fun l => ⟨fun hl => color_of_shade hl (by simp), ?_⟩⟩
  intro hl
  rw [color_shade_of_ne_white (by simp [hl]), hl]

theorem recolored_barrier (v : View) (l : Location) (x : Value) : v.Recolored (v.barrier l x) := by
  rw [barrier]
  split
  · exact recolored_shade v _
  · exact .refl v

theorem recolored_blacken (hl : v.color l = some .grey) : v.Recolored (v.blacken l) := by
  have hpaint : v.Recolored (v.paint l (some .black)) := by
    refine ⟨rfl, rfl, rfl, isSome_color_paint (by simp [hl]) _, fun m => ?_⟩
    simp only [paint, Function.update_apply]
    split
    · next hm => simp [hm, hl]
    · rfl
  exact hpaint.trans (recolored_shade _ _)

theorem Scans.recolored (hs : v.Scans n w) : v.Recolored w := by
  induction hs with
  | done => exact .refl _
  | next hl _ ih => exact (recolored_blacken hl).trans ih

/-! ## Nothing that is reached is lost -/

/-- **When no cell is grey, the cells that are reached are black or roots.** -/
theorem Safe.black_or_root (h : v.Safe) (hend : ∀ l, v.color l ≠ some .grey) (hr : v.Reach l) :
    v.color l = some .black ∨ v.color l = some .root := by
  induction hr with
  | root hl => exact .inr hl
  | step _ hm ih => exact h.color_of_mem_refs hend ih hm

theorem recolored_startCycle (v : View) : v.Recolored v.startCycle := recolored_shade v _

/-- What a sweep keeps is what was black or a root. -/
theorem color_sweep_ne_none : v.sweep.color l ≠ none ↔ v.color l = some .black ∨ v.color l = some .root :=
  (recolored_startCycle v.turn).color_ne_none.trans color_turn_ne_none

theorem resolve_sweep : v.sweep.resolve handle = some l ↔
    v.resolve handle = some l ∧ (v.color l = some .black ∨ v.color l = some .root) := by
  rw [sweep, (recolored_startCycle v.turn).resolve, resolve_turn]

/-- A sweep that finds no grey cell keeps what is reached, and what is reached from it. -/
theorem Safe.reach_sweep (h : v.Safe) (hend : ∀ l, v.color l ≠ some .grey) :
    v.sweep.Reach l ↔ v.Reach l := by
  have hrec := recolored_startCycle v.turn
  have hroot : ∀ {l}, v.sweep.color l = some .root ↔ v.color l = some .root :=
    fun {l} => (hrec.root l).trans color_turn_eq_root
  constructor
  · intro hr
    induction hr with
    | root hl => exact .root (hroot.1 hl)
    | step _ hm ih =>
      obtain ⟨c, hc, handle, hmem, hres⟩ := hm
      exact .step ih ⟨c, hc, handle, hmem, (resolve_sweep.1 hres).1⟩
  · intro hr
    induction hr with
    | root hl => exact .root (hroot.2 hl)
    | @step l m hl hm ih =>
      have hblack := h.color_of_mem_refs hend (h.black_or_root hend hl) hm
      obtain ⟨c, hc, handle, hmem, hres⟩ := hm
      exact .step ih ⟨c, hc, handle, hmem, resolve_sweep.2 ⟨hres, hblack⟩⟩

/-! ## Nothing else is kept twice -/

/-- Only cells that are reached are grey or black. -/
def Marked (v : View) : Prop := ∀ l, v.color l = some .grey ∨ v.color l = some .black → v.Reach l

/-- Scanning marks what is reached only. -/
theorem Marked.blacken (h : v.Marked) (hl : v.color l = some .grey) : (v.blacken l).Marked := by
  intro m hm
  rw [(recolored_blacken hl).reach]
  have hrefs : (v.paint l (some .black)).refs = v.refs := refs_paint (by simp [hl]) _
  have hpaint : (v.paint l (some .black)).color m = some .grey ∨
      (v.paint l (some .black)).color m = some .black → v.Reach m := by
    simp only [paint, Function.update_apply]
    split
    · next hml => exact fun _ => hml ▸ h l (.inl hl)
    · exact h m
  by_cases hw : (v.paint l (some .black)).color m = some .white ∧ m ∈ v.refs l
  · exact .step (h l (.inl hl)) hw.2
  · rw [View.blacken, hrefs, show ((v.paint l (some .black)).shade (v.refs l)).color m =
      (v.paint l (some .black)).color m from if_neg hw] at hm
    exact hpaint hm

theorem Marked.scans (h : v.Marked) (hs : v.Scans n w) : w.Marked := by
  induction hs with
  | done => exact h
  | next hl _ ih => exact ih (h.blacken hl)

/-- A cycle starts with the children of the roots marked. -/
theorem marked_sweep (v : View) : v.sweep.Marked := by
  intro l hl
  rw [sweep, (recolored_startCycle v.turn).reach]
  have hnot : ¬ (v.turn.color l = some .grey ∨ v.turn.color l = some .black) := by
    rw [color_turn]
    cases v.color l with
    | none => simp [Tables.turnColor]
    | some color => cases color <;> simp [Tables.turnColor]
  by_cases hw : v.turn.color l = some .white ∧ l ∈ v.turn.rootRefs
  · obtain ⟨m, hm, hlm⟩ := hw.2
    exact .step (.root hm) hlm
  · rw [sweep, startCycle, show (v.turn.shade v.turn.rootRefs).color l = v.turn.color l from
      if_neg hw] at hl
    exact absurd hl hnot

/-! ## Collections -/

namespace Collects

theorem reach (hc : v.Collects n w) (h : v.Safe) : w.Reach l ↔ v.Reach l := by
  obtain ⟨hscans, hend, -, -⟩ := hc
  exact ((h.scans hscans).reach_sweep hend).trans hscans.recolored.reach

theorem marked (hc : v.Collects n w) : w.Marked := by
  obtain ⟨-, -, -, -⟩ := hc
  exact marked_sweep _

/-- **A collection that starts out marked keeps exactly what is reached.** -/
theorem live_iff (hc : v.Collects n w) (h : v.Safe) (hm : v.Marked) :
    w.color l ≠ none ↔ v.Reach l := by
  obtain ⟨hscans, hend, -, -⟩ := hc
  rw [color_sweep_ne_none, ← hscans.recolored.reach]
  constructor
  · rintro (hl | hl)
    · exact hm.scans hscans l (.inr hl)
    · exact .root hl
  · exact (h.scans hscans).black_or_root hend

/-- A collection that starts out marked finds exactly the live cells that are not reached. -/
theorem exists_dead (hc : v.Collects n w) (h : v.Safe) (hm : v.Marked) :
    ∃ ls : List Location, ls.Nodup ∧ ls.length = n ∧
      ∀ l, l ∈ ls ↔ v.color l ≠ none ∧ ¬ v.Reach l := by
  obtain ⟨hscans, hend, hnodup, hls⟩ := hc
  refine ⟨_, hnodup, rfl, fun l => ?_⟩
  rw [hls, ← hscans.recolored.reach, ← hscans.recolored.color_ne_none]
  constructor
  · intro hl
    refine ⟨by simp [hl], fun hr => ?_⟩
    rcases (h.scans hscans).black_or_root hend hr with hb | hb <;> simp [hl] at hb
  · rintro ⟨hlive, hr⟩
    rename_i u _
    cases hc : u.color l with
    | none => exact absurd hc hlive
    | some color =>
      cases color with
      | white => rfl
      | grey => exact absurd hc (hend l)
      | black => exact absurd (hm.scans hscans l (.inr hc)) hr
      | root => exact absurd (.root hc) hr

/-- A collection finds nothing when all live cells are reached. -/
theorem eq_zero (hc : v.Collects n w) (h : v.Safe) (hm : v.Marked)
    (hlive : ∀ l, v.color l ≠ none → v.Reach l) : n = 0 := by
  obtain ⟨ls, -, rfl, hls⟩ := hc.exists_dead h hm
  rw [List.length_eq_zero_iff, List.eq_nil_iff_forall_not_mem]
  intro l hl
  obtain ⟨hl, hr⟩ := (hls l).1 hl
  exact hr (hlive l hl)

end Collects

end ConsHeap.View
