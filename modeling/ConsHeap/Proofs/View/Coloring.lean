import ConsHeap.Proofs.View.Directory

/-!
# Colourings

The colours of all cells by themselves, and what the changes of a view do to them.

* `Coloring`: the colour of the cell at each location.
* `Coloring.paint`, `Coloring.shade`, `Coloring.turn`: one cell gets a colour, white cells become grey,
  and a cycle ends.
* `Coloring.Gains`: some spare cells become white.
* `Coloring.Marks`: grey cells become black, one after the other.
* `View.Creates.color_eq`, `View.Lists.gains`: new cells are white.
* `View.color_root`, `View.Safe.color_unroot`, `View.Scans.marks`, `View.color_sweep`: the other changes.
-/

namespace ConsHeap

/-- The colour of the cell at each location. Spare cells have none. -/
abbrev Coloring := Location → Option Color

namespace Coloring

variable {c c' : Coloring} {l m : Location} {color other : Color} {S T : Set Location} {n : Nat}

/-- One cell gets a colour. -/
def paint (c : Coloring) (l : Location) (color : Color) : Coloring := Function.update c l (some color)

open Classical in
/-- Every white cell in `S` becomes grey. -/
noncomputable def shade (c : Coloring) (S : Set Location) : Coloring :=
  fun l => if c l = some .white ∧ l ∈ S then some .grey else c l

/-- White cells die, and black ones become white. -/
def turn (c : Coloring) : Coloring := fun l => Tables.turnColor (c l)

/-- Just `n` spare cells become white. -/
def Gains (c : Coloring) (n : Nat) (c' : Coloring) : Prop :=
  ∃ new : List Location, new.Nodup ∧ new.length = n ∧ (∀ l ∈ new, c l = none) ∧
    ∀ l, c' l = if l ∈ new then some .white else c l

/-- One grey cell after another becomes black, `n` in all, and each time the white cells to which it
refers become grey. -/
inductive Marks (refs : Location → Set Location) : Nat → Coloring → Coloring → Prop where
  | done (c : Coloring) : Marks refs 0 c c
  | next {n : Nat} {c c' : Coloring} {l : Location} :
    c l = some .grey → Marks refs n ((c.paint l .black).shade (refs l)) c' → Marks refs (n + 1) c c'

@[simp] theorem paint_self (c : Coloring) (l : Location) (color : Color) :
    c.paint l color l = some color := Function.update_self ..

@[simp] theorem paint_of_ne (hm : m ≠ l) (c : Coloring) (color : Color) : c.paint l color m = c m :=
  Function.update_of_ne hm ..

/-- Cells are shaded by whether they are in the set, where they are white. -/
theorem shade_congr (h : ∀ l, c l = some .white → (l ∈ S ↔ l ∈ T)) : c.shade S = c.shade T := by
  classical
  funext l
  exact if_congr (and_congr_right fun hw => h l hw) rfl rfl

/-- A cell that is painted is not shaded when its colour is not white. -/
theorem shade_paint (hcolor : color ≠ .white) : (c.paint l color).shade S = (c.shade S).paint l color := by
  funext m
  by_cases hm : m = l
  · rw [hm, paint_self, shade, if_neg (by simp [hcolor]), paint_self]
  · rw [paint_of_ne hm, shade, paint_of_ne hm, shade]

/-- The colour that a cell had before it was painted does not matter. -/
theorem paint_shade_paint (c : Coloring) (l : Location) (other color : Color) (S : Set Location) :
    ((c.paint l other).shade S).paint l color = (c.shade S).paint l color := by
  funext m
  by_cases hm : m = l
  · rw [hm, paint_self, paint_self]
  · rw [paint_of_ne hm, paint_of_ne hm, shade, paint_of_ne hm, shade]

theorem Gains.zero (c : Coloring) : c.Gains 0 c :=
  ⟨[], List.nodup_nil, rfl, fun _ hl => absurd hl List.not_mem_nil,
    fun _ => (if_neg List.not_mem_nil).symm⟩

/-- Nothing is gained only if no colour changes. -/
theorem Gains.eq_zero (h : c.Gains n c) : n = 0 := by
  obtain ⟨new, -, rfl, hspare, hnew⟩ := h
  rw [List.length_eq_zero_iff, List.eq_nil_iff_forall_not_mem]
  intro l hl
  have hl' := hnew l
  rw [hspare l hl, if_pos hl] at hl'
  cases hl'

/-- One more spare cell becomes white. -/
theorem Gains.succ (h : c.Gains n c') (hl : c' l = none) : c.Gains (n + 1) (c'.paint l .white) := by
  obtain ⟨new, hnodup, rfl, hspare, hnew⟩ := h
  have hnot : l ∉ new := by
    intro hmem
    rw [hnew l, if_pos hmem] at hl
    cases hl
  have hbefore : c l = none := by
    rwa [hnew l, if_neg hnot] at hl
  refine ⟨l :: new, List.nodup_cons.2 ⟨hnot, hnodup⟩, rfl, ?_, ?_⟩
  · intro m hm
    rcases List.mem_cons.1 hm with rfl | hm
    · exact hbefore
    · exact hspare m hm
  · intro m
    by_cases hm : m = l
    · simp [hm]
    · simp [hm, hnew m]

end Coloring

namespace View

variable {v w g : View} {l m : Location} {handle : Handle} {n : Nat}

/-! ## New cells -/

section Creates

variable {tag : Tag} {car cdr : Value}

/-- A new cell is white. -/
theorem Creates.color_eq (hc : v.Creates tag car cdr handle w) :
    v.color handle.location = none ∧ w.color = Coloring.paint v.color handle.location .white := by
  obtain ⟨hg, hdead, -⟩ := hc
  rw [← hg.color]
  exact ⟨hdead, rfl⟩

/-- A new cell refers to what its values refer to. -/
theorem Creates.refs_new (hc : v.Creates tag car cdr handle w) (hcar : v.Accepts car)
    (hcdr : v.Accepts cdr) : w.refs handle.location = v.named (car.handles ++ cdr.handles) := by
  obtain ⟨-, c, hcell, rfl, rfl⟩ := hc.resolve_new
  rw [refs_eq hcell]
  ext m
  constructor
  · rintro ⟨other, hmem, hres⟩
    -- a handle in the values resolved before, and keeps what it stood for
    have hsome : (v.resolve other).isSome := by
      rcases List.mem_append.1 hmem with hmem | hmem
      · exact hcar other hmem
      · exact hcdr other hmem
    obtain ⟨k, hk⟩ := Option.isSome_iff_exists.1 hsome
    obtain rfl := Option.some.inj ((hc.resolve hk).symm.trans hres)
    exact ⟨other, hmem, hk⟩
  · rintro ⟨other, hmem, hres⟩
    exact ⟨other, hmem, hc.resolve hres⟩

end Creates

/-- The new cells of a list are white. -/
theorem Lists.gains {items : List Value} {x : Value} (hl : v.Lists items x w) :
    Coloring.Gains v.color items.length w.color := by
  induction hl with
  | nil => exact .zero _
  | cons _ _ _ hc ih =>
    obtain ⟨hspare, hcolor⟩ := hc.color_eq
    rw [hcolor]
    exact ih.succ hspare

/-! ## Roots -/

/-- A cell that becomes a root is one, and the other white cells to which it refers become grey. -/
theorem color_root (hl : v.color l ≠ none) :
    (v.root l).color = (Coloring.shade v.color (v.refs l)).paint l .root := by
  have hrefs : (v.pin l).refs = v.refs := refs_paint hl .root
  calc (v.root l).color = Coloring.shade (Coloring.paint v.color l .root) ((v.pin l).refs l) := rfl
    _ = (Coloring.shade v.color (v.refs l)).paint l .root := by
      rw [hrefs, Coloring.shade_paint (by decide)]

/-- Handles in live cells stand for the same cells after a growth. -/
theorem Safe.refs_grows (h : v.Safe) (hg : v.Grows g) (hl : v.color l ≠ none) : g.refs l = v.refs l :=
  h.refs_of_kept hl (h.contents_of_grows hg hl) hg.resolve

/-- A root that becomes black refers to no white cell, so nothing else changes. -/
theorem Safe.color_unroot (h : v.Safe) (hl : v.color l = some .root) :
    (v.unroot l).color = Coloring.paint v.color l .black := by
  have hlive : v.color l ≠ none := by simp [hl]
  have hrefs : (v.release l).refs = v.refs := refs_paint hlive .black
  rw [View.unroot, hrefs, shade_eq_self]
  · rfl
  · intro m hm
    show Coloring.paint v.color l .black m ≠ some .white
    by_cases hml : m = l
    · simp [hml]
    · rw [Coloring.paint_of_ne hml]
      exact h.guarded (.inr hl) m hm

/-! ## Cycles -/

/-- Scanning marks. -/
theorem Scans.marks (hs : v.Scans n w) : Coloring.Marks v.refs n v.color w.color := by
  induction hs with
  | done v => exact .done v.color
  | @next n v w l hl _ ih =>
    have hrefs : (v.paint l (some .black)).refs = v.refs := refs_paint (by simp [hl]) .black
    have hcolor : (v.blacken l).color = (Coloring.paint v.color l .black).shade (v.refs l) := by
      rw [blacken, hrefs]
      rfl
    rw [(recolored_blacken hl).refs, hcolor] at ih
    exact .next hl ih

/-- Nothing is shaded at the start of a cycle, as roots do not refer to white cells. -/
theorem Safe.startCycle_eq (h : v.Safe) : v.startCycle = v := by
  refine shade_eq_self ?_
  rintro m ⟨l, hl, hm⟩
  exact h.guarded (.inr hl) m hm

/-- White cells die, and black ones become white, or grey where a root refers to them. -/
theorem color_sweep (v : View) : v.sweep.color = (Coloring.turn v.color).shade v.rootRefs := by
  refine Coloring.shade_congr (c := Coloring.turn v.color) fun m hm => ?_
  have hblack : v.color m = some .black := by
    rw [Coloring.turn] at hm
    cases hc : v.color m with
    | none => rw [hc] at hm; cases hm
    | some color => rw [hc] at hm; cases color <;> simp_all [Tables.turnColor]
  -- the turn keeps the roots, and the handles of black cells
  constructor
  · rintro ⟨l, hl, c, hc, handle, hmem, hres⟩
    exact ⟨l, color_turn_eq_root.1 hl, c, hc, handle, hmem, (resolve_turn.1 hres).1⟩
  · rintro ⟨l, hl, c, hc, handle, hmem, hres⟩
    exact ⟨l, color_turn_eq_root.2 hl, c, hc, handle, hmem, resolve_turn.2 ⟨hres, .inl hblack⟩⟩

end View

end ConsHeap
