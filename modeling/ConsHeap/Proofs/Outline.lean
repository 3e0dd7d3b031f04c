import ConsHeap.Proofs.Heap.Rooting

/-!
# What moves leave alone

Most moves neither add nor take away slots, entries or pages. That holds of them in any state, also when
they fail, so it needs no invariant: it is read off the steps that they are made of.

* `Keeps`: an action leaves a part of the state alone. One lemma for each way to put actions together.
* `Tables.Outline`: the sizes of both tables and of the pages, and the budget.
* `Tables.keeps_swap`, ...: the moves in the tables.
* `Heap.keeps_shadeContents`, `Heap.keeps_toRoots`, `Heap.keeps_retire`, `Heap.keeps_sweep`, ...: what is
  made of them, but for the room for new cells.
-/

namespace ConsHeap

variable {ε σ α β γ δ : Type}

/-- The action leaves a part of the state alone, also when it fails. -/
def Keeps (part : σ → γ) (act : EStateM ε σ α) : Prop := ∀ s, part (Outcome.state (act s)) = part s

namespace Keeps

variable {part : σ → γ}

theorem pure (a : α) : Keeps part (Pure.pure a : EStateM ε σ α) := fun _ => rfl

theorem get : Keeps part (MonadState.get : EStateM ε σ σ) := fun _ => rfl

theorem throw (e : ε) : Keeps part (MonadExcept.throw e : EStateM ε σ α) := fun _ => rfl

theorem change {f : σ → σ} (h : ∀ s, part (f s) = part s) :
    Keeps part (modify f : EStateM ε σ PUnit) := h

/-- What is left alone is so in all that depends on it. -/
theorem comp {x : EStateM ε σ α} (h : Keeps part x) (f : γ → δ) : Keeps (fun s => f (part s)) x :=
  fun s => congrArg f (h s)

/-- What follows a first step leaves alone what that step made. -/
theorem state_bind {x : EStateM ε σ α} {f : α → EStateM ε σ β} (hf : ∀ a, Keeps part (f a)) (s : σ) :
    part (Outcome.state ((x >>= f) s)) = part (Outcome.state (x s)) := by
  cases h : x s with
  | ok a t =>
    rw [bind_ok h]
    exact hf a t
  | error e t =>
    rw [bind_error h]
    rfl

theorem bind {x : EStateM ε σ α} {f : α → EStateM ε σ β} (hx : Keeps part x) (hf : ∀ a, Keeps part (f a)) :
    Keeps part (x >>= f) := fun s => (state_bind hf s).trans (hx s)

theorem map {x : EStateM ε σ α} (hx : Keeps part x) (f : α → β) : Keeps part (f <$> x) := by
  intro s
  rw [Outcome.state_map]
  exact hx s

theorem seq {f : EStateM ε σ (α → β)} {x : EStateM ε σ α} (hf : Keeps part f) (hx : Keeps part x) :
    Keeps part (f <*> x) := by
  rw [seq_eq_bind_map]
  exact hf.bind fun _ => hx.map _

theorem ite {c : Prop} [Decidable c] {x y : EStateM ε σ α} (hx : Keeps part x) (hy : Keeps part y) :
    Keeps part (if c then x else y) := by
  split
  · exact hx
  · exact hy

/-- A loop leaves alone what its body does. -/
theorem forM {f : β → EStateM ε σ PUnit} (hf : ∀ b, Keeps part (f b)) (bs : List β) :
    Keeps part (bs.forM f) := by
  induction bs with
  | nil => exact .pure _
  | cons b bs ih =>
    rw [List.forM_eq_forM, List.forM_cons]
    exact (hf b).bind fun _ => ih

theorem mapM {f : β → EStateM ε σ α} (hf : ∀ b, Keeps part (f b)) (bs : List β) : Keeps part (bs.mapM f) := by
  induction bs with
  | nil => exact .pure _
  | cons b bs ih =>
    rw [List.mapM_cons]
    exact (hf b).bind fun _ => ih.bind fun _ => .pure _

end Keeps

section Promises

variable {part : σ → γ}

theorem keeps_fault (f : Fault) : Keeps part (fault f : EStateM (Failure ε) σ α) := .throw _

theorem keeps_expect (b : Bool) (c : Condition) : Keeps part (expect b c : EStateM (Failure ε) σ Unit) :=
  .ite (.pure _) (keeps_fault _)

theorem keeps_minus (m n : Nat) : Keeps part (minus m n : EStateM (Failure ε) σ Nat) :=
  .ite (.pure _) (keeps_fault _)

theorem keeps_answer (x : Except ε α) : Keeps part (answer x : EStateM (Failure ε) σ α) := by
  cases x with
  | ok a => exact .pure a
  | error e => exact .throw _

end Promises

namespace Tables

/-- The numbers of slots and of entries, the sizes of the pages, and the budget. -/
structure Outline where
  slots : Nat
  entries : Nat
  pages : List Nat
  budget : Paging.Budget

def outline (t : Tables) : Outline :=
  ⟨t.zones.capacity, t.roots.capacity, t.storage.sizes, t.storage.budget⟩

/-! ## Cells -/

theorem keeps_cellAt (l : Location) : Keeps outline (cellAt l) := by
  refine .bind .get fun t => ?_
  split
  · exact .pure _
  · exact keeps_fault _

theorem keeps_putCell (l : Location) (c : Cell) : Keeps outline (putCell l c) := by
  refine .change fun t => ?_
  simp only [outline, Storage.sizes_set]
  rfl

theorem keeps_updateCell (l : Location) (f : Cell → Cell) : Keeps outline (updateCell l f) :=
  (keeps_cellAt l).bind fun _ => keeps_putCell l _

theorem keeps_place (l : Location) (i : Nat) (isRoot : Bool) : Keeps outline (place l i isRoot) :=
  (keeps_cellAt l).bind fun _ => (keeps_expect _ _).bind fun _ => keeps_putCell l _

theorem keeps_renumber (l : Location) (i : Nat) : Keeps outline (renumber l i) :=
  (keeps_cellAt l).bind fun _ => (keeps_expect _ _).bind fun _ => keeps_putCell l _

/-! ## The cons table -/

theorem keeps_slotAt (i : Nat) : Keeps outline (slotAt i) := by
  refine .bind .get fun t => ?_
  simp only
  split
  · exact .pure _
  · exact keeps_fault _

/-- Boundaries are no part of the outline. -/
theorem keeps_modifyZones {f : Zones → Zones} (h : ∀ z, (f z).slots.size = z.slots.size) :
    Keeps outline (modifyZones f) := by
  refine .change fun t => ?_
  simp only [outline, Zones.capacity, h]

theorem keeps_writeSlot (i : Nat) (l : Location) : Keeps outline (writeSlot i l) :=
  keeps_modifyZones fun _ => Array.size_setIfInBounds

theorem keeps_swap (i j : Nat) : Keeps outline (swap i j) := by
  refine .ite (.pure _) ?_
  exact (keeps_slotAt i).bind fun a => (keeps_slotAt j).bind fun b => (keeps_writeSlot i b).bind fun _ =>
    (keeps_writeSlot j a).bind fun _ => (keeps_renumber b i).bind fun _ => keeps_renumber a j

theorem keeps_exchange (i : Nat) (l : Location) : Keeps outline (exchange i l) :=
  (keeps_slotAt i).bind fun _ => (keeps_writeSlot i l).bind fun _ => (keeps_place l i false).bind fun _ =>
    .pure _

theorem keeps_extendWhite : Keeps outline extendWhite :=
  .bind .get fun _ => (keeps_expect _ _).bind fun _ => .bind (keeps_modifyZones fun _ => rfl) fun _ => .pure _

theorem keeps_takeOut (i : Nat) : Keeps outline (takeOut i) := by
  refine .bind .get fun t => ?_
  simp only
  split
  · exact (keeps_minus _ _).bind fun last => (keeps_swap i last).bind fun _ =>
      .bind (keeps_modifyZones fun _ => rfl) fun _ => .pure _
  · exact (keeps_minus _ _).bind fun lastGrey => (keeps_swap i lastGrey).bind fun _ =>
      (keeps_minus _ _).bind fun lastWhite => (keeps_swap lastGrey lastWhite).bind fun _ =>
      .bind (keeps_modifyZones fun _ => rfl) fun _ => .pure _
  · exact (keeps_minus _ _).bind fun last => (keeps_swap i last).bind fun _ =>
      .bind (keeps_modifyZones fun _ => rfl) fun _ => .pure _
  · exact keeps_fault _
  · exact keeps_fault _

theorem keeps_shade (i : Nat) : Keeps outline (shade i) :=
  .bind .get fun _ => (keeps_expect _ _).bind fun _ => (keeps_swap i _).bind fun _ =>
    keeps_modifyZones fun _ => rfl

theorem keeps_extendBlack : Keeps outline extendBlack := by
  refine .bind .get fun t => .ite ?_ ?_
  · exact .bind (keeps_modifyZones fun _ => rfl) fun _ => .pure _
  · exact (keeps_expect _ _).bind fun _ => (keeps_swap _ _).bind fun _ => (keeps_swap _ _).bind fun _ =>
      .bind (keeps_modifyZones fun _ => rfl) fun _ => .pure _

theorem keeps_blacken : Keeps outline blacken := by
  refine .bind .get fun t => .ite (.pure _) (.ite ?_ ?_)
  · exact (keeps_swap _ _).bind fun _ => (keeps_slotAt _).bind fun _ =>
      .bind (keeps_modifyZones fun _ => rfl) fun _ => .pure _
  · exact (keeps_slotAt _).bind fun _ => .bind (keeps_modifyZones fun _ => rfl) fun _ => .pure _

theorem keeps_reclaim : Keeps outline reclaim :=
  .bind .get fun _ => (keeps_minus _ _).bind fun _ => .bind (keeps_modifyZones fun _ => rfl) fun _ => .pure _

theorem keeps_whiten : Keeps outline whiten :=
  .bind .get fun _ => (keeps_expect _ _).bind fun _ => keeps_modifyZones fun _ => rfl

/-! ## The root table -/

theorem keeps_entryAt (i : Nat) : Keeps outline (entryAt i) := by
  refine .bind .get fun t => ?_
  simp only
  split
  · exact .pure _
  · exact keeps_fault _

theorem keeps_modifyRoots {f : Roots → Roots} (h : ∀ r, (f r).entries.size = r.entries.size) :
    Keeps outline (modifyRoots f) := by
  refine .change fun t => ?_
  simp only [outline, Roots.capacity, h]

theorem keeps_writeEntry (i : Nat) (e : RootEntry) : Keeps outline (writeEntry i e) :=
  keeps_modifyRoots fun _ => Array.size_setIfInBounds

theorem keeps_increase (i : Nat) : Keeps outline (increase i) :=
  .bind .get fun _ => (keeps_expect _ _).bind fun _ => (keeps_entryAt i).bind fun _ =>
    (keeps_writeEntry i _).bind fun _ => .pure _

theorem keeps_decrease (i : Nat) : Keeps outline (decrease i) :=
  .bind .get fun _ => (keeps_expect _ _).bind fun _ => (keeps_entryAt i).bind fun _ =>
    (keeps_expect _ _).bind fun _ => (keeps_minus _ _).bind fun _ => (keeps_writeEntry i _).bind fun _ =>
    .pure _

theorem keeps_enrol (l : Location) : Keeps outline (enrol l) :=
  .bind .get fun _ => (keeps_expect _ _).bind fun _ => (keeps_entryAt _).bind fun _ =>
    (keeps_writeEntry _ _).bind fun _ => (keeps_place l _ true).bind fun _ =>
    .bind (keeps_modifyRoots fun _ => rfl) fun _ => .pure _

theorem keeps_dismiss (i : Nat) : Keeps outline (dismiss i) := by
  refine .bind .get fun _ => (keeps_expect _ _).bind fun _ => (keeps_entryAt i).bind fun e =>
    (keeps_expect _ _).bind fun _ => (keeps_minus _ _).bind fun last => .ite ?_ ?_
  · exact (keeps_entryAt last).bind fun other => (keeps_writeEntry i other).bind fun _ =>
      (keeps_writeEntry last e).bind fun _ => (keeps_renumber _ i).bind fun _ =>
      (keeps_renumber _ last).bind fun _ => .bind (keeps_modifyRoots fun _ => rfl) fun _ => .pure _
  · exact .bind (keeps_modifyRoots fun _ => rfl) fun _ => .pure _

theorem keeps_park (i : Nat) (l : Location) : Keeps outline (park i l) :=
  .bind .get fun _ => (keeps_expect _ _).bind fun _ => (keeps_entryAt i).bind fun _ =>
    (keeps_writeEntry i _).bind fun _ => (keeps_place l i false).bind fun _ => .pure _

end Tables

namespace Heap

/-- The outline of both tables, and by how much they grow. -/
def outline (h : Heap) : Sizing × Tables.Outline := (h.sizing, h.tables.outline)

theorem keeps_onTables {act : TablesM α} (h : Keeps Tables.outline act) : Keeps outline (onTables act) := by
  rintro ⟨id, sizing, kinds, t⟩
  have ht := h t
  cases hact : act t with
  | ok a u =>
    rw [hact] at ht
    rw [onTables_ok hact]
    exact congrArg (sizing, ·) ht
  | error e u =>
    rw [hact] at ht
    rw [onTables_error hact]
    exact congrArg (sizing, ·) ht

/-! ## Shading -/

theorem keeps_shade (l : Location) : Keeps outline (shade l) :=
  .bind .get fun _ => .ite
    ((keeps_onTables (Tables.keeps_cellAt l)).bind fun c => keeps_onTables (Tables.keeps_shade c.slot))
    (.pure _)

theorem keeps_shadeHandles (handles : List Handle) : Keeps outline (shadeHandles handles) := by
  refine .forM (fun handle => .bind .get fun h => ?_) handles
  split
  · exact keeps_shade _
  · exact .pure _

theorem keeps_shadeContents (l : Location) : Keeps outline (shadeContents l) :=
  (keeps_onTables (Tables.keeps_cellAt l)).bind fun c => keeps_shadeHandles c.handles

theorem keeps_barrier (l : Location) (x : Value) : Keeps outline (barrier l x) := by
  refine .bind .get fun h => ?_
  split
  · exact keeps_shadeHandles _
  · exact keeps_shadeHandles _
  · exact .pure _

theorem keeps_shadeValue (x : Value) : Keeps outline (shadeValue x) :=
  .bind .get fun _ => (keeps_answer _).bind fun l => keeps_shade l

/-! ## The cycle -/

/-- A scan goes through the cells one by one. -/
theorem keeps_scanFrom (budget : Nat) : ∀ done, Keeps outline (scanFrom done budget) := by
  induction budget with
  | zero => exact fun done => .pure done
  | succ budget ih =>
    intro done
    refine (keeps_onTables Tables.keeps_blacken).bind fun l? => ?_
    cases l? with
    | none => exact .pure done
    | some l => exact (keeps_shadeContents l).bind fun _ => ih (done + 1)

theorem keeps_startCycle : Keeps outline startCycle := .bind .get fun _ => .forM keeps_shadeContents _

theorem keeps_sweep : Keeps outline sweep := by
  have hrest : Keeps outline (do
      let count ← onTables Tables.reclaim
      onTables Tables.whiten
      startCycle
      return count : HeapM Nat) :=
    (keeps_onTables Tables.keeps_reclaim).bind fun count => (keeps_onTables Tables.keeps_whiten).bind fun _ =>
      keeps_startCycle.bind fun _ => .pure count
  exact .bind .get fun _ => .ite hrest (.bind (.throw _) fun _ => hrest)

theorem keeps_collect : Keeps outline collect := (keeps_scanFrom _ 0).bind fun _ => keeps_sweep

/-! ## Cells and roots -/

theorem keeps_checkChild (x : Value) : Keeps outline (checkChild x) := .bind .get fun _ => .ite (.pure _) (.throw _)

theorem keeps_fill (tag : Tag) (car cdr : Value) : Keeps outline (Heap.fill tag car cdr) :=
  (keeps_onTables Tables.keeps_extendWhite).bind fun i => (keeps_onTables (Tables.keeps_slotAt i)).bind fun l =>
    (keeps_onTables (Tables.keeps_cellAt l)).bind fun _ =>
    (keeps_onTables (Tables.keeps_updateCell l _)).bind fun _ =>
    (keeps_onTables (Tables.keeps_place l i false)).bind fun _ => .pure _

theorem keeps_issue (l : Location) : Keeps outline (issue l) :=
  (keeps_onTables (Tables.keeps_cellAt l)).bind fun _ => .bind .get fun _ => .pure _

theorem keeps_toRoots (l : Location) : Keeps outline (toRoots l) :=
  (keeps_onTables (Tables.keeps_cellAt l)).bind fun c =>
    (keeps_onTables (Tables.keeps_takeOut c.slot)).bind fun hole =>
    (keeps_onTables (Tables.keeps_enrol l)).bind fun spare =>
    (keeps_onTables (Tables.keeps_exchange hole spare)).bind fun _ => keeps_shadeContents l

theorem keeps_retire (l : Location) (i : Nat) : Keeps outline (retire l i) :=
  (keeps_onTables (Tables.keeps_decrease i)).bind fun _ =>
    (keeps_onTables (Tables.keeps_dismiss i)).bind fun parked =>
    (keeps_onTables Tables.keeps_extendBlack).bind fun slot =>
    (keeps_onTables (Tables.keeps_exchange slot l)).bind fun spare =>
    (keeps_onTables (Tables.keeps_park parked spare)).bind fun _ => keeps_shadeContents l

end Heap

namespace Memory

/-- The outline of the heap. -/
def outline (m : Memory) : Sizing × Tables.Outline := m.heap.outline

theorem keeps_onHeap {act : HeapM α} (h : Keeps Heap.outline act) : Keeps outline (onHeap act) := by
  rintro ⟨g, ledger⟩
  have hg := h g
  rw [onHeap]
  split
  · next a g' hact =>
    rw [hact] at hg
    exact hg
  · next e g' hact =>
    rw [hact] at hg
    exact hg

theorem keeps_retain (x : Value) : Keeps outline (retain x) := .change fun _ => rfl

theorem keeps_release (x : Value) : Keeps outline (release x) := .change fun _ => rfl

theorem keeps_setChild (side : Side) (target x : Value) : Keeps outline (setChild side target x) :=
  .bind .get fun _ => (keeps_answer _).bind fun (l, _) => (keeps_onHeap (Heap.keeps_checkChild x)).bind fun _ =>
    (keeps_retain x).bind fun _ =>
    (keeps_onHeap (Heap.keeps_onTables (Tables.keeps_updateCell l _))).bind fun _ =>
    (keeps_release _).bind fun _ => keeps_onHeap (Heap.keeps_barrier l x)

theorem keeps_fill (tag : Tag) (car cdr : Value) : Keeps outline (fill tag car cdr) :=
  (keeps_onHeap (Heap.keeps_fill tag car cdr)).bind fun _ => (keeps_release _).bind fun _ =>
    (keeps_release _).bind fun _ => .pure _

end Memory

end ConsHeap
