import ConsHeap.Proofs.Alike.Tables
import ConsHeap.Tables.Exchange
import ConsHeap.Tables.Moves

/-!
# The same moves in tables that differ in size

A move reads slots, entries and cells at positions that both tables have, or else it is a fault on one side. So it
does the same to both, and the cells that it answers with go together. No move asks where a table ends.

* `Tables.Agrees`: the outcomes of two actions on alike tables.
* `Tables.Alike.slotAt`, `Tables.Alike.cellAt`, `Tables.Alike.entryAt`: what is read.
* `Tables.Alike.swap`, `Tables.Alike.exchange`, `Tables.Alike.takeOut`, `Tables.Alike.extendBlack`,
  `Tables.Alike.blacken`: moves in the cons table.
* `Tables.Alike.enrol`, `Tables.Alike.dismiss`, `Tables.Alike.park`: moves in the root table.
-/

namespace ConsHeap.Tables

variable {M : Renaming} {n : UInt32} {α β : Type}

/-- Two actions on the tables of heap `n` agree: the tables stay alike, and `Q` holds of the answers. -/
abbrev Agrees (M : Renaming) (n : UInt32) (Q : α → β → Prop) (r : EStateM.Result (Failure HeapError) Tables α)
    (r' : EStateM.Result (Failure HeapError) Tables β) : Prop :=
  Agree HeapError.Starved (Tables.Alike M n) (fun a t b u => t.Alike M n u ∧ Q a b) r r'

namespace Alike

variable {t u : Tables} {l m : Location} (h : t.Alike M n u)
include h

/-! ## What is read and written -/

theorem slotAt (i : Nat) :
    Agree HeapError.Starved (Tables.Alike M n)
      (fun l t' m u' => (t' = t ∧ u' = u) ∧ M n l m ∧ i < t.zones.capacity ∧ i < u.zones.capacity)
      (Tables.slotAt i t) (Tables.slotAt i u) := by
  simp only [Tables.slotAt, bind_get]
  cases hl : t.zones.slots[i]? with
  | none => exact .fault_left ..
  | some l =>
    cases hm : u.zones.slots[i]? with
    | none => exact .fault_right ..
    | some m => exact ⟨⟨rfl, rfl⟩, h.slot hl hm, Zones.lt_capacity hl, Zones.lt_capacity hm⟩

theorem cellAt (hlm : M n l m) :
    Agree HeapError.Starved (Tables.Alike M n)
      (fun c t' d u' => (t' = t ∧ u' = u) ∧ c.Alike M d) (Tables.cellAt l t) (Tables.cellAt m u) := by
  obtain ⟨c, d, hc, hd, hcd⟩ := h.cell hlm
  simp only [Tables.cellAt, bind_get, hc, hd]
  exact ⟨⟨rfl, rfl⟩, hcd⟩

theorem entryAt (i : Nat) :
    Agree HeapError.Starved (Tables.Alike M n)
      (fun e t' f u' => (t' = t ∧ u' = u) ∧ (M n e.location f.location ∧ e.count = f.count) ∧
        i < t.roots.capacity ∧ i < u.roots.capacity)
      (Tables.entryAt i t) (Tables.entryAt i u) := by
  simp only [Tables.entryAt, bind_get]
  cases he : t.roots.entries[i]? with
  | none => exact .fault_left ..
  | some e =>
    cases hf : u.roots.entries[i]? with
    | none => exact .fault_right ..
    | some f =>
      exact ⟨⟨rfl, rfl⟩, h.entry he hf, (Array.getElem?_eq_some_iff.1 he).1, (Array.getElem?_eq_some_iff.1 hf).1⟩

theorem updateCell (hlm : M n l m) {f g : Cell → Cell} (hfg : ∀ c d, c.Alike M d → (f c).Alike M (g d)) :
    Agrees M n Eq (Tables.updateCell l f t) (Tables.updateCell m g u) := by
  refine (h.cellAt hlm).bind ?_
  rintro c _ d _ ⟨⟨rfl, rfl⟩, hcd⟩
  exact ⟨h.set hlm (hfg c d hcd), rfl⟩

/-- Another place for a cell changes neither table. -/
theorem place (hlm : M n l m) (i : Nat) (isRoot : Bool) :
    Agree HeapError.Starved (Tables.Alike M n)
      (fun _ t' _ u' => t'.Alike M n u' ∧ t'.roots = t.roots ∧ u'.roots = u.roots)
      (Tables.place l i isRoot t) (Tables.place m i isRoot u) := by
  refine (h.cellAt hlm).bind ?_
  rintro c _ d _ ⟨⟨rfl, rfl⟩, hcd⟩
  refine (Agree.expect _ _ _).bind ?_
  rintro _ _ _ _ ⟨rfl, rfl, -⟩
  exact ⟨h.set hlm (hcd.place i isRoot), rfl, rfl⟩

theorem renumber (hlm : M n l m) (i : Nat) :
    Agree HeapError.Starved (Tables.Alike M n)
      (fun _ t' _ u' => t'.Alike M n u' ∧ t'.roots = t.roots ∧ u'.roots = u.roots)
      (Tables.renumber l i t) (Tables.renumber m i u) := by
  refine (h.cellAt hlm).bind ?_
  rintro c _ d _ ⟨⟨rfl, rfl⟩, hcd⟩
  refine (Agree.expect _ _ _).bind ?_
  rintro _ _ _ _ ⟨rfl, rfl, -⟩
  rw [hcd.isRoot]
  exact ⟨h.set hlm (hcd.place i d.isRoot), rfl, rfl⟩

/-- A shift of the boundaries that does not ask for the size. -/
theorem modifyZones {f : Zones → Zones} (hslots : ∀ z, (f z).slots = z.slots)
    (hlevel : (f t.zones).Level (f u.zones)) : Agrees M n Eq (Tables.modifyZones f t) (Tables.modifyZones f u) :=
  ⟨h.bounds hlevel (hslots _) (hslots _), rfl⟩

/-! ## The cons table -/

theorem swap (i j : Nat) : Agrees M n Eq (Tables.swap i j t) (Tables.swap i j u) := by
  rw [Tables.swap]
  split
  · exact ⟨h, rfl⟩
  refine (h.slotAt i).bind ?_
  rintro a _ a' _ ⟨⟨rfl, rfl⟩, ha, hi, hi'⟩
  refine (h.slotAt j).bind ?_
  rintro b _ b' _ ⟨⟨rfl, rfl⟩, hb, hj, hj'⟩
  have h₁ := h.slots hi hi' hb
  have h₂ := h₁.slots (i := j) (by simpa [Zones.capacity] using hj) (by simpa [Zones.capacity] using hj') ha
  refine (h₂.renumber hb i).bind ?_
  rintro _ _ _ _ ⟨h₃, -⟩
  exact (h₃.renumber ha j).mono fun _ _ _ _ h₄ => ⟨h₄.1, rfl⟩

/-- The cells that were named before the exchange go together. -/
theorem exchange (i : Nat) (hlm : M n l m) : Agrees M n (M n) (Tables.exchange i l t) (Tables.exchange i m u) := by
  refine (h.slotAt i).bind ?_
  rintro a _ a' _ ⟨⟨rfl, rfl⟩, ha, hi, hi'⟩
  refine ((h.slots hi hi' hlm).place hlm i false).bind ?_
  rintro _ _ _ _ ⟨h', -⟩
  exact ⟨h', ha⟩

theorem extendWhite : Agrees M n Eq (Tables.extendWhite t) (Tables.extendWhite u) := by
  simp only [Tables.extendWhite, bind_get]
  refine (Agree.expect _ _ _).bind ?_
  rintro _ _ _ _ ⟨rfl, rfl, -⟩
  obtain ⟨hblack, hbegin, hgrey, hwhite⟩ := h.level
  refine (h.modifyZones (fun _ => by rfl) (by exact ⟨hblack, hbegin, hgrey, congrArg (· + 1) hwhite⟩)).bind ?_
  rintro _ _ _ _ ⟨h', -⟩
  exact ⟨h', hwhite⟩

/-- The hole is in the same slot. -/
theorem takeOut (i : Nat) : Agrees M n Eq (Tables.takeOut i t) (Tables.takeOut i u) := by
  obtain ⟨hblack, hbegin, hgrey, hwhite⟩ := h.level
  simp only [Tables.takeOut, bind_get, h.level.zone i]
  cases u.zones.zone i with
  | black =>
    rw [hblack]
    refine (Agree.minus _ _).bind ?_
    rintro last _ _ _ ⟨rfl, rfl, rfl, -⟩
    refine (h.swap i last).bind ?_
    rintro _ _ _ _ ⟨h₁, -⟩
    obtain ⟨-, hbegin, hgrey, hwhite⟩ := h₁.level
    refine (h₁.modifyZones (fun _ => by rfl) (by exact ⟨rfl, hbegin, hgrey, hwhite⟩)).bind ?_
    rintro _ _ _ _ ⟨h₂, -⟩
    exact ⟨h₂, rfl⟩
  | grey =>
    rw [hgrey, hwhite]
    refine (Agree.minus _ _).bind ?_
    rintro lastGrey _ _ _ ⟨rfl, rfl, rfl, -⟩
    refine (h.swap i lastGrey).bind ?_
    rintro _ _ _ _ ⟨h₁, -⟩
    refine (Agree.minus _ _).bind ?_
    rintro lastWhite _ _ _ ⟨rfl, rfl, rfl, -⟩
    refine (h₁.swap lastGrey lastWhite).bind ?_
    rintro _ _ _ _ ⟨h₂, -⟩
    refine (h₂.modifyZones (fun _ => by rfl) (by exact ⟨h₂.level.blackTop, h₂.level.greyBegin, rfl, rfl⟩)).bind ?_
    rintro _ _ _ _ ⟨h₃, -⟩
    exact ⟨h₃, rfl⟩
  | white =>
    rw [hwhite]
    refine (Agree.minus _ _).bind ?_
    rintro last _ _ _ ⟨rfl, rfl, rfl, -⟩
    refine (h.swap i last).bind ?_
    rintro _ _ _ _ ⟨h₁, -⟩
    obtain ⟨hblack, hbegin, hgrey, -⟩ := h₁.level
    refine (h₁.modifyZones (fun _ => by rfl) (by exact ⟨hblack, hbegin, hgrey, rfl⟩)).bind ?_
    rintro _ _ _ _ ⟨h₂, -⟩
    exact ⟨h₂, rfl⟩
  | gap => exact .fault ..
  | free => exact .fault ..

theorem shade (i : Nat) : Agrees M n Eq (Tables.shade i t) (Tables.shade i u) := by
  simp only [Tables.shade, bind_get, h.level.zone i, h.level.greyTop]
  refine (Agree.expect _ _ _).bind ?_
  rintro _ _ _ _ ⟨rfl, rfl, -⟩
  refine (h.swap i _).bind ?_
  rintro _ _ _ _ ⟨h₁, -⟩
  obtain ⟨hblack, hbegin, hgrey, hwhite⟩ := h₁.level
  exact h₁.modifyZones (fun _ => by rfl) (by exact ⟨hblack, hbegin, congrArg (· + 1) hgrey, hwhite⟩)

/-- The slot for the black cell is the same, as long as neither table is full. -/
theorem extendBlack : Agrees M n Eq (Tables.extendBlack t) (Tables.extendBlack u) := by
  obtain ⟨hblack, hbegin, hgrey, hwhite⟩ := h.level
  simp only [Tables.extendBlack, bind_get, h.level.hasGap]
  split
  · refine (h.modifyZones (fun _ => by rfl) (by exact ⟨congrArg (· + 1) hblack, hbegin, hgrey, hwhite⟩)).bind ?_
    rintro _ _ _ _ ⟨h₁, -⟩
    exact ⟨h₁, hblack⟩
  · rw [hbegin, hgrey, hwhite]
    refine (Agree.expect _ _ _).bind ?_
    rintro _ _ _ _ ⟨rfl, rfl, -⟩
    refine (h.swap _ _).bind ?_
    rintro _ _ _ _ ⟨h₁, -⟩
    refine (h₁.swap _ _).bind ?_
    rintro _ _ _ _ ⟨h₂, -⟩
    obtain ⟨hblack, hbegin, hgrey, hwhite⟩ := h₂.level
    refine (h₂.modifyZones (fun _ => by rfl) ?_).bind ?_
    · exact ⟨congrArg (· + 1) hblack, congrArg (· + 1) hbegin, congrArg (· + 1) hgrey, congrArg (· + 1) hwhite⟩
    · rintro _ _ _ _ ⟨h₃, -⟩
      exact ⟨h₃, rfl⟩

/-- The same cell becomes black, if there is one to scan. -/
theorem blacken : Agrees M n (Option.Rel (M n)) (Tables.blacken t) (Tables.blacken u) := by
  obtain ⟨hblack, hbegin, -, -⟩ := h.level
  -- the cell is taken from the same slot, whether there was a gap before it or not
  have hlast : ∀ {t' u' : Tables}, t'.Alike M n u' → ∀ i, Agrees M n (Option.Rel (M n))
      ((Tables.slotAt i >>= fun l => (Tables.modifyZones fun z =>
        { z with blackTop := z.blackTop + 1, greyBegin := z.greyBegin + 1 }) >>= fun _ => pure (some l)) t')
      ((Tables.slotAt i >>= fun l => (Tables.modifyZones fun z =>
        { z with blackTop := z.blackTop + 1, greyBegin := z.greyBegin + 1 }) >>= fun _ => pure (some l)) u') := by
    intro t' u' h' i
    refine (h'.slotAt i).bind ?_
    rintro l _ m _ ⟨⟨rfl, rfl⟩, hlm, -⟩
    obtain ⟨hblack, hbegin, hgrey, hwhite⟩ := h'.level
    exact ⟨h'.bounds ⟨congrArg (· + 1) hblack, congrArg (· + 1) hbegin, hgrey, hwhite⟩ rfl rfl, .some hlm⟩
  simp only [Tables.blacken, bind_get, h.level.hasGrey, h.level.hasGap, hblack, hbegin]
  split
  · exact ⟨h, .none⟩
  split
  · refine (h.swap _ _).bind ?_
    rintro _ _ _ _ ⟨h', -⟩
    exact hlast h' _
  · exact hlast h _

theorem reclaim : Agrees M n Eq (Tables.reclaim t) (Tables.reclaim u) := by
  obtain ⟨hblack, hbegin, hgrey, hwhite⟩ := h.level
  simp only [Tables.reclaim, bind_get, hgrey, hwhite]
  refine (Agree.minus _ _).bind ?_
  rintro count _ _ _ ⟨rfl, rfl, rfl, -⟩
  refine (h.modifyZones (fun _ => by rfl) (by exact ⟨hblack, hbegin, hgrey, hgrey⟩)).bind ?_
  rintro _ _ _ _ ⟨h₁, -⟩
  exact ⟨h₁, rfl⟩

theorem whiten : Agrees M n Eq (Tables.whiten t) (Tables.whiten u) := by
  simp only [Tables.whiten, bind_get]
  refine (Agree.expect _ _ _).bind ?_
  rintro _ _ _ _ ⟨rfl, rfl, -⟩
  exact h.modifyZones (fun _ => by rfl) (by exact ⟨rfl, rfl, rfl, h.level.blackTop⟩)

/-! ## The root table -/

theorem increase (i : Nat) : Agrees M n Eq (Tables.increase i t) (Tables.increase i u) := by
  simp only [Tables.increase, bind_get]
  refine (Agree.expect _ _ _).bind ?_
  rintro _ _ _ _ ⟨rfl, rfl, -⟩
  refine (h.entryAt i).bind ?_
  rintro e _ f _ ⟨⟨rfl, rfl⟩, ⟨hlm, hcount⟩, hi, hi'⟩
  rw [hcount]
  exact ⟨h.entries hi hi' hlm _, rfl⟩

theorem decrease (i : Nat) : Agrees M n Eq (Tables.decrease i t) (Tables.decrease i u) := by
  simp only [Tables.decrease, bind_get]
  refine (Agree.expect _ _ _).bind ?_
  rintro _ _ _ _ ⟨rfl, rfl, -⟩
  refine (h.entryAt i).bind ?_
  rintro e _ f _ ⟨⟨rfl, rfl⟩, ⟨hlm, hcount⟩, hi, hi'⟩
  rw [hcount]
  refine (Agree.expect _ _ _).bind ?_
  rintro _ _ _ _ ⟨rfl, rfl, -⟩
  refine (Agree.minus _ _).bind ?_
  rintro count _ _ _ ⟨rfl, rfl, rfl, -⟩
  exact ⟨h.entries hi hi' hlm _, rfl⟩

/-- The spare cells that are returned go together. -/
theorem enrol (hlm : M n l m) : Agrees M n (M n) (Tables.enrol l t) (Tables.enrol m u) := by
  simp only [Tables.enrol, bind_get, h.live]
  refine (Agree.expect _ _ _).bind ?_
  rintro _ _ _ _ ⟨rfl, rfl, -⟩
  refine (h.entryAt _).bind ?_
  rintro e t f u ⟨⟨rfl, rfl⟩, ⟨hspare, -⟩, hi, hi'⟩
  refine ((h.entries hi hi' hlm 1).place hlm _ true).bind ?_
  rintro _ t' _ u' ⟨h', ht, hu⟩
  have hlive : t'.roots.live + 1 = u'.roots.live + 1 := congrArg (· + 1) h'.live
  refine ⟨?_, hspare⟩
  show Tables.Alike M n { t' with roots := { t'.roots with live := t'.roots.live + 1 } }
    { u' with roots := { u'.roots with live := u'.roots.live + 1 } }
  rw [← hlive]
  refine h'.withLive ?_ ?_
  · rw [h'.live, ht, hu]
    simpa [Roots.capacity] using Nat.succ_le_of_lt hi
  · rw [h'.live, hu]
    simpa [Roots.capacity] using Nat.succ_le_of_lt hi'

/-- The cell is left in the same entry. -/
theorem dismiss (i : Nat) : Agrees M n Eq (Tables.dismiss i t) (Tables.dismiss i u) := by
  have hcut : ∀ {t' u' : Tables} {k : Nat}, t'.Alike M n u' → k ≤ t'.roots.capacity → k ≤ u'.roots.capacity →
      Agrees M n Eq ((Tables.modifyRoots (fun r => { r with live := k }) >>= fun _ => pure k) t')
        ((Tables.modifyRoots (fun r => { r with live := k }) >>= fun _ => pure k) u') :=
    fun h' hk hk' => ⟨h'.withLive hk hk', rfl⟩
  have hlive := h.live
  have hle := h.live_le
  have hle' := h.live_le'
  simp only [Tables.dismiss, bind_get, hlive]
  refine (Agree.expect _ _ _).bind ?_
  rintro _ _ _ _ ⟨rfl, rfl, -⟩
  refine (h.entryAt i).bind ?_
  rintro ⟨l, k⟩ _ ⟨m, _⟩ _ ⟨⟨rfl, rfl⟩, ⟨hlm, rfl⟩, hi, hi'⟩
  refine (Agree.expect _ _ _).bind ?_
  rintro _ _ _ _ ⟨rfl, rfl, -⟩
  refine (Agree.minus _ _).bind ?_
  rintro last t _ u ⟨rfl, rfl, rfl, hlast⟩
  split
  · refine (h.entryAt last).bind ?_
    rintro ⟨l', k'⟩ t ⟨m', _⟩ u ⟨⟨rfl, rfl⟩, ⟨hlm', rfl⟩, hj, hj'⟩
    have h₁ := h.entries hi hi' hlm' k'
    have h₂ := h₁.entries (i := last) (by simpa [Roots.capacity] using hj) (by simpa [Roots.capacity] using hj') hlm k
    refine (h₂.renumber hlm' i).bind ?_
    rintro _ t₃ _ u₃ ⟨h₃, ht₃, hu₃⟩
    refine (h₃.renumber hlm last).bind ?_
    rintro _ t₄ _ u₄ ⟨h₄, ht₄, hu₄⟩
    refine hcut h₄ ?_ ?_
    · rw [ht₄, ht₃]
      simpa [Roots.capacity] using Nat.le_of_lt hj
    · rw [hu₄, hu₃]
      simpa [Roots.capacity] using Nat.le_of_lt hj'
  · exact hcut h (by omega) (by omega)

/-- The cells that were named before go together. -/
theorem park (i : Nat) (hlm : M n l m) : Agrees M n (M n) (Tables.park i l t) (Tables.park i m u) := by
  simp only [Tables.park, bind_get]
  refine (Agree.expect _ _ _).bind ?_
  rintro _ _ _ _ ⟨rfl, rfl, -⟩
  refine (h.entryAt i).bind ?_
  rintro e _ f _ ⟨⟨rfl, rfl⟩, ⟨hold, -⟩, hi, hi'⟩
  refine ((h.entries hi hi' hlm 0).place hlm i false).bind ?_
  rintro _ _ _ _ ⟨h', -⟩
  exact ⟨h', hold⟩

end Alike

end ConsHeap.Tables
