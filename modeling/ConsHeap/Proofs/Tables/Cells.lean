import ConsHeap.Proofs.Tables.Growth

/-!
# Contents of cells

A cell gets other contents where it is. Its place in the tables is not affected.

* `Tables.Sound.set`: other contents for one cell.
* `Tables.store_ok`: a change of contents.
* `Tables.fill_ok`: the first free slot becomes white, and its cell gets new contents.
-/

namespace ConsHeap.Tables

variable {t u : Tables} {l : Location} {c d : Cell}

/-- A cell is exchanged for one that records the same place. -/
theorem Sound.set (h : t.Sound) (hc : t.storage.get? l = some c) (hslot : d.slot = c.slot)
    (hroot : d.isRoot = c.isRoot) (id : UInt32) (hu : u = ⟨t.storage.set l d, t.zones, t.roots⟩) :
    u.Sound ∧ u.view id = (t.view id).store l d.contents := by
  subst hu
  -- every cell records the place that it recorded before
  have hget : ∀ m, (t.storage.set l d).get? m = if m = l then some d else t.storage.get? m := by
    intro m
    split
    · next hm => rw [hm, Storage.get?_set_self hc]
    · next hm => rw [Storage.get?_set_of_ne hm]
  have hrec : ∀ {m i b}, t.storage.Records m i b → (t.storage.set l d).Records m i b := by
    rintro m i b ⟨c', hc', rfl, rfl⟩
    by_cases hm : m = l
    · subst hm
      obtain rfl := Option.some.inj (hc'.symm.trans hc)
      exact ⟨d, by rw [hget, if_pos rfl], hslot, hroot⟩
    · exact ⟨c', by rw [hget, if_neg hm, hc'], rfl, rfl⟩
  have hshape := Storage.sameShape_set t.storage l d
  have hsound : Sound ⟨t.storage.set l d, t.zones, t.roots⟩ := by
    constructor
    · exact ⟨h.zones.ordered, fun hi => hrec (h.zones.records hi)⟩
    · exact ⟨h.roots.live_le, fun hi => hrec (h.roots.records hi), h.roots.counted⟩
    · exact h.apart
    · intro m c' hc'
      obtain ⟨c'', hc''⟩ := hshape.exists_get? hc'
      exact h.named hc''
    · exact h.storage.congr hshape
    · rw [hshape.cells]
      exact h.cells
    · exact h.slots_le
    · exact h.entries_le
  refine ⟨hsound, View.ext rfl (funext fun m => ?_) (funext fun m => ?_) (funext fun m => ?_)⟩
  · show color? ⟨t.storage.set l d, t.zones, t.roots⟩ m = t.color? m
    unfold color?
    simp only [hget]
    by_cases hm : m = l
    · subst hm
      simp [hc, hslot, hroot]
    · simp [hm]
  · show (t.storage.set l d).contents? m = Function.update t.storage.contents? l (some d.contents) m
    rw [Function.update_apply]
    unfold Storage.contents?
    rw [hget]
    split <;> rfl
  · show count ⟨t.storage.set l d, t.zones, t.roots⟩ m = t.count m
    unfold count
    simp only [hget]
    by_cases hm : m = l
    · subst hm
      simp [hc, hslot, hroot]
    · simp [hm]

/-- A change of what a cell holds. -/
theorem store_ok (h : t.Sound) (hc : t.storage.get? l = some c) {f : Cell → Cell}
    (hf : (f c).placement = c.placement) (id : UInt32) :
    ∃ u, updateCell l f t = .ok () u ∧ u.Sound ∧ u.view id = (t.view id).store l (f c).contents := by
  obtain ⟨s, z, r⟩ := t
  refine ⟨_, updateCell_ok hc f, h.set hc ?_ ?_ id rfl⟩
  · rw [Cell.slot, hf, Cell.slot]
  · rw [Cell.isRoot, hf, Cell.isRoot]

/-- The first free slot becomes white, and the spare cell that it names is renewed. -/
theorem fill_ok (h : t.Sound) (hfull : t.zones.isFull = false) (tag : Tag) (car cdr : Value) (id : UInt32) :
    ∃ u₁ u₂ u₃ i l c, extendWhite t = .ok i u₁ ∧ slotAt i u₁ = .ok l u₁ ∧ cellAt l u₁ = .ok c u₁ ∧
      updateCell l (·.renew tag car cdr) u₁ = .ok () u₂ ∧ place l i false u₂ = .ok () u₃ ∧ u₃.Sound ∧
      t.color? l = none ∧ t.storage.get? l = some c ∧ u₃.roots = t.roots ∧
      u₃.view id = (t.view id).fill l (c.renew tag car cdr).contents := by
  obtain ⟨s, z, r⟩ := t
  obtain ⟨_, l, hu₁, rfl, hr, hz, hslot, hdead, hcolor⟩ := extendWhite_ok h.zones hfull
  have h₁ := h.relocated hr hz
  obtain ⟨c, hc, hcslot, hcroot⟩ := h.zones.records hslot
  have hmax := (h.zones.records hslot).le_maxSlot
  simp only at hc hcslot
  have hview₁ := h.view_paint hr hz hcolor id
  -- the contents, and then the place that the cell has already
  obtain ⟨h₂, hview₂⟩ := h₁.set (d := c.renew tag car cdr) hc rfl rfl id rfl
  obtain ⟨h₃, hview₃⟩ := h₂.set (d := (c.renew tag car cdr).place z.whiteTop false)
    (Storage.get?_set_self hc _) (by rw [Cell.slot_place _ hmax]; exact hcslot.symm)
    (by rw [Cell.isRoot_place]; exact hcroot.symm) id rfl
  refine ⟨_, _, _, _, l, c, hu₁, slotAt_ok hslot, cellAt_ok hc, updateCell_ok hc _,
    place_ok (Storage.get?_set_self hc _) hmax false, h₃, hdead, hc, rfl, ?_⟩
  rw [hview₃, hview₂, hview₁, View.store_store]
  rfl

end ConsHeap.Tables
