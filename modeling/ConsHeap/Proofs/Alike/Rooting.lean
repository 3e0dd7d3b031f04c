import ConsHeap.Proofs.Alike.Growth
import ConsHeap.Proofs.Alike.Heaps
import ConsHeap.Proofs.Heap.Rooting

/-!
# Slots and roots in heaps that differ in size

The heaps make room at different times. Room that one of them makes adds spare cells, of which some go together with
spare cells of the other heap. Whatever follows does the same in both.

* `Heap.MakesRoom`: an action that fails for want of memory, or lets the tables grow.
* `Heap.Alike.widens`, `Heap.Alike.room`: heaps stay alike when either of them makes room.
* `Heap.Alike.fill`, `Heap.Alike.issue`: the same new cell.
* `Heap.Alike.root`, `Heap.Alike.unroot`: **rooting goes the same way.**
-/

namespace ConsHeap

variable {M N : Renaming} {n : UInt32}

theorem Renaming.Grows.flip (h : Renaming.Grows n M N) : Renaming.Grows n M.flip N.flip := by
  refine ⟨h.le.flip, fun k hk => ?_⟩
  funext l m
  simp only [Renaming.flip, h.same k hk]

namespace Heap

variable {h h' g g' : Heap} {l m : Location} {v w : Value}

/-- An action that fails for want of memory, or lets the tables grow. -/
def MakesRoom (h : Heap) (r : EStateM.Result (Failure HeapError) Heap Unit) : Prop :=
  (∃ e h', e.isAllocation = true ∧ r = .error (.error e) h') ∨ ∃ h', r = .ok () h' ∧ h.Widens h'

theorem makesRoom_cell (hs : h.tables.Sound) : h.MakesRoom (roomForCell h) := by
  rcases roomForCell_cases hs with ⟨e, halloc, he⟩ | ⟨h', hok, hw, -⟩
  · exact .inl ⟨e, h, halloc, he⟩
  · exact .inr ⟨h', hok, hw⟩

theorem makesRoom_root (hs : h.tables.Sound) : h.MakesRoom (roomForRoot h) := by
  rcases roomForRoot_cases hs with ⟨e, halloc, he⟩ | ⟨h', hok, hw, -⟩
  · exact .inl ⟨e, h, halloc, he⟩
  · exact .inr ⟨h', hok, hw⟩

theorem makesRoom_both (hs : h.tables.Sound) : h.MakesRoom (roomForBoth h) := by
  rcases roomForBoth_cases hs with ⟨e, halloc, he⟩ | ⟨h', hok, hw, -⟩
  · exact .inl ⟨e, h, halloc, he⟩
  · exact .inr ⟨h', hok, hw⟩

theorem makesRoom_black (hs : h.tables.Sound) :
    h.MakesRoom ((unless h.tables.zones.canExtendBlack do
      onTables (Tables.growZones h.sizing.cellsPerPage) : HeapM Unit) h) := by
  obtain ⟨id, sizing, kinds, t⟩ := h
  split
  · exact .inr ⟨_, rfl, .refl hs⟩
  · rcases Tables.growZones_cases hs sizing.cellsPerPage with ⟨e, halloc, he⟩ | ⟨u, page, slots, hu, hg, -⟩
    · exact .inl ⟨e, _, halloc, onTables_error he⟩
    · exact .inr ⟨_, onTables_ok hu, .page hg hs⟩

namespace Alike

/-! ## Room -/

/-- Heaps stay alike when one of them grows, with more cells going together. -/
theorem widens (hh : h.Alike M n g) (hs : h.tables.Sound) (hs' : g.tables.Sound) (hw : h.Widens h') :
    ∃ N, Renaming.Grows n M N ∧ h'.Alike N n g := by
  obtain ⟨hbecomes, -, hgrown⟩ := hw
  have htables : ∀ {t}, Relation.ReflTransGen (fun t u => ∃ slots entries, Tables.Grown t u slots entries) h.tables t →
      t.Sound ∧ ∃ N, Renaming.Grows n M N ∧ t.Alike N n g.tables := by
    intro t ht
    -- one page after the other, and the renaming grows with each
    induction ht with
    | refl => exact ⟨hs, M, .refl n M, hh.tables⟩
    | tail _ hstep ih =>
      obtain ⟨slots, entries, hg⟩ := hstep
      obtain ⟨hsound, N, hMN, halike⟩ := ih
      obtain ⟨K, hNK, halike'⟩ := halike.grown hg hsound hs'
      exact ⟨hg.sound hsound, K, hMN.trans hNK, halike'⟩
  obtain ⟨-, N, hMN, halike⟩ := htables hgrown
  exact ⟨N, hMN, hbecomes.id.trans hh.id, hh.id', hbecomes.kinds.trans hh.kinds, halike⟩

theorem widens_right (hh : h.Alike M n g) (hs : h.tables.Sound) (hs' : g.tables.Sound) (hw : g.Widens g') :
    ∃ N, Renaming.Grows n M N ∧ h.Alike N n g' := by
  obtain ⟨N, hMN, halike⟩ := hh.symm.widens hs' hs hw
  exact ⟨N.flip, hMN.flip, halike.symm⟩

/-- Both heaps make room, each in its own way. -/
theorem room {r r' : EStateM.Result (Failure HeapError) Heap Unit} (hh : h.Alike M n g) (hs : h.tables.Sound)
    (hs' : g.tables.Sound) (hr : h.MakesRoom r) (hr' : g.MakesRoom r') :
    Onward HeapError.Starved n (fun M => Heap.Alike M n) M (fun _ => Eq) r r' := by
  rcases hr with ⟨e, h', halloc, rfl⟩ | ⟨h', rfl, hw⟩
  · cases r' with
    | ok a g' => exact halloc
    | error f g' => exact .inl halloc
  · rcases hr' with ⟨e, g', halloc, rfl⟩ | ⟨g', rfl, hw'⟩
    · exact halloc
    · obtain ⟨N, hMN, halike⟩ := hh.widens hs hs' hw
      obtain ⟨K, hNK, halike'⟩ := halike.widens_right hw.becomes.sound hs' hw'
      exact ⟨K, hMN.trans hNK, halike', rfl⟩

/-! ## New cells -/

variable {car car' cdr cdr' : Value}

/-- The storage that is used next goes together, and so does what it held before. -/
theorem fill (hh : h.Alike M n g) (tag : Tag) (hcar : car.Alike M car') (hcdr : cdr.Alike M cdr') :
    Heap.Agrees M n (fun p q => M n p.1 q.1 ∧ p.2.Alike M q.2) (Heap.fill tag car cdr h)
      (Heap.fill tag car' cdr' g) := by
  refine (hh.onTables hh.tables.extendWhite).bind ?_
  rintro i h₁ _ g₁ ⟨hh₁, rfl⟩
  refine (hh₁.slotAt i).bind ?_
  rintro l h₂ m g₂ ⟨hh₂, hlm⟩
  refine (hh₂.cellAt hlm).bind ?_
  rintro c h₃ d g₃ ⟨hh₃, hcd⟩
  refine (hh₃.onTables (hh₃.tables.updateCell hlm fun c d hcd => hcd.renew tag hcar hcdr)).bind ?_
  rintro _ h₄ _ g₄ ⟨hh₄, -⟩
  refine (hh₄.place hlm i false).bind ?_
  rintro _ h₅ _ g₅ ⟨hh₅, -⟩
  exact ⟨hh₅, hlm, hcd⟩

theorem issue (hh : h.Alike M n g) (hlm : M n l m) :
    Heap.Agrees M n (Handle.Alike M) (Heap.issue l h) (Heap.issue m g) := by
  refine (hh.cellAt hlm).bind ?_
  rintro c h' d g' ⟨hh', hcd⟩
  simp only [bind_get]
  refine ⟨hh', hh'.id.trans hh'.id'.symm, hcd.generation, ?_⟩
  rw [hh'.id]
  exact hlm

/-! ## Roots -/

theorem toRoots (hh : h.Alike M n g) (hlm : M n l m) : Heap.Agrees M n Eq (Heap.toRoots l h) (Heap.toRoots m g) := by
  refine (hh.cellAt hlm).bind ?_
  rintro c h₁ d g₁ ⟨hh₁, hcd⟩
  rw [hcd.slot]
  refine (hh₁.onTables (hh₁.tables.takeOut _)).bind ?_
  rintro hole h₂ _ g₂ ⟨hh₂, rfl⟩
  refine (hh₂.onTables (hh₂.tables.enrol hlm)).bind ?_
  rintro spare h₃ spare' g₃ ⟨hh₃, hspare⟩
  refine (hh₃.onTables (hh₃.tables.exchange hole hspare)).bind ?_
  rintro _ h₄ _ g₄ ⟨hh₄, -⟩
  exact hh₄.shadeContents hlm

theorem root (hh : h.Alike M n g) (hs : h.tables.Sound) (hs' : g.tables.Sound) (hv : v.Alike M w) :
    Onward HeapError.Starved n (fun M => Heap.Alike M n) M (fun _ => Eq) (Heap.root v h)
      (Heap.root w g) := by
  simp only [Heap.root, bind_get]
  refine (hh.liveCell hv).onward hh ?_
  rintro ⟨l, c⟩ ⟨m, d⟩ ⟨hlm, hcd⟩
  simp only [hcd.isRoot, hcd.slot]
  split
  · refine Agree.onward ((hh.onTables (hh.tables.increase _)).bind ?_)
    rintro _ h' _ g' ⟨hh', -⟩
    exact ⟨hh', rfl⟩
  · refine (hh.room hs hs' (makesRoom_root hs) (makesRoom_root hs')).bind ?_
    rintro N _ h' _ g' hMN hh' -
    exact (hh'.toRoots (hMN.le _ _ _ hlm)).onward

theorem retire (hh : h.Alike M n g) (hlm : M n l m) (i : Nat) :
    Heap.Agrees M n Eq (Heap.retire l i h) (Heap.retire m i g) := by
  refine (hh.onTables (hh.tables.decrease i)).bind ?_
  rintro _ h₁ _ g₁ ⟨hh₁, -⟩
  refine (hh₁.onTables (hh₁.tables.dismiss i)).bind ?_
  rintro parked h₂ _ g₂ ⟨hh₂, rfl⟩
  refine (hh₂.onTables hh₂.tables.extendBlack).bind ?_
  rintro slot h₃ _ g₃ ⟨hh₃, rfl⟩
  refine (hh₃.onTables (hh₃.tables.exchange slot hlm)).bind ?_
  rintro spare h₄ spare' g₄ ⟨hh₄, hspare⟩
  refine (hh₄.onTables (hh₄.tables.park parked hspare)).bind ?_
  rintro _ h₅ _ g₅ ⟨hh₅, -⟩
  exact hh₅.shadeContents hlm

theorem toBlack (hh : h.Alike M n g) (hs : h.tables.Sound) (hs' : g.tables.Sound) (hlm : M n l m) (i : Nat) :
    Onward HeapError.Starved n (fun M => Heap.Alike M n) M (fun _ => Eq) (Heap.toBlack l i h)
      (Heap.toBlack m i g) := by
  rw [toBlack_eq, toBlack_eq]
  refine (hh.room hs hs' (makesRoom_black hs) (makesRoom_black hs')).bind ?_
  rintro N _ h' _ g' hMN hh' -
  exact (hh'.retire (hMN.le _ _ _ hlm) i).onward

theorem unroot (hh : h.Alike M n g) (hs : h.tables.Sound) (hs' : g.tables.Sound) (hv : v.Alike M w) :
    Onward HeapError.Starved n (fun M => Heap.Alike M n) M (fun _ => Eq) (Heap.unroot v h)
      (Heap.unroot w g) := by
  simp only [Heap.unroot, bind_get]
  refine (hh.liveCell hv).onward hh ?_
  rintro ⟨l, c⟩ ⟨m, d⟩ ⟨hlm, hcd⟩
  simp only [hcd.isRoot, hcd.slot]
  split
  · refine Agree.bind (hh.entryAt d.slot) ?_
    rintro e _ f _ ⟨⟨rfl, rfl⟩, hcount⟩
    rw [hcount]
    split
    · refine Agree.onward ((hh.onTables (hh.tables.decrease _)).bind ?_)
      rintro _ h' _ g' ⟨hh', -⟩
      exact ⟨hh', rfl⟩
    · exact hh.toBlack hs hs' hlm _
  · exact .inr (.inr ⟨rfl, M, .refl n M, hh⟩)

end Alike

end Heap

end ConsHeap
