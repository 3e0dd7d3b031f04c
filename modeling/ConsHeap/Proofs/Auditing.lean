import ConsHeap.Proofs.Naming

/-!
# The audit is exact

The audit may look at any heap, also at one whose tables or cells were changed behind its back. As long as every
slot and every entry names a stored cell, it passes just if the heap is consistent.

* `Heap.Consistent`: what has to hold of a heap, without regard to how it is found out.
* `Heap.Passes.distinct`, `Heap.Consistent.distinct`: in either case no cell is named twice.
* `Heap.passes_iff_consistent`: what the audit looks at is enough, and none of it is too much.
* `Heap.check_is_exact`: **the check passes just if the heap is consistent, and reports it as corrupt if not.**
-/

namespace ConsHeap.Heap

/-- The heap is as it should be. -/
structure Consistent (h : Heap) : Prop where
  ordered : h.tables.zones.Ordered
  /-- A slot names a cell that records it and is no root. -/
  slots : ∀ (i : Nat) l, h.tables.zones.slots[i]? = some l → h.tables.storage.Records l i false
  /-- An entry names a cell that records it, as a root just if the entry is live, and then it is counted. -/
  entries : ∀ (i : Nat) e, h.tables.roots.entries[i]? = some e →
    h.tables.storage.Records e.location i (decide (i < h.tables.roots.live)) ∧
      (i < h.tables.roots.live → 1 ≤ e.count)
  /-- Every cell of every page is named by one position across both tables. -/
  named_once : ∀ n k, h.tables.storage.HasCell n k → ∃! p, h.tables.Names p n k
  /-- What black cells and live roots hold resolves to live cells that are not white. -/
  references : ∀ l c handle, h.Scanned l → h.cell? l = some c → handle ∈ c.handles →
    ∃ m color, h.resolve handle = some m ∧ h.tables.color? m = some color ∧ color ≠ .white

variable {h : Heap} {l : Location} {c : Cell} {handle : Handle}

/-- A handle that resolves does so to a live cell. -/
theorem safely_iff : h.Safely handle ↔
    ∃ m color, h.resolve handle = some m ∧ h.tables.color? m = some color ∧ color ≠ .white := by
  constructor
  · rintro ⟨m, hres, hwhite⟩
    obtain ⟨-, -, hlive, -⟩ := resolve_eq_some_iff.1 hres
    obtain ⟨color, hcolor⟩ := Option.isSome_iff_exists.1 hlive
    refine ⟨m, color, hres, hcolor, ?_⟩
    rintro rfl
    exact hwhite hcolor
  · rintro ⟨m, color, hres, hcolor, hwhite⟩
    refine ⟨m, hres, ?_⟩
    rw [hcolor, ne_eq, Option.some.injEq]
    exact hwhite

/-- A stored cell is on a page. -/
theorem hasCell_of_cell? (hc : h.cell? l = some c) :
    h.tables.storage.HasCell l.page.toNat l.offset.toNat := by
  obtain ⟨page, hpage, hcell⟩ := Option.bind_eq_some_iff.1 hc
  exact ⟨page, hpage, (Array.getElem?_eq_some_iff.1 hcell).1⟩

/-- Cells that record their positions are named once, when no slot names the cell of the entry with the same
number. -/
theorem Passes.distinct (hp : h.Passes) : h.tables.Distinct := by
  have hcross : ∀ (i j : Nat) l, h.tables.named? (.slot i) = some l → h.tables.named? (.entry j) = some l →
      False := by
    intro i j l hi hj
    obtain ⟨e, he, rfl⟩ := Option.map_eq_some_iff.1 hj
    obtain ⟨rfl, -⟩ := (hp.slots i _ hi).unique (hp.entries j e he).1
    exact hp.apart i e he hi
  rintro (i | i) (j | j) l hi hj
  · rw [((hp.slots i l hi).unique (hp.slots j l hj)).1]
  · exact (hcross i j l hi hj).elim
  · exact (hcross j i l hj hi).elim
  · obtain ⟨e, he, rfl⟩ := Option.map_eq_some_iff.1 hi
    obtain ⟨e', he', heq⟩ := Option.map_eq_some_iff.1 hj
    have hrec := (hp.entries j e' he').1
    rw [heq] at hrec
    rw [((hp.entries i e he).1.unique hrec).1]

section Stored

variable (hslots : ∀ (i : Nat) l, h.tables.zones.slots[i]? = some l → ∃ c, h.cell? l = some c)
  (hentries : ∀ (i : Nat) e, h.tables.roots.entries[i]? = some e → ∃ c, h.cell? e.location = some c)
include hslots hentries

/-- A position names a cell on a page. -/
theorem hasCell_of_named? (p : Tables.Position) (l : Location) (hp : h.tables.named? p = some l) :
    h.tables.storage.HasCell l.page.toNat l.offset.toNat := by
  cases p with
  | slot i =>
    obtain ⟨c, hc⟩ := hslots i l hp
    exact hasCell_of_cell? hc
  | entry i =>
    obtain ⟨e, he, rfl⟩ := Option.map_eq_some_iff.1 hp
    obtain ⟨c, hc⟩ := hentries i e he
    exact hasCell_of_cell? hc

/-- The position of a cell is the only one that names it. -/
theorem Consistent.distinct (hc : h.Consistent) : h.tables.Distinct := by
  intro p q l hp hq
  have hcell := hasCell_of_named? hslots hentries p l hp
  exact (hc.named_once _ _ hcell).unique ⟨l, hp, rfl, rfl⟩ ⟨l, hq, rfl, rfl⟩

/-- **All that the audit looks at is as it should be just if the heap is consistent.** The number of cells
stands for the cells that are named. -/
theorem passes_iff_consistent (hcells : h.tables.storage.cells = h.tables.storage.sizes.sum) :
    h.Passes ↔ h.Consistent := by
  have hstored := hasCell_of_named? hslots hentries
  constructor
  · intro hp
    refine ⟨hp.ordered, hp.slots, hp.entries, fun n k hcell => ?_, fun l c handle hl hc hmem => ?_⟩
    · have hcount := hp.counted
      rw [hcells] at hcount
      obtain ⟨p, hname⟩ := (hp.distinct.names_all_iff hstored).2 hcount n k hcell
      refine ⟨p, hname, fun q hq => ?_⟩
      -- a location is given by its page and its place there
      obtain ⟨l, hl, hpage, hplace⟩ := hname
      obtain ⟨m, hm, hpage', hplace'⟩ := hq
      have hsame : m = l :=
        Location.numbers_injective (Prod.ext (hpage'.trans hpage.symm) (hplace'.trans hplace.symm))
      rw [hsame] at hm
      exact hp.distinct q p l hm hl
    · exact safely_iff.1 (hp.references l c handle hl hc hmem)
  · intro hc
    have hdistinct := hc.distinct hslots hentries
    refine ⟨hc.ordered, hc.slots, hc.entries, fun i e he hslot => ?_, ?_, fun l c handle hl hcell hmem => ?_⟩
    · have hsame := hdistinct (.slot i) (.entry i) e.location hslot (by rw [Tables.named?, he, Option.map_some])
      cases hsame
    · rw [hcells]
      exact (hdistinct.names_all_iff hstored).1 fun n k hcell => (hc.named_once n k hcell).exists
    · exact safely_iff.2 (hc.references l c handle hl hcell hmem)

end Stored

/-- **For every heap, after any run or with tables and cells that were changed behind its back, the check passes
just if the heap is consistent, as long as every slot and every entry names a stored cell. If it is not
consistent, it is reported as corrupt.** -/
theorem check_is_exact (h : Heap) (hmade : h.tables.storage.Made)
    (hslots : ∀ (i : Nat) l, h.tables.zones.slots[i]? = some l → ∃ c, h.cell? l = some c)
    (hentries : ∀ (i : Nat) e, h.tables.roots.entries[i]? = some e → ∃ c, h.cell? e.location = some c) :
    (h.check = .ok () ↔ h.Consistent) ∧
      (¬ h.Consistent → ∃ reason, h.check = .error (.error (.corrupt reason))) := by
  have hdecides : Decides h.audit h.Consistent :=
    (decides_audit hslots hentries).congr (passes_iff_consistent hslots hentries hmade.cells_eq)
  constructor
  · rw [← hdecides.ok_iff, check]
    cases h.audit <;> simp
  · intro hno
    obtain ⟨v, hv⟩ := hdecides.exists_violation hno
    exact ⟨v.message, by rw [check, hv]; rfl⟩

/-- A heap with a page of two cells, of which one is named by no position. -/
def halfNamed : Heap where
  id := 0
  sizing := ⟨2, 1, none⟩
  kinds := .standard
  tables := ⟨Outcome.state (Storage.addPage 2 0 (.ofLimit none)), ⟨#[⟨0, 0⟩], 0, 0, 0, 0⟩, .empty⟩

/-- The cell without a name is missed in the count. -/
theorem check_halfNamed :
    halfNamed.check = .error (.error (.corrupt "2 cells stored but 1 reachable from the tables")) ∧
      ¬ halfNamed.Consistent := by
  have haudit : halfNamed.audit = .error (.error (.unnamed 2 1)) := rfl
  have hcheck :
      halfNamed.check = .error (.error (.corrupt "2 cells stored but 1 reachable from the tables")) := by
    rw [check, haudit]
    rfl
  have hmade : halfNamed.tables.storage.Made := .addPage 2 0 (.run 0 ⟨2, 1, none⟩ .empty [])
  have hslots : ∀ (i : Nat) l, halfNamed.tables.zones.slots[i]? = some l →
      ∃ c, halfNamed.cell? l = some c := by
    intro i l hi
    obtain ⟨hlt, rfl⟩ := Array.getElem?_eq_some_iff.1 hi
    obtain rfl : i = 0 := Nat.lt_one_iff.1 hlt
    exact ⟨.spare 0, rfl⟩
  have hentries : ∀ (i : Nat) e, halfNamed.tables.roots.entries[i]? = some e →
      ∃ c, halfNamed.cell? e.location = some c := by
    intro i e he
    cases he
  refine ⟨hcheck, fun hconsistent => ?_⟩
  have hpasses := (check_is_exact halfNamed hmade hslots hentries).1.2 hconsistent
  rw [hcheck] at hpasses
  cases hpasses

end ConsHeap.Heap
