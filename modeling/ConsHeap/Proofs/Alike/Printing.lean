import ConsHeap.Proofs.Alike.Heaps
import ConsHeap.Proofs.Drawing

/-!
# The text of values in heaps that differ in size

The text of a value does not show where its cells lie. It ends at a cell that the path has been through, and alike
heaps come back to the same cells.

* `Heap.Alike.printItem`, `Heap.Alike.printFrom`: values and cells along two paths that go together.
* `Heap.Alike.print`: **the text is the same.**
-/

namespace ConsHeap.Heap

namespace Alike

variable {M : Renaming} {n : UInt32} {h g : Heap} {l m : Location} {v w : Value} (hh : h.Alike M n g)
include hh

theorem printAtom (hv : v.Alike M w) (hno : v.isCons = false) : h.printAtom v = g.printAtom w := by
  rcases hv.cases with ⟨rfl, -⟩ | ⟨header, b, c, rfl, rfl, hbody⟩ | ⟨tag, k, k', rfl, rfl, -⟩
  · cases v with
    | object header b => cases b <;> simp only [Heap.printAtom, hh.kinds]
    | _ => rfl
  · have hshown : Value.shownObject header b = Value.shownObject header c := by
      rw [← Value.shownObject_outlineIn, hbody, Value.shownObject_outlineIn]
    cases b <;> cases c <;> simp only [Value.outlineIn, reduceCtorEq] at hbody
    case bytes.bytes => simp only [Heap.printAtom, hh.kinds]
    all_goals exact hshown
  · cases hno

/-- A value has the same text when the cells that it may be have. -/
theorem printItem {inner inner' : Location → Except HeapError String} (hv : v.Alike M w)
    (hinner : ∀ l m, M n l m → Answers Eq (inner l) (inner' m)) :
    Answers Eq (h.printItem inner v) (g.printItem inner' w) := by
  have hcons := hv.isCons
  cases hisCons : v.isCons with
  | false =>
    rw [Heap.printItem, Heap.printItem, ← hcons, hisCons]
    exact .ok (hh.printAtom hv hisCons)
  | true =>
    rw [Heap.printItem, Heap.printItem, ← hcons, hisCons]
    refine (hh.live hv).bind fun l m hlm => ?_
    refine (hinner l m hlm).bind ?_
    rintro text _ rfl
    exact .ok rfl

/-- A cell is on one path when the cell that it goes together with is on the other. -/
theorem mem_path_iff {path path' : List Location} (hpath : List.Forall₂ (M n) path path') (hlm : M n l m) :
    l ∈ path ↔ m ∈ path' := by
  induction hpath with
  | nil => simp
  | cons hab _ ih => rw [List.mem_cons, List.mem_cons, ih, hh.tables.unique hlm hab]

/-- The cells from one on have the same text. The path grows with every cell, so that fewer are left. -/
theorem printFrom {path path' : List Location} (hpath : List.Forall₂ (M n) path path') (hlm : M n l m) :
    Answers Eq (h.printFrom path l) (g.printFrom path' m) := by
  induction hn : (h.offPath path).length using Nat.strongRecOn generalizing path path' l m with
  | _ k ih =>
  subst hn
  obtain ⟨c, d, hc, hd, hcd⟩ := hh.tables.cell hlm
  rw [printFrom_of_cell hc, printFrom_of_cell hd]
  by_cases hon : l ∈ path
  · rw [if_pos hon, if_pos ((hh.mem_path_iff hpath hlm).1 hon)]
    exact .ok rfl
  rw [if_neg hon, if_neg (mt (hh.mem_path_iff hpath hlm).2 hon)]
  have hrest : ∀ l' m', M n l' m' → Answers Eq (h.printFrom (l :: path) l') (g.printFrom (m :: path') m') :=
    fun l' m' hlm' => ih _ (Heap.length_offPath_lt hc hon) (.cons hlm hpath) hlm' rfl
  refine (hh.printItem hcd.car hrest).bind ?_
  rintro car _ rfl
  have hcdr := hcd.cdr
  generalize c.cdr = v at hcdr ⊢
  generalize d.cdr = w at hcdr ⊢
  rcases hcdr.cases with ⟨rfl, hatom⟩ | ⟨header, b, b', rfl, rfl, -⟩ | ⟨tag, handle, handle', rfl, rfl, -⟩
  · cases v with
    | object | cons => cases hatom
    | nil => exact .ok rfl
    | _ => exact .ok (by rw [hh.printAtom hcdr rfl])
  · exact .ok (by rw [hh.printAtom hcdr rfl])
  · refine (hh.live hcdr).bind fun l' m' hlm' => ?_
    refine (hrest l' m' hlm').bind ?_
    rintro text _ rfl
    exact .ok rfl

/-- The text of a value is the same. -/
theorem print (hv : v.Alike M w) : Answers Eq (h.print v) (g.print w) :=
  hh.printItem hv fun _ _ hlm => hh.printFrom .nil hlm

end Alike

end ConsHeap.Heap
