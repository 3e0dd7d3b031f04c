import ConsHeap.Proofs.Memory.Runs
import ConsHeap.Proofs.View.Coloring

/-!
# What a refusal leaves behind

A value that is passed to an operation is held by its caller. With such values, every operation but a
list is refused without a trace. A list is made cell by cell from its end, and keeps the cells that were
made before the one that is refused.

* `Memory.refused_operation_changes_nothing`: **a refused operation that is no list leaves the heap and
  the ledger as they were.**
* `Memory.refused_list_keeps_its_end`: **a refused list leaves what a list of the items after the refused
  one leaves, and so changes nothing just when the last item is refused.**
-/

namespace ConsHeap

/-- The colours of the cells in a heap. -/
def Heap.coloring (h : Heap) : Coloring := h.tables.color?

namespace Memory

variable {m m' : Memory} {op : Operation Value} {items : List Value} {f : Failure HeapError}

/-! ## Single operations -/

/-- An operation that fails is refused, and is no list halfway through or leaves the state intact. -/
theorem Good.intact (hg : m.Good) (hop : ∀ items, op ≠ .list items) (h : op.run m = .error f m') :
    (∃ e, f = .error e) ∧ m.Intact op.operands m' := by
  rcases Operation.run_cases hg.sound op with
    ⟨a, m₁, w, hok, -, -⟩ | ⟨e, m₁, -, herr, hintact⟩ | ⟨items, e, m₁, w, -, rfl, -, -, -⟩
  · rw [hok] at h
    cases h
  · rw [herr] at h
    cases h
    exact ⟨⟨e, rfl⟩, hintact⟩
  · exact absurd rfl (hop items)

/-- **After any run, an operation other than a list that fails is refused, whatever its operands are and
whatever memory there is. The heap is as it was, with its tables, cells and pages. So is the ledger, with
all counts and without a further death, when the operands are held.** -/
theorem refused_operation_changes_nothing (id : UInt32) (sizing : Sizing) (ledger : Ledger)
    (moves : List Move) (op : Operation Value) (hop : ∀ items, op ≠ .list items)
    (f : Failure HeapError) (m' : Memory) :
    let m := (start id sizing ledger).runs moves
    op.run m = .error f m' →
      (∃ e, f = .error e) ∧ m'.heap = m.heap ∧
        ((∀ x ∈ op.operands, m.ledger.Holds x) → m'.ledger = m.ledger) := by
  intro m h
  have hg : m.Good := good_runs id sizing ledger moves
  obtain ⟨he, hintact⟩ := hg.intact hop h
  exact ⟨he, hintact.heap, hintact.ledger⟩

/-- With a limit of one page there is one for the cell, but none for its root. It is given back. -/
theorem refused_root_gives_page_back :
    let m := (start 0 ⟨1, 1, some 1⟩ .empty).runs [.standard .text (.text "a")]
    let x : Value := .object ⟨0, .text, none⟩ (.text "a")
    let m' := Outcome.state ((Operation.rootedCons .cons x .nil).run m)
    Outcome.answer ((Operation.rootedCons .cons x .nil).run m) = .error (.error .outOfMemory) ∧
      m'.heap = m.heap ∧ m'.ledger = m.ledger := by
  have hanswer : Outcome.answer
      ((Operation.rootedCons .cons (.object ⟨0, .text, none⟩ (.text "a")) .nil).run
        ((start 0 ⟨1, 1, some 1⟩ .empty).runs [.standard .text (.text "a")])) =
      .error (.error .outOfMemory) := rfl
  obtain ⟨-, hheap, hledger⟩ := refused_operation_changes_nothing 0 ⟨1, 1, some 1⟩ .empty
    [.standard .text (.text "a")] (.rootedCons .cons (.object ⟨0, .text, none⟩ (.text "a")) .nil)
    (by simp) (.error .outOfMemory) _ (Outcome.eq_error hanswer)
  refine ⟨hanswer, hheap, hledger fun y hy => ?_⟩
  rcases List.mem_pair.1 hy with rfl | rfl
  · exact Nat.one_pos
  · trivial

/-! ## Lists -/

/-- A list that fails is refused at the cell for one of its items, when those after it are listed. -/
theorem Good.list_error (hg : m.Good) (h : (Operation.list items).run m = .error f m') :
    ∃ e start item rest x m₁ w, f = .error e ∧ items = start ++ item :: rest ∧
      list rest m = .ok x m₁ ∧ cons .cons item x m₁ = .error f m' ∧ m₁.Intact [item, x] m' ∧
      m.heap.view.Lists rest x w ∧ m.heap.Becomes m₁.heap w := by
  rcases list_cases items hg.sound with
    ⟨e, m₂, start, item, rest, x, m₁, w, -, herr, hitems, hrest, hcons, hintact, hlists, hb⟩ |
    ⟨m₂, x, w, hok, -, -⟩
  · have herr' : (Operation.list items).run m = .error (.error e) m₂ := map_error herr
    rw [herr'] at h
    cases h
    exact ⟨e, start, item, rest, x, m₁, w, rfl, hitems, hrest, hcons, hintact, hlists, hb⟩
  · have hok' : (Operation.list items).run m = .ok (.value x) m₂ := map_ok hok
    rw [hok'] at h
    cases h

/-- **After any run, a list that fails is refused at one of its items. The state is what a list of the
items after that one leaves, but for the refusal of one more cell. Each of these items has a new white
cell. So the heap is as it was just when the refused item is the last one, and then the ledger is, too,
when the items are held.** -/
theorem refused_list_keeps_its_end (id : UInt32) (sizing : Sizing) (ledger : Ledger) (moves : List Move)
    (items : List Value) (f : Failure HeapError) (m' : Memory) :
    let m := (start id sizing ledger).runs moves
    (Operation.list items).run m = .error f m' →
      ∃ e start item rest x m₁, f = .error e ∧ items = start ++ item :: rest ∧
        list rest m = .ok x m₁ ∧ cons .cons item x m₁ = .error f m' ∧ m'.heap = m₁.heap ∧
        m.heap.coloring.Gains rest.length m'.heap.coloring ∧
        (m'.heap = m.heap ↔ rest = []) ∧
        (rest = [] → (∀ x ∈ items, m.ledger.Holds x) → m'.ledger = m.ledger) := by
  intro m h
  have hg : m.Good := good_runs id sizing ledger moves
  obtain ⟨e, start, item, rest, x, m₁, w, rfl, rfl, hrest, hcons, hintact, hlists, hb⟩ :=
    hg.list_error h
  have hgains : m.heap.coloring.Gains rest.length m'.heap.coloring := by
    have hcolor : m'.heap.coloring = w.color := by
      rw [hintact.heap]
      exact congrArg View.color hb.view
    rw [hcolor]
    exact hlists.gains
  refine ⟨e, start, item, rest, x, m₁, rfl, rfl, hrest, hcons, hintact.heap, hgains, ?_, ?_⟩
  · constructor
    · intro hsame
      rw [hsame] at hgains
      exact List.length_eq_zero_iff.1 hgains.eq_zero
    · rintro rfl
      cases hrest
      exact hintact.heap
  · rintro rfl hheld
    cases hrest
    refine hintact.ledger fun y hy => ?_
    rcases List.mem_pair.1 hy with rfl | rfl
    · exact hheld y (by simp)
    · trivial

/-- With a limit of one page with one cell, a list of two items is refused, and a part of it is left. -/
theorem refused_pair_keeps_its_end :
    let m := start 0 ⟨1, 1, some 1⟩ .empty
    let r := (Operation.list [.integer 1, .integer 2]).run m
    Outcome.answer r = .error (.error .outOfMemory) ∧
      ∃ start item rest x m₁, [.integer 1, .integer 2] = start ++ item :: rest ∧
        list rest m = .ok x m₁ ∧ (Outcome.state r).heap = m₁.heap := by
  have hanswer : Outcome.answer ((Operation.list [.integer 1, .integer 2]).run
      (start 0 ⟨1, 1, some 1⟩ .empty)) = .error (.error .outOfMemory) := rfl
  obtain ⟨-, start, item, rest, x, m₁, -, hitems, hrest, -, hheap, -, -, -⟩ :=
    refused_list_keeps_its_end 0 ⟨1, 1, some 1⟩ .empty [] [.integer 1, .integer 2] (.error .outOfMemory)
      _ (Outcome.eq_error hanswer)
  exact ⟨hanswer, start, item, rest, x, m₁, hitems, hrest, hheap⟩

/-- A list of two items that is refused for want of a second page leaves a white cell that was spare, on a
page that was not there. -/
theorem refused_pair_changes_heap :
    let m := start 0 ⟨1, 1, some 1⟩ .empty
    let r := (Operation.list [.integer 1, .integer 2]).run m
    let m' := Outcome.state r
    Outcome.answer r = .error (.error .outOfMemory) ∧ m'.heap ≠ m.heap ∧
      m.heap.coloring ⟨0, 0⟩ = none ∧ m'.heap.coloring ⟨0, 0⟩ = some .white ∧
      m.heap.tables.zones.capacity = 0 ∧ m'.heap.tables.zones.capacity = 1 ∧
      m.heap.tables.storage.budget.used = 0 ∧ m'.heap.tables.storage.budget.used = 1 := by
  refine ⟨rfl, fun hsame => ?_, rfl, rfl, rfl, rfl, rfl, rfl⟩
  have hused := congrArg (fun h : Heap => h.tables.storage.budget.used) hsame
  exact absurd hused (show ¬ 1 = 0 by decide)

end Memory

end ConsHeap
