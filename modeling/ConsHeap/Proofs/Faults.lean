import ConsHeap.Proofs.Drawing

/-!
# No faults

A fault is a promise between the tables that is broken: a slot, an entry or a cell that is not there, a
number below zero, or a condition of a move that is not met. Sound tables keep all of these, so no move
ends in one, whatever its operands are. Actions do not catch faults for good, so none happens on the way
either.

* `Outcome.Faultless`: an answer or a refusal.
* `Heap.answers_of_live`: questions about a live cons find its cell.
* `Memory.Good.faultless`: no move of a good memory faults.
* `Memory.nothing_faults`: **no move and no question faults after any run.**

Counts and sizes are natural numbers here, so that no sum is too large for its word.
-/

namespace ConsHeap

variable {ε σ α β : Type}

/-- Holds of the outcomes that are an answer or a refusal. -/
def Outcome.Faultless (x : EStateM.Result (Failure ε) σ α) : Prop := ∀ f, answer x ≠ .error (.fault f)

namespace Outcome

theorem faultless_ok (a : α) (s : σ) : Faultless (.ok a s : EStateM.Result (Failure ε) σ α) := by
  intro f h
  cases h

theorem faultless_error (e : ε) (s : σ) :
    Faultless (.error (.error e) s : EStateM.Result (Failure ε) σ α) := by
  intro f h
  cases h

/-- Another answer in place of an answer is no fault. -/
theorem Faultless.map {x : EStateM (Failure ε) σ α} {s : σ} (h : Faultless (x s)) (f : α → β) :
    Faultless ((f <$> x) s) := by
  intro x' hx'
  cases hx : x s with
  | ok a t =>
    rw [map_ok hx] at hx'
    cases hx'
  | error e t =>
    rw [map_error hx] at hx'
    cases hx'
    rw [hx] at h
    exact h x' rfl

end Outcome

/-- What is drawn on a budget can be given back. -/
theorem Paging.Budget.used_pos_of_charge {b b' : Budget} (h : Budget.charge b = .ok () b') : 0 < b'.used := by
  rw [charge, bind_get] at h
  cases hspent : b.isSpent with
  | false =>
    simp only [hspent, Bool.false_eq_true, if_false] at h
    cases h
    exact Nat.succ_pos _
  | true =>
    simp only [hspent, if_true] at h
    cases h

/-- A cons that is live has a cell with a colour, and all that is asked about the cell is answered. -/
theorem Heap.answers_of_live {h : Heap} {x : Value} {l : Location} (hl : h.live x = .ok l) :
    (∃ color, h.tables.color? l = some color ∧ h.color x = .ok color) ∧
      ∃ c, h.cell? l = some c ∧ h.slot x = .ok c.slot ∧ ∀ side, h.child side x = .ok (c.child side) := by
  obtain ⟨tag, handle, rfl, hres⟩ := live_eq_ok_iff.1 hl
  obtain ⟨-, rfl, hlive, c, hc, -⟩ := resolve_eq_some_iff.1 hres
  obtain ⟨color, hcolor⟩ := Option.isSome_iff_exists.1 hlive
  refine ⟨⟨color, hcolor, ?_⟩, c, hc, ?_, fun side => ?_⟩
  · rw [Heap.color, hl]
    simp only [bind, Except.bind, hcolor]
    rfl
  · rw [slot, liveCell_of_resolve hres hc]
    rfl
  · rw [child, liveCell_of_resolve hres hc]
    rfl

namespace Memory

variable {m : Memory}

/-- No operation faults. -/
theorem Good.faultless_operation (hg : m.Good) (op : Operation Value) : Outcome.Faultless (op.run m) := by
  obtain ⟨r, -, -, -, hanswer⟩ := after_operate hg.sound op
  intro f hf
  rw [hanswer] at hf
  cases r with
  | ok a => cases hf
  | error e => cases hf

/-- **No move of a good memory faults.** -/
theorem Good.faultless (hg : m.Good) (mv : Move) : Outcome.Faultless (mv.run m) := by
  cases mv with
  | operate op => exact (hg.faultless_operation op).map _
  | register tag kind =>
    rw [Move.run]
    rcases register_cases m tag kind with ⟨e, he⟩ | ⟨kinds, hok⟩
    · rw [he]
      exact Outcome.faultless_error _ _
    · rw [hok]
      exact Outcome.faultless_ok _ _
  | object tag body =>
    rw [Move.run]
    rcases object_cases m tag body with ⟨e, he⟩ | ⟨tag', hok⟩
    · rw [map_error he]
      exact Outcome.faultless_error _ _
    · rw [map_ok hok]
      exact Outcome.faultless_ok _ _
  | standard tag body =>
    rw [Move.run, map_ok (standard_ok m tag body)]
    exact Outcome.faultless_ok _ _
  | retain x => exact Outcome.faultless_ok _ _
  | release x => exact Outcome.faultless_ok _ _
  | supply memory => exact Outcome.faultless_ok _ _

/-- **After any run of a heap of any sizing, nothing faults. Every move ends in an answer or a refusal,
whatever handles, tags, values and budgets it works on. The counts of roots and the sizes of the zones are
numbers, and the audit runs to its end. Everything asked about a live cons is found in its cell, and what
is printed is refused only if it is no live cons itself. The live entries are within the root table, and
no page is given back that was not drawn.** -/
theorem nothing_faults (id : UInt32) (sizing : Sizing) (ledger : Ledger) (moves : List Move) :
    let m := (start id sizing ledger).runs moves
    (∀ op : Operation Value, Outcome.Faultless (op.run m)) ∧
      (∀ mv : Move, Outcome.Faultless (mv.run m)) ∧
      (∀ x, ∃ n, m.heap.rootCount x = .ok n) ∧ (∃ o, m.heap.occupancy = .ok o) ∧
      m.heap.check = .ok () ∧
      (∀ x l, m.heap.live x = .ok l → (∃ color, m.heap.color x = .ok color) ∧
        ∃ c, m.heap.cell? l = some c ∧ m.heap.slot x = .ok c.slot ∧
          ∀ side, m.heap.child side x = .ok (c.child side)) ∧
      (∀ x, (∃ text, m.heap.print x = .ok text) ∨
        ∃ e, m.heap.print x = .error e ∧ m.heap.live x = .error e) ∧
      m.heap.tables.roots.live ≤ m.heap.tables.roots.capacity ∧
      ∀ b b' : Paging.Budget, Paging.Budget.charge b = .ok () b' → 0 < b'.used := by
  intro m
  have hg : m.Good := good_runs id sizing ledger moves
  refine ⟨hg.faultless_operation, hg.faultless, hg.rootCount_ok, hg.occupancy_ok, hg.check, ?_,
    hg.print_cases, hg.sound.roots.live_le, fun b b' => Paging.Budget.used_pos_of_charge⟩
  intro x l hl
  obtain ⟨⟨color, -, hcolor⟩, hcell⟩ := Heap.answers_of_live hl
  exact ⟨⟨color, hcolor⟩, hcell⟩

end Memory

end ConsHeap
