import ConsHeap.Proofs.Safety

/-!
# Exactness of collection

* `Heap.collectAgain`: a number of collections with nothing in between.
* `Memory.second_collection_is_exact`: **after two collections, the live cells are those that the
  roots lead to. The second returns the number of the other live cells that it found, and any further
  one returns zero and keeps the same cells.**
-/

namespace ConsHeap

/-- Collect `k` times. The numbers that are returned are listed. -/
def Heap.collectAgain : Nat → HeapM (List Nat)
  | 0 => return []
  | k + 1 => do
    let n ← collect
    let ns ← collectAgain k
    return n :: ns

namespace Memory

variable {m : Memory} {h : Heap} {ledger : Ledger} {l : Location}

/-- A collection of a good heap gives a good heap. -/
theorem Good.collect (hg : Good ⟨h, ledger⟩) :
    ∃ n h', Heap.collect h = .ok n h' ∧ h.view.Collects n h'.view ∧ Good ⟨h', ledger⟩ := by
  obtain ⟨h', n, w, hok, hc, hb⟩ := Heap.collect_ok hg.sound
  refine ⟨n, h', hok, ?_, hb.sound, ?_⟩
  · rw [hb.view]
    exact hc
  · rw [hb.view]
    exact hc.safe hg.safe

/-- Collections of a marked heap in which all live cells are reached find nothing. -/
theorem Good.collectAgain_ok (k : Nat) : ∀ {h : Heap}, Good ⟨h, ledger⟩ → h.view.Marked →
    (∀ l, h.view.color l ≠ none ↔ h.view.Reach l) →
    ∃ h', Heap.collectAgain k h = .ok (List.replicate k 0) h' ∧
      ∀ l, h'.view.color l ≠ none ↔ h.view.color l ≠ none := by
  induction k with
  | zero => exact fun {h} _ _ _ => ⟨h, rfl, fun _ => Iff.rfl⟩
  | succ k ih =>
    intro h hg hm hlive
    obtain ⟨n, h₁, hok, hc, hg₁⟩ := hg.collect
    obtain rfl := hc.eq_zero hg.safe hm fun l => (hlive l).1
    have hkept : ∀ l, h₁.view.color l ≠ none ↔ h.view.color l ≠ none := fun l =>
      (hc.live_iff hg.safe hm).trans (hlive l).symm
    obtain ⟨h', hok', hlive'⟩ := ih hg₁ hc.marked fun l =>
      (hkept l).trans ((hlive l).trans (hc.reach hg.safe).symm)
    refine ⟨h', ?_, fun l => (hlive' l).trans (hkept l)⟩
    rw [Heap.collectAgain, bind_ok hok, bind_ok hok']
    rfl

/-- **After any run, two collections in a row leave exactly the cells to which the live roots lead,
and lose none of those. The second returns the number of the live cells that were no roots and to
which no root led when it began. Any number of further collections return zero, and keep the live
cells as they are.** -/
theorem second_collection_is_exact (id : UInt32) (sizing : Sizing) (ledger : Ledger) (moves : List Move) :
    let h := ((start id sizing ledger).runs moves).heap
    ∃ n₁ h₁ n₂ h₂, Heap.collect h = .ok n₁ h₁ ∧ Heap.collect h₁ = .ok n₂ h₂ ∧
      (∀ l, h₂.tables.color? l ≠ none ↔ h₂.Reachable l) ∧
      (∀ l, h₂.Reachable l ↔ h.Reachable l) ∧
      (∃ dead : List Location, dead.Nodup ∧ dead.length = n₂ ∧ ∀ l, l ∈ dead ↔
        h₁.tables.color? l ≠ none ∧ h₁.tables.color? l ≠ some .root ∧ ¬ h₁.Reachable l) ∧
      ∀ k, ∃ h₃, Heap.collectAgain k h₂ = .ok (List.replicate k 0) h₃ ∧
        ∀ l, h₃.tables.color? l ≠ none ↔ h₂.tables.color? l ≠ none := by
  intro h
  have hg : Good ⟨h, ((start id sizing ledger).runs moves).ledger⟩ := good_runs id sizing ledger moves
  obtain ⟨n₁, h₁, hok₁, hc₁, hg₁⟩ := hg.collect
  obtain ⟨n₂, h₂, hok₂, hc₂, hg₂⟩ := hg₁.collect
  have hlive : ∀ l, h₂.view.color l ≠ none ↔ h₂.view.Reach l := fun l =>
    (hc₂.live_iff hg₁.safe hc₁.marked).trans (hc₂.reach hg₁.safe).symm
  refine ⟨n₁, h₁, n₂, h₂, hok₁, hok₂, ?_, ?_, ?_, ?_⟩
  · intro l
    exact (hlive l).trans hg₂.reachable_iff.symm
  · intro l
    rw [hg₂.reachable_iff, hc₂.reach hg₁.safe, hc₁.reach hg.safe, ← hg.reachable_iff]
  · obtain ⟨dead, hnodup, hlen, hdead⟩ := hc₂.exists_dead hg₁.safe hc₁.marked
    refine ⟨dead, hnodup, hlen, fun l => (hdead l).trans ?_⟩
    rw [← hg₁.reachable_iff]
    constructor
    · rintro ⟨hl, hr⟩
      exact ⟨hl, fun hroot => hr (hg₁.reachable_iff.2 (.root hroot)), hr⟩
    · rintro ⟨hl, -, hr⟩
      exact ⟨hl, hr⟩
  · intro k
    obtain ⟨h₃, hok₃, hkept⟩ := hg₂.collectAgain_ok k hc₂.marked hlive
    exact ⟨h₃, hok₃, hkept⟩

end Memory

end ConsHeap
