import ConsHeap.Proofs.Memory.Runs

/-!
# Scanning in increments

The loop of a scan ends early when no grey cell is left, and each turn of it may add grey cells. Still it
does not matter how the marking is split: a scan has no memory of its own, and where one stops the next
goes on.

* `Heap.scanFrom_add`, `Heap.scan_add`: a scan with the sum of two budgets is a scan with the one and then
  one with the other. That holds in any state, also where a scan fails.
* `Heap.sum_mapM_scan`: so it is with any list of budgets.
* `Heap.collect_of_scan`: after any scan a collection ends as without it.
* `Memory.scanning_in_increments`: **however the marking of a cycle is split, the heap and the numbers are
  those of a single scan and of a single collection.**
-/

namespace ConsHeap

namespace Tables

variable {t u : Tables}

/-- Without a grey cell, blackening does nothing. -/
theorem blacken_of_no_grey (h : t.zones.hasGrey = false) : blacken t = .ok none t := by
  rw [blacken, bind_get]
  simp [h]

/-- With a grey cell, blackening answers with a cell or fails. -/
theorem no_grey_of_blacken (h : blacken t = .ok none u) : t.zones.hasGrey = false := by
  rw [← Bool.not_eq_true]
  intro hgrey
  rw [blacken, bind_get] at h
  simp only [hgrey, Bool.not_true, Bool.false_eq_true, if_false] at h
  split at h
  · obtain ⟨-, t₁, -, h⟩ := exists_of_bind_eq_ok h
    obtain ⟨l, t₂, -, h⟩ := exists_of_bind_eq_ok h
    cases h
  · obtain ⟨l, t₁, -, h⟩ := exists_of_bind_eq_ok h
    cases h

end Tables

namespace Heap

variable {h h' : Heap}

/-! ## Where nothing is left to scan -/

/-- Blackening answers that nothing is left just where that is so, and then it changes nothing. -/
theorem isScanned_of_blacken (hnone : onTables Tables.blacken h = .ok none h') :
    h' = h ∧ h.isScanned = true := by
  obtain ⟨u, hu, rfl⟩ := exists_of_onTables_eq_ok hnone
  have hgrey := Tables.no_grey_of_blacken hu
  rw [Tables.blacken_of_no_grey hgrey] at hu
  cases hu
  exact ⟨rfl, by simp [isScanned, hgrey]⟩

/-- Where nothing is left to scan, a scan ends at once. -/
theorem scanFrom_of_isScanned (hscanned : h.isScanned = true) (done budget : Nat) :
    scanFrom done budget h = .ok done h := by
  obtain ⟨id, sizing, kinds, t⟩ := h
  cases budget with
  | zero => rfl
  | succ budget =>
    have hgrey : t.zones.hasGrey = false := by simpa [isScanned] using hscanned
    rw [scanFrom, bind_ok (onTables_ok (Tables.blacken_of_no_grey hgrey))]
    rfl

/-! ## Sums of budgets -/

/-- A scan with a sum of budgets goes on with the second where the first is spent. -/
theorem scanFrom_add (a b done : Nat) :
    scanFrom done (a + b) = (scanFrom done a >>= fun n => scanFrom n b) := by
  induction a generalizing done with
  | zero => rw [Nat.zero_add, scanFrom, pure_bind]
  | succ a ih =>
    funext h
    rw [Nat.succ_add, scanFrom, scanFrom, bind_assoc]
    refine bind_congr_ok fun o h₁ ho => ?_
    cases o with
    | none =>
      -- a first scan that ends early leaves nothing for the second
      obtain ⟨rfl, hscanned⟩ := isScanned_of_blacken ho
      exact (scanFrom_of_isScanned hscanned done b).symm
    | some l => simp only [bind_assoc, ih]

/-- What was done before is only added to what a scan returns. -/
theorem scanFrom_eq_map (done budget : Nat) : scanFrom done budget = (done + ·) <$> scan budget := by
  rw [scan]
  -- the induction needs any number of cells on the right, too
  suffices h : ∀ n, scanFrom (done + n) budget = (done + ·) <$> scanFrom n budget from h 0
  induction budget with
  | zero =>
    intro n
    rw [scanFrom, scanFrom, map_pure]
  | succ budget ih =>
    intro n
    rw [scanFrom, scanFrom, map_bind]
    congr 1
    funext o
    cases o with
    | none => simp
    | some l => simp [ih, Nat.add_assoc]

/-- A scan with the sum of two budgets is a scan with the one and then one with the other. -/
theorem scan_add (a b : Nat) : scan (a + b) = do
    let x ← scan a
    let y ← scan b
    return x + y := by
  rw [scan, scanFrom_add]
  congr 1
  funext x
  rw [scanFrom_eq_map, map_eq_pure_bind]

/-- Scans with any budgets, one after the other, are a scan with their sum. -/
theorem sum_mapM_scan (budgets : List Nat) : List.sum <$> budgets.mapM scan = scan budgets.sum := by
  induction budgets with
  | nil => rfl
  | cons budget budgets ih =>
    rw [List.mapM_cons, List.sum_cons, scan_add, map_bind]
    congr 1
    funext n
    rw [← ih]
    simp

/-! ## The collection after it -/

/-- After any scan a collection ends as without it. -/
theorem collect_of_scan {budget n : Nat} (hs : h.tables.Sound) (hok : scan budget h = .ok n h') :
    collect h' = collect h := by
  obtain ⟨g, n₁, w, hok₁, -, hb₁, hend₁⟩ := scan_wholeHeap_ok hs
  have hs' : h'.tables.Sound := by
    obtain ⟨g', n', w', hok', -, hb', -⟩ := scan_ok hs budget
    rw [hok] at hok'
    cases hok'
    exact hb'.sound
  obtain ⟨g', n₂, -, hok₂, -⟩ := scan_wholeHeap_ok hs'
  -- both scans with a budget for the whole heap end where one with both budgets does
  have hscanned : g.isScanned = true := by
    rw [isScanned_iff hb₁.sound, hb₁.view]
    exact hend₁
  have hrest : scan budget g = .ok 0 g := scanFrom_of_isScanned hscanned 0 budget
  have hfirst : scan (wholeHeap + budget) h = .ok n₁ g := by
    rw [scan_add, bind_ok hok₁, bind_ok hrest]
    rfl
  have hlast : scan (wholeHeap + budget) h = .ok (n + n₂) g' := by
    rw [Nat.add_comm, scan_add, bind_ok hok, bind_ok hok₂]
    rfl
  obtain rfl : g = g' := by
    rw [hfirst] at hlast
    cases hlast
    rfl
  rw [collect, bind_ok hok₁, bind_ok hok₂]

end Heap

namespace Memory

/-- **After any run, a scan with one budget and then a scan with another leave just the heap that a scan
with the sum of both leaves, and the numbers that they return add up to the one that it returns. So it is
with the scans of any list of budgets, none of which fails. A collection after them returns what a
collection without them returns, and leaves the same heap.** -/
theorem scanning_in_increments (id : UInt32) (sizing : Sizing) (ledger : Ledger) (moves : List Move) :
    let h := ((start id sizing ledger).runs moves).heap
    (∀ a b, ∃ x y h₁ h₂, Heap.scan a h = .ok x h₁ ∧ Heap.scan b h₁ = .ok y h₂ ∧
      Heap.scan (a + b) h = .ok (x + y) h₂) ∧
      ∀ budgets : List Nat, ∃ ns h' n h'', budgets.mapM Heap.scan h = .ok ns h' ∧
        Heap.scan budgets.sum h = .ok ns.sum h' ∧
        Heap.collect h' = .ok n h'' ∧ Heap.collect h = .ok n h'' := by
  intro h
  have hs : h.tables.Sound := (good_runs id sizing ledger moves).sound
  refine ⟨fun a b => ?_, fun budgets => ?_⟩
  · obtain ⟨h₁, x, w, hok₁, -, hb₁, -⟩ := Heap.scan_ok hs a
    obtain ⟨h₂, y, -, hok₂, -⟩ := Heap.scan_ok hb₁.sound b
    refine ⟨x, y, h₁, h₂, hok₁, hok₂, ?_⟩
    rw [Heap.scan_add, bind_ok hok₁, bind_ok hok₂]
    rfl
  · obtain ⟨h', total, -, hsum, -⟩ := Heap.scan_ok hs budgets.sum
    obtain ⟨h'', n, -, hcollect, -⟩ := Heap.collect_ok hs
    -- the scans answer, since the scan with their sum does
    have hlist : ∃ ns, budgets.mapM Heap.scan h = .ok ns h' ∧ ns.sum = total := by
      rw [← Heap.sum_mapM_scan] at hsum
      cases hns : budgets.mapM Heap.scan h with
      | ok ns g =>
        rw [map_ok hns] at hsum
        cases hsum
        exact ⟨ns, rfl, rfl⟩
      | error e g =>
        rw [map_error hns] at hsum
        cases hsum
    obtain ⟨ns, hns, rfl⟩ := hlist
    exact ⟨ns, h', n, h'', hns, hsum, (Heap.collect_of_scan hs hsum).trans hcollect, hcollect⟩

end Memory

end ConsHeap
