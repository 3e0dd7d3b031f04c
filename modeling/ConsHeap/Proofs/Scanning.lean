import ConsHeap.Proofs.Colors
import ConsHeap.Proofs.View.Pending
import ConsHeap.Proofs.View.Population

/-!
# What a scan does

Scanning is a loop over a zone of the cons table that it shortens at one end and lengthens at the other.
What it comes to can be told from the references alone.

* `Heap.Leads`, `Heap.pending`: the cells to which references lead, and the cells that are left to scan.
* `Heap.condemned`: the white cells that no scan will come to.
* `Memory.Good.pending_eq`: these are the cells that are left in the view of the heap.
* `Memory.Good.scan_ok`, `Memory.Good.collect_ok`: how a scan and a collection end.
* `Memory.scan_marks_what_is_pending`: **a scan makes just these cells black, as many as its budget allows,
  and a collection reclaims just the condemned ones.**
-/

namespace ConsHeap

namespace Heap

/-- References lead from one cell to another, in any number of steps: by a car or a cdr, or by a value that
a closure there has captured, at any depth. -/
def Leads (h : Heap) : Location → Location → Prop := Relation.ReflTransGen fun l m => m ∈ h.refs l

/-- The cells that are left to scan: the grey ones, and the white ones to which references lead from them. -/
def pending (h : Heap) : Set Location :=
  {m | h.tables.color? m = some .grey ∨
    h.tables.color? m = some .white ∧ ∃ l, h.tables.color? l = some .grey ∧ h.Leads l m}

/-- The white cells to which no reference leads from a grey one. -/
def condemned (h : Heap) : Set Location :=
  {m | h.tables.color? m = some .white ∧ ∀ l, h.tables.color? l = some .grey → ¬ h.Leads l m}

/-- A white cell is condemned, or it is left to scan. -/
theorem mem_condemned_iff {h : Heap} {m : Location} :
    m ∈ h.condemned ↔ h.tables.color? m = some .white ∧ m ∉ h.pending := by
  constructor
  · rintro ⟨hw, hno⟩
    refine ⟨hw, ?_⟩
    rintro (hg | ⟨-, l, hl, hlead⟩)
    · rw [hw] at hg
      cases hg
    · exact hno l hl hlead
  · rintro ⟨hw, hp⟩
    exact ⟨hw, fun l hl hlead => hp (.inr ⟨hw, l, hl, hlead⟩)⟩

end Heap

namespace Memory

variable {m : Memory} {h h' : Heap} {ledger : Ledger} {l : Location}

/-- What is left to scan in a good heap is what is left in its view. -/
theorem Good.pending_eq (hg : m.Good) : m.heap.pending = {l | m.heap.view.Pends l} := by
  ext l
  rw [Set.mem_ofPred_eq, hg.safe.pends_iff, Heap.refs_view]
  rfl

/-- A scan takes as many cells as its budget allows, and no grey one is left when it can take them all. -/
theorem Good.scan_ok (hg : m.Good) (budget : Nat) :
    ∃ h' w, Heap.scan budget m.heap = .ok (min budget m.heap.pending.ncard) h' ∧
      m.heap.view.Scans (min budget m.heap.pending.ncard) w ∧ h'.view = w ∧
      (m.heap.pending.ncard ≤ budget → ∀ l, w.color l ≠ some .grey) := by
  obtain ⟨h', n, w, hok, hscans, hb, hle, hend⟩ := Heap.scan_ok hg.sound budget
  have hcard := hscans.ncard_pends
  -- the loop stops before its budget is spent only when nothing is left
  have hdone : n < budget → {l | w.Pends l}.ncard = 0 := by
    intro hlt
    rw [Set.ncard_eq_zero (Set.toFinite _), Set.eq_empty_iff_forall_notMem]
    exact View.not_pends (hend hlt)
  have hmin : min budget m.heap.pending.ncard = n := by
    rw [hg.pending_eq]
    omega
  rw [hmin]
  refine ⟨h', w, hok, hscans, hb.view, fun hall l hl => ?_⟩
  have hleft : {l | w.Pends l} = ∅ := by
    rw [hg.pending_eq] at hall
    rw [← Set.ncard_eq_zero (Set.toFinite _)]
    omega
  exact Set.eq_empty_iff_forall_notMem.1 hleft l (.grey hl)

/-- A collection is never refused. The cells that are black or roots at the end of its scan stay, and the
white ones, which it reclaims, are the condemned ones. -/
theorem Good.collect_ok (hg : m.Good) :
    ∃ h' u, Heap.collect m.heap = .ok m.heap.condemned.ncard h' ∧ h'.view = View.sweep u ∧
      m.heap.view.Recolored u ∧ (∀ l, u.color l ≠ some .grey) ∧
      ∀ l, u.color l = some .white ↔ l ∈ m.heap.condemned := by
  obtain ⟨h', n, w, hok, hcollects, hb⟩ := Heap.collect_ok hg.sound
  obtain ⟨hscans, hend, hnodup, hls⟩ := hcollects
  rename_i k u ls
  have hwhite : ∀ l, u.color l = some .white ↔ l ∈ m.heap.condemned := by
    intro l
    rw [hscans.color_eq_white_iff hend, Heap.mem_condemned_iff, hg.pending_eq]
    rfl
  have hcard : m.heap.condemned.ncard = ls.length :=
    ncard_eq_length hnodup fun l => (hls l).trans (hwhite l)
  exact ⟨h', u, by rw [hok, hcard], hb.view, hscans.recolored, hend, hwhite⟩

/-- **After any run, a scan with any budget ends, and returns the lesser of the budget and the number of the
cells that are left to scan. When the budget is enough for these, then the black cells are the former ones
and these, no cell is grey, and the white cells are the former ones without these. So a collection is never
refused. It returns the number of the white cells to which no reference leads from a grey one. These die,
all others stay alive, and the handles of these, and no others, cease to resolve.** -/
theorem scan_marks_what_is_pending (id : UInt32) (sizing : Sizing) (ledger : Ledger) (moves : List Move) :
    let h := ((start id sizing ledger).runs moves).heap
    (∀ budget, ∃ h', Heap.scan budget h = .ok (min budget h.pending.ncard) h' ∧
      (h.pending.ncard ≤ budget →
        (∀ l, h'.tables.color? l = some .black ↔ h.tables.color? l = some .black ∨ l ∈ h.pending) ∧
        (∀ l, h'.tables.color? l ≠ some .grey) ∧
        ∀ l, h'.tables.color? l = some .white ↔ h.tables.color? l = some .white ∧ l ∉ h.pending)) ∧
      ∃ h', Heap.collect h = .ok h.condemned.ncard h' ∧
        (∀ l, h'.tables.color? l = none ↔ h.tables.color? l = none ∨ l ∈ h.condemned) ∧
        ∀ handle l, h.resolve handle = some l → (h'.resolve handle = some l ↔ l ∉ h.condemned) := by
  intro h
  have hg : Good ⟨h, ((start id sizing ledger).runs moves).ledger⟩ := good_runs id sizing ledger moves
  have hpending : h.pending = {l | h.view.Pends l} := hg.pending_eq
  refine ⟨fun budget => ?_, ?_⟩
  · obtain ⟨h', w, hok, hscans, hview, hend⟩ := hg.scan_ok budget
    refine ⟨h', hok, fun hall => ?_⟩
    have hend := hend hall
    rw [hpending, ← Heap.view_color, hview]
    exact ⟨fun l => hscans.color_eq_black_iff hend, hend, fun l => hscans.color_eq_white_iff hend⟩
  · obtain ⟨h', u, hok, hview, hrec, hend, hwhite⟩ := hg.collect_ok
    -- with no grey cell left, what lives on is what lived and was not white
    have hkept : ∀ l, u.color l = some .black ∨ u.color l = some .root ↔
        h.tables.color? l ≠ none ∧ l ∉ h.condemned := by
      intro l
      have hlive : u.color l ≠ none ↔ h.tables.color? l ≠ none := hrec.color_ne_none
      rw [← hlive, ← hwhite]
      have hgrey := hend l
      cases hu : u.color l with
      | none => simp
      | some color => cases color <;> simp_all
    refine ⟨h', hok, fun l => ?_, fun handle l hres => ?_⟩
    · rw [← not_iff_not, not_or, ← ne_eq, ← ne_eq, ← hkept, ← View.color_sweep_ne_none, ← hview]
      rfl
    · rw [← Heap.resolve_view, hview, View.resolve_sweep, hrec.resolve, Heap.resolve_view, hkept]
      have hlive : h.tables.color? l ≠ none :=
        Option.isSome_iff_ne_none.1 (Heap.resolve_eq_some_iff.1 hres).2.2.1
      simp [hres, hlive]

end Memory

end ConsHeap
