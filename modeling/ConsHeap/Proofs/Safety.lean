import ConsHeap.Proofs.Memory.Runs

/-!
# Safety of incremental collection

* `Heap.Reachable`: the cells to which references lead from the live roots, whether or not the
  handles on the way resolve.
* `Memory.Good.reachable_iff`: after a run, these are the cells that are reached in the view.
* `Memory.reachable_cells_stay_live`: **they are live in every state, no move of any kind reclaims
  one, and no live cell holds a handle that does not resolve.**
-/

namespace ConsHeap

/-- The cells to which references lead from the live roots: in a car or a cdr, or in a value that a
closure there has captured, at any depth. -/
inductive Heap.Reachable (h : Heap) : Location → Prop where
  | root {l : Location} : l ∈ h.tables.roots.locations → h.Reachable l
  | child {l : Location} {cell : Cell} {handle : Handle} :
    h.Reachable l → h.cell? l = some cell → handle ∈ cell.handles → h.Reachable handle.location

namespace Memory

variable {m : Memory} {l : Location} {c : Cell} {handle : Handle}

/-- Every handle in a live cell resolves. -/
theorem Good.resolve_of_live (hg : m.Good) (hl : m.heap.tables.color? l ≠ none)
    (hc : m.heap.cell? l = some c) (hmem : handle ∈ c.handles) :
    m.heap.resolve handle = some handle.location := by
  obtain ⟨k, hk⟩ := Option.ne_none_iff_exists'.1
    (hg.safe.closed hl (Heap.contents_view hc) handle hmem)
  obtain rfl := View.eq_location hk
  rw [← Heap.resolve_view, hk]

/-- The cells to which references lead are those that are reached in the view. -/
theorem Good.reachable_iff (hg : m.Good) : m.heap.Reachable l ↔ m.heap.view.Reach l := by
  constructor
  · intro hr
    induction hr with
    | root hl => exact .root (hg.sound.mem_locations_iff.1 hl)
    | child _ hc hmem ih =>
      refine .step ih ⟨_, Heap.contents_view hc, _, hmem, ?_⟩
      rw [Heap.resolve_view]
      exact hg.resolve_of_live ih.live hc hmem
  · intro hr
    induction hr with
    | root hl => exact .root (hg.sound.mem_locations_iff.2 hl)
    | step _ hm ih =>
      obtain ⟨d, hd, handle, hmem, hres⟩ := hm
      obtain ⟨c, hc, rfl⟩ := Option.map_eq_some_iff.1 hd
      obtain rfl := View.eq_location hres
      exact .child ih hc hmem

/-- No move invalidates a handle of a cell to which references lead from the roots. -/
theorem Good.resolve_after (hg : m.Good) (mv : Move) (hr : m.heap.Reachable l)
    (hres : m.heap.resolve handle = some l) : (mv.after m).heap.resolve handle = some l := by
  rw [← Heap.resolve_view] at hres ⊢
  by_cases hmv : ∃ op, mv = .operate op
  · obtain ⟨op, rfl⟩ := hmv
    obtain ⟨r, w, hb, he, -⟩ := after_operate hg.sound op
    rw [hb.view]
    exact he.resolve hg.safe (hg.reachable_iff.1 hr) hres
  · rw [(after_of_ne_operate hg.sound (not_exists.1 hmv)).2, hres]

/-- **After any run, every cell to which references lead from the live roots is live, and every
handle in it resolves. No further move invalidates a handle of such a cell, a sweep or a collection
included. And no live cell of any colour holds a handle that does not resolve.** -/
theorem reachable_cells_stay_live (id : UInt32) (sizing : Sizing) (ledger : Ledger) (moves : List Move) :
    let m := (start id sizing ledger).runs moves
    (∀ l, m.heap.Reachable l → m.heap.tables.color? l ≠ none ∧ ∃ c, m.heap.cell? l = some c ∧
        ∀ handle ∈ c.handles, m.heap.resolve handle = some handle.location) ∧
      (∀ (mv : Move) handle l, m.heap.Reachable l → m.heap.resolve handle = some l →
        (mv.after m).heap.resolve handle = some l) ∧
      (∀ l c, m.heap.tables.color? l ≠ none → m.heap.cell? l = some c →
        ∀ handle ∈ c.handles, m.heap.resolve handle = some handle.location) := by
  intro m
  have hg : m.Good := good_runs id sizing ledger moves
  refine ⟨?_, ?_, ?_⟩
  · intro l hr
    have hlive : m.heap.tables.color? l ≠ none := (hg.reachable_iff.1 hr).live
    obtain ⟨c, hc⟩ := Tables.exists_cell hlive
    exact ⟨hlive, c, hc, fun handle hmem => hg.resolve_of_live hlive hc hmem⟩
  · intro mv handle l hr hres
    exact hg.resolve_after mv hr hres
  · intro l c hlive hc handle hmem
    exact hg.resolve_of_live hlive hc hmem

end Memory

end ConsHeap
