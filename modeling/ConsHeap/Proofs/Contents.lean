import ConsHeap.Proofs.Memory.Runs
import ConsHeap.Proofs.Outline
import ConsHeap.Proofs.View.Holders

/-!
# What cells hold

Cells go from slot to slot and from table to table, and their colours change. None of that touches what is
in them, and a cell that dies holds on to its values until its storage is used again.

* `Heap.stored`: what the cell at a location holds, be it live, dead or spare.
* `Heap.Retains`: everything outside a set of locations holds what it held.
* `Memory.Good.retains_of_not_stores`: operations that store nothing retain everything, and no object is
  counted otherwise than before.
* `Memory.Refills`, `Memory.Replaces`: a new cell and a new child, each written to one cell.
* `Memory.Good.cons_refills`, `Memory.Good.rootedCons_refills`, `Memory.Good.setChild_replaces`: that is all
  that the operations which store values do.
* `Memory.contents_change_where_stored`: **no relocation touches contents or runs a finalizer; a new cell
  takes the place of one spare cell, and a new child that of one child.**
-/

namespace ConsHeap

namespace Cell

/-- Storage that is used again holds something else than before, at least another generation. -/
theorem renew_ne (c : Cell) (tag : Tag) (car cdr : Value) : c.renew tag car cdr ≠ c := by
  intro h
  have hgen : c.generation + 1 = c.generation := congrArg Cell.generation h
  simp at hgen

end Cell

namespace Heap

variable {h h' : Heap} {w : View} {S : Set Location}

/-- What the cell at a location holds, wherever it is placed: both values, the tag and the generation. -/
def stored (h : Heap) (l : Location) : Option Cell := (h.cell? l).map Cell.contents

theorem stored_eq_contents (h : Heap) (l : Location) : h.stored l = h.view.contents l := rfl

/-- Outside `S`, the heap `h'` holds what `h` does: every cell that was there has what it had, and cells
that have come in were never used. -/
structure Retains (h : Heap) (S : Set Location) (h' : Heap) : Prop where
  kept : ∀ l ∉ S, h.stored l ≠ none → h'.stored l = h.stored l
  fresh : ∀ l ∉ S, h.stored l = none → h'.stored l = none ∨ h'.stored l = some (Cell.spare 0).contents

/-- After growth, the contents change only where something else is written. -/
theorem Retains.of_grows {v : View} (hview : h.view.Grows v) (hw : h'.view = w)
    (hwrite : ∀ l ∉ S, w.contents l = v.contents l) : h.Retains S h' where
  kept l hl hstored := by
    obtain ⟨c, hc⟩ := Option.ne_none_iff_exists'.1 hstored
    rw [hc, stored_eq_contents, hw, hwrite l hl]
    exact hview.kept l c hc
  fresh l hl hnone := by
    rw [stored_eq_contents, hw, hwrite l hl]
    cases hc : v.contents l with
    | none => exact .inl rfl
    | some c => exact .inr (by rw [hview.fresh l c hnone hc])

end Heap

namespace Memory

variable {m m' : Memory} {tag : Tag} {car cdr x : Value} {handle : Handle} {w : View}
  {op : Operation Value}

/-! ## Operations that store nothing -/

/-- An action on the heap changes no object. -/
theorem keeps_ledger_onHeap {α : Type} (act : HeapM α) : Keeps Memory.ledger (onHeap act) := by
  rintro ⟨h, ledger⟩
  cases hact : act h with
  | ok a h' =>
    rw [onHeap_ok hact]
    rfl
  | error e h' =>
    rw [onHeap_error hact]
    rfl

/-- Operations that store nothing work on the heap alone. -/
theorem keeps_ledger_of_not_stores (hop : op.stores = false) : Keeps Memory.ledger op.run := by
  intro m
  cases op with
  | cons | rootedCons | list | setChild => cases hop
  | root | unroot | shade | scan | startCycle | sweep | collect =>
    simp only [Operation.run, Outcome.state_map]
    exact keeps_ledger_onHeap _ m

/-- Operations that store nothing retain all contents, also when they are refused, and count no object
otherwise than before. -/
theorem Good.retains_of_not_stores (hg : m.Good) (hop : op.stores = false) :
    m.heap.Retains ∅ ((Move.operate op).after m).heap ∧ ((Move.operate op).after m).ledger = m.ledger := by
  obtain ⟨r, w, hb, he, -⟩ := after_operate hg.sound op
  obtain ⟨v, hv, hcontents⟩ := he.keeps hop
  refine ⟨.of_grows hv hb.view fun l _ => congrFun hcontents l, ?_⟩
  rw [Move.operate_after]
  exact keeps_ledger_of_not_stores hop m

/-! ## New cells -/

/-- A new cell is made in the storage at `l`, and nothing else is written. The cell there was spare, or has
come in. The new values are retained, and what it held before is released, the car first. -/
structure Refills (m : Memory) (tag : Tag) (car cdr : Value) (l : Location) (m' : Memory) : Prop where
  spare : m.heap.tables.color? l = none
  stored : m'.heap.stored l = some ((m.heap.view.stale l).renew tag car cdr)
  changed : m'.heap.stored l ≠ m.heap.stored l
  retains : m.heap.Retains {l} m'.heap
  ledger : m'.ledger = (((m.ledger.retain car).retain cdr).release (m.heap.view.stale l).car).release
    (m.heap.view.stale l).cdr

/-- A heap with the contents of the view `w`, in which the cell was made. -/
theorem refills_of_creates (hc : m.heap.view.Creates tag car cdr handle w)
    (hw : m'.heap.view.contents = w.contents)
    (hledger : m'.ledger = m.ledger.refilled car cdr (m.heap.view.stale handle.location)) :
    m.Refills tag car cdr handle.location m' := by
  obtain ⟨hv, hdead, hd⟩ := hc
  rename_i v l d
  have hstored : m'.heap.stored l = some ((m.heap.view.stale l).renew tag car cdr) := by
    rw [hv.stale_eq hd, Heap.stored_eq_contents, hw]
    exact Function.update_self ..
  refine ⟨?_, hstored, fun hsame => ?_, .of_grows hv rfl fun k hk => ?_, hledger⟩
  · rw [hv.color] at hdead
    exact hdead
  · -- a cell that was there has another generation now
    have hold : m.heap.view.stale l = (m.heap.view.stale l).renew tag car cdr := by
      conv_lhs => rw [View.stale, ← Heap.stored_eq_contents, ← hsame, hstored, Option.getD_some]
    exact Cell.renew_ne _ tag car cdr hold.symm
  · rw [hw]
    exact Function.update_of_ne hk ..

/-- A new cell is made in one spare cell. -/
theorem Good.cons_refills (hg : m.Good) (hok : cons tag car cdr m = .ok x m') :
    ∃ handle, x = .cons tag handle ∧ m.Refills tag car cdr handle.location m' := by
  rcases cons_cases hg.sound tag car cdr with
    ⟨e, m₁, -, herr, -⟩ | ⟨m₁, handle, w, hok₁, hb, -, -, hc, hledger⟩
  · rw [hok] at herr
    cases herr
  · rw [hok] at hok₁
    cases hok₁
    exact ⟨handle, rfl, refills_of_creates hc (congrArg View.contents hb.view) hledger⟩

/-- That a new cell becomes a root changes no contents. -/
theorem Good.rootedCons_refills (hg : m.Good) (hok : rootedCons tag car cdr m = .ok x m') :
    ∃ handle, x = .cons tag handle ∧ m.Refills tag car cdr handle.location m' := by
  rcases rootedCons_cases hg.sound tag car cdr with
    ⟨e, m₁, -, herr, -⟩ | ⟨m₁, handle, w, hok₁, hb, -, -, hc, hledger⟩
  · rw [hok] at herr
    cases herr
  · rw [hok] at hok₁
    cases hok₁
    have hroot : m'.heap.view.contents = w.contents := by
      rw [hb.view]
      rfl
    exact ⟨handle, rfl, refills_of_creates hc hroot hledger⟩

/-! ## New children -/

/-- The value `x` takes the place of the child on one side of the cell at `l`, and nothing else is written.
It is retained, and just that child is released. -/
structure Replaces (m : Memory) (side : Side) (l : Location) (x : Value) (m' : Memory) : Prop where
  live : m.heap.tables.color? l ≠ none
  stored : ∃ c, m.heap.stored l = some c ∧ m'.heap.stored l = some (c.setChild x side) ∧
    m'.ledger = (m.ledger.retain x).release (c.child side)
  retains : m.heap.Retains {l} m'.heap

/-- A new child takes the place of one child of a live cell. -/
theorem Good.setChild_replaces {side : Side} {target : Value} (hg : m.Good)
    (hok : setChild side target x m = .ok () m') :
    ∃ tag handle, target = .cons tag handle ∧ m.heap.resolve handle = some handle.location ∧
      m.Replaces side handle.location x m' := by
  rcases setChild_cases hg.sound side target x with
    ⟨e, -, herr⟩ | ⟨m₁, tag, handle, c, rfl, hok₁, hres, hc, -, hb, hledger⟩
  · rw [hok] at herr
    cases herr
  · rw [hok] at hok₁
    cases hok₁
    -- the barrier only shades
    have hcontents : m'.heap.view.contents =
        (m.heap.view.store handle.location (c.setChild x side)).contents := by
      rw [hb.view]
      exact (View.recolored_barrier _ _ _).contents
    have hstored : m'.heap.stored handle.location = some (c.setChild x side) := by
      rw [Heap.stored_eq_contents, hcontents]
      exact Function.update_self ..
    refine ⟨tag, handle, rfl, ?_, View.live_of_resolve hres, ⟨c, hc, hstored, hledger⟩,
      .of_grows (.refl _) rfl fun l hl => ?_⟩
    · rwa [Heap.resolve_view] at hres
    · rw [hcontents]
      exact Function.update_of_ne hl ..

/-! ## Any run -/

/-- **After any run, an operation other than one that makes a cell or exchanges a child leaves what is in
every cell, be it live, dead or spare, and every count, also when it is refused; so no finalizer runs. A
new cell, rooted or not, changes what is in just one cell, which was spare or has come in, and of what this
held first the car and then the cdr is released. A new child changes one side of one live cell, and just
the child that was there is released.** -/
theorem contents_change_where_stored (id : UInt32) (sizing : Sizing) (ledger : Ledger) (moves : List Move) :
    let m := (start id sizing ledger).runs moves
    (∀ op : Operation Value, op.stores = false →
      let m' := (Move.operate op).after m
      m.heap.Retains ∅ m'.heap ∧ m'.ledger = m.ledger) ∧
    (∀ tag car cdr x m', cons tag car cdr m = .ok x m' ∨ rootedCons tag car cdr m = .ok x m' →
      ∃ handle, x = .cons tag handle ∧ m.Refills tag car cdr handle.location m') ∧
    ∀ side target x m', setChild side target x m = .ok () m' →
      ∃ tag handle, target = .cons tag handle ∧ m.heap.resolve handle = some handle.location ∧
        m.Replaces side handle.location x m' := by
  intro m
  have hg : m.Good := good_runs id sizing ledger moves
  refine ⟨fun op hop => hg.retains_of_not_stores hop, ?_, fun side target x m' => hg.setChild_replaces⟩
  rintro tag car cdr x m' (hok | hok)
  · exact hg.cons_refills hok
  · exact hg.rootedCons_refills hok

end Memory

end ConsHeap
