import ConsHeap.Proofs.Refinement
import ConsHeap.Proofs.Refusal

/-!
# The colours of cells

Operations move cells about in both tables. What they do to colours can be told without that: each one
changes the colours of a few cells, and no others.

* `Heap.named`, `Heap.refs`, `Heap.rootRefs`: the cells that handles, a cell and the roots refer to.
* `Heap.Recolors`: what an operation does to the colours in a heap, by its answer.
* `Memory.Good.recolors`: an effect on the view of a heap does this to its colours.
* `Memory.every_operation_recolors`: **after any run, every operation does this and nothing else.**
-/

namespace ConsHeap

namespace Heap

variable {h : Heap} {l m : Location}

/-- The cells that the handles stand for. -/
def named (h : Heap) (handles : List Handle) : Set Location :=
  {l | ∃ handle ∈ handles, h.resolve handle = some l}

/-- The cells to which a cell refers, in its values and in what closures there captured at any depth. -/
def refs (h : Heap) (l : Location) : Set Location :=
  {m | ∃ cell, h.cell? l = some cell ∧ m ∈ h.named cell.handles}

/-- The cells to which a root refers. -/
def rootRefs (h : Heap) : Set Location := {m | ∃ l, h.coloring l = some .root ∧ m ∈ h.refs l}

/-- What an operation does to the colours of the cells in a heap, by its answer. -/
inductive Recolors (h : Heap) : Operation Value → Except HeapError Result → Coloring → Prop where
  /-- A refused operation changes no colour. -/
  | refused {op : Operation Value} {e : HeapError} :
    (∀ items, op ≠ .list items) → Recolors h op (.error e) h.coloring
  /-- A new cell is white. -/
  | cons {tag : Tag} {car cdr : Value} {handle : Handle} :
    h.coloring handle.location = none →
    Recolors h (.cons tag car cdr) (.ok (.value (.cons tag handle)))
      (h.coloring.paint handle.location .white)
  /-- A new root is one, and the white cells to which its values refer become grey. -/
  | rootedCons {tag : Tag} {car cdr : Value} {handle : Handle} :
    h.coloring handle.location = none →
    Recolors h (.rootedCons tag car cdr) (.ok (.value (.cons tag handle)))
      ((h.coloring.shade (h.named (car.handles ++ cdr.handles))).paint handle.location .root)
  /-- A list has a new white cell for each item. -/
  | list {items : List Value} {x : Value} {c : Coloring} :
    h.coloring.Gains items.length c → Recolors h (.list items) (.ok (.value x)) c
  /-- A refused list has one for each item at its end. -/
  | listRefused {start items : List Value} {e : HeapError} {c : Coloring} :
    h.coloring.Gains items.length c → Recolors h (.list (start ++ items)) (.error e) c
  /-- A cell becomes a root, and the other white cells to which it refers become grey. -/
  | rootFirst {tag : Tag} {handle : Handle} {l : Location} :
    h.resolve handle = some l → h.coloring l ≠ some .root →
    Recolors h (.root (.cons tag handle)) (.ok .done) ((h.coloring.shade (h.refs l)).paint l .root)
  | rootAgain {tag : Tag} {handle : Handle} {l : Location} :
    h.resolve handle = some l → h.coloring l = some .root →
    Recolors h (.root (.cons tag handle)) (.ok .done) h.coloring
  /-- A root that loses its last count becomes black. -/
  | unrootLast {tag : Tag} {handle : Handle} {l : Location} :
    h.resolve handle = some l → h.rootCount (.cons tag handle) = .ok 1 →
    Recolors h (.unroot (.cons tag handle)) (.ok .done) (h.coloring.paint l .black)
  | unrootOne {tag : Tag} {handle : Handle} {n : Nat} :
    h.rootCount (.cons tag handle) = .ok n → 1 < n →
    Recolors h (.unroot (.cons tag handle)) (.ok .done) h.coloring
  /-- The white cells to which a value in a root or a black cell refers become grey. -/
  | setGuarded {side : Side} {tag : Tag} {handle : Handle} {x : Value} {l : Location} :
    h.resolve handle = some l → h.coloring l = some .root ∨ h.coloring l = some .black →
    Recolors h (.setChild side (.cons tag handle) x) (.ok .done) (h.coloring.shade (h.named x.handles))
  | setOther {side : Side} {tag : Tag} {handle : Handle} {x : Value} {l : Location} :
    h.resolve handle = some l → h.coloring l = some .grey ∨ h.coloring l = some .white →
    Recolors h (.setChild side (.cons tag handle) x) (.ok .done) h.coloring
  /-- A white cell becomes grey. -/
  | shade {tag : Tag} {handle : Handle} {l : Location} :
    h.resolve handle = some l →
    Recolors h (.shade (.cons tag handle)) (.ok .done) (h.coloring.shade {l})
  /-- Grey cells become black one by one, as many as are counted, and no grey one is left when the budget
  is not spent. -/
  | scan {budget n : Nat} {c : Coloring} :
    h.coloring.Marks h.refs n c → n ≤ budget → (n < budget → ∀ l, c l ≠ some .grey) →
    Recolors h (.scan budget) (.ok (.count n)) c
  | startCycle : Recolors h .startCycle (.ok .done) h.coloring
  /-- White cells die, and black ones become white, or grey where a root refers to them. -/
  | sweep {n : Nat} :
    (∀ l, h.coloring l ≠ some .grey) →
    Recolors h .sweep (.ok (.count n)) (h.coloring.turn.shade h.rootRefs)
  /-- All grey cells become black, and then a cycle ends. -/
  | collect {n k : Nat} {c : Coloring} :
    h.coloring.Marks h.refs k c → (∀ l, c l ≠ some .grey) →
    Recolors h .collect (.ok (.count n)) (c.turn.shade h.rootRefs)

theorem named_view (h : Heap) : h.view.named = h.named := by
  funext handles
  simp only [View.named, named, resolve_view]

theorem refs_view (h : Heap) : h.view.refs = h.refs := by
  funext l
  ext m
  constructor
  · rintro ⟨d, hd, hm⟩
    obtain ⟨c, hc, rfl⟩ := Option.map_eq_some_iff.1 hd
    rw [named_view] at hm
    exact ⟨c, hc, hm⟩
  · rintro ⟨c, hc, hm⟩
    refine ⟨c.contents, contents_view hc, ?_⟩
    rw [named_view]
    exact hm

theorem rootRefs_view (h : Heap) : h.view.rootRefs = h.rootRefs := by
  rw [View.rootRefs, rootRefs, refs_view]
  rfl

end Heap

namespace Memory

variable {m : Memory} {handle : Handle} {l : Location} {op : Operation Value}
  {r : Except HeapError Result} {w : View}

/-- The root count of a live cons is that of its cell. -/
theorem Good.rootCount_eq (hg : m.Good) (tag : Tag) (hres : m.heap.resolve handle = some l) :
    m.heap.rootCount (.cons tag handle) = .ok (m.heap.view.count l) := by
  obtain ⟨-, -, -, c, hc, -⟩ := Heap.resolve_eq_some_iff.1 hres
  have hentry := View.directory_of_contents ((m.heap.resolve_view handle).trans hres)
    (Heap.contents_view hc)
  rw [hg.answers.rootCount tag handle, hentry, Option.elim_some]

/-- **An effect on the view of a heap does to its colours what the operation should.** -/
theorem Good.recolors (hg : m.Good) (he : m.heap.view.Effect op r w) : m.heap.Recolors op r w.color := by
  have hnamed := m.heap.named_view
  have hrefs := m.heap.refs_view
  cases he with
  | @refused op e =>
    by_cases hop : ∃ items, op = .list items
    · obtain ⟨items, rfl⟩ := hop
      rw [← List.append_nil items]
      exact .listRefused (.zero m.heap.coloring)
    · exact .refused (not_exists.1 hop)
  | cons _ _ hc =>
    obtain ⟨hspare, hcolor⟩ := hc.color_eq
    rw [hcolor]
    exact .cons hspare
  | @rootedCons tag car cdr handle w hcar hcdr hc =>
    obtain ⟨hspare, hcolor⟩ := hc.color_eq
    -- the cell was white before it became a root
    have hlive : w.color handle.location ≠ none := by
      rw [hcolor, Coloring.paint_self]
      simp
    rw [View.color_root hlive, hcolor, Coloring.paint_shade_paint, hc.refs_new hcar hcdr, hnamed]
    exact .rootedCons hspare
  | list hl => exact .list hl.gains
  | listRefused hl => exact .listRefused hl.gains
  | rootAgain hres hroot => exact .rootAgain ((m.heap.resolve_view _).symm.trans hres) hroot
  | @rootFirst tag handle l g hres hroot hgrow =>
    have hlive := View.live_of_resolve hres
    rw [View.color_root (by rwa [hgrow.color]), hg.safe.refs_grows hgrow hlive, hgrow.color, hrefs]
    exact .rootFirst ((m.heap.resolve_view handle).symm.trans hres) hroot
  | @unrootOne tag handle l hres hroot hcount =>
    have hres := (m.heap.resolve_view handle).symm.trans hres
    exact .unrootOne (hg.rootCount_eq tag hres) hcount
  | @unrootLast tag handle l g hres hroot hcount hgrow =>
    have hres := (m.heap.resolve_view handle).symm.trans hres
    have hone := hg.rootCount_eq tag hres
    rw [hcount] at hone
    rw [(hg.safe.grows hgrow).color_unroot (by rwa [hgrow.color]), hgrow.color]
    exact .unrootLast hres hone
  | @setChild side tag handle x l c hres hc hx =>
    have hstore : (m.heap.view.store l (c.setChild x side)).resolve = m.heap.view.resolve :=
      View.resolve_store hc (by cases side <;> rfl)
    have hnamed' : (m.heap.view.store l (c.setChild x side)).named x.handles =
        m.heap.named x.handles := by
      rw [← hnamed]
      simp only [View.named, hstore]
    have hlive := View.live_of_resolve hres
    have hres := (m.heap.resolve_view handle).symm.trans hres
    rw [View.barrier, hnamed']
    split
    · next hguard => exact .setGuarded hres hguard
    · next hguard =>
      refine .setOther hres ?_
      have hguard : ¬ (m.heap.view.color l = some .root ∨ m.heap.view.color l = some .black) := hguard
      show m.heap.view.color l = some .grey ∨ m.heap.view.color l = some .white
      cases hcolor : m.heap.view.color l with
      | none => exact absurd hcolor hlive
      | some color => cases color <;> simp_all
  | shade hres => exact .shade ((m.heap.resolve_view _).symm.trans hres)
  | scan hs hle hend =>
    have hmarks := hs.marks
    rw [hrefs] at hmarks
    exact .scan hmarks hle hend
  | startCycle =>
    rw [hg.safe.startCycle_eq]
    exact .startCycle
  | sweep hend =>
    rw [View.color_sweep, m.heap.rootRefs_view]
    exact .sweep hend
  | collect hc =>
    obtain @⟨k, w, ls, hs, hend, -, -⟩ := hc
    have hmarks := hs.marks
    have hroots : w.rootRefs = m.heap.rootRefs := by
      rw [← m.heap.rootRefs_view]
      simp only [View.rootRefs, hs.recolored.refs, hs.recolored.root]
    rw [hrefs] at hmarks
    rw [View.color_sweep, hroots]
    exact .collect hmarks hend

/-- **After any run, every operation changes the colours of cells as it should, and those of no others,
whatever cells it moves.** -/
theorem every_operation_recolors (id : UInt32) (sizing : Sizing) (ledger : Ledger) (moves : List Move)
    (op : Operation Value) :
    let m := (start id sizing ledger).runs moves
    ∃ r, Outcome.answer (op.run m) = r.mapError Failure.error ∧
      m.heap.Recolors op r (Outcome.state (op.run m)).heap.coloring := by
  intro m
  have hg : m.Good := good_runs id sizing ledger moves
  obtain ⟨r, w, hb, he, hanswer⟩ := after_operate hg.sound op
  have hcolor : (Outcome.state (op.run m)).heap.coloring = w.color := by
    rw [← hb.view, Move.after, Move.run, Outcome.state_map]
    rfl
  rw [hcolor]
  exact ⟨r, hanswer, hg.recolors he⟩

end Memory

end ConsHeap
