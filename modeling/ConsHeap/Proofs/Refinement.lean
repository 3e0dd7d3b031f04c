import ConsHeap.Proofs.Memory.Runs
import ConsHeap.Proofs.View.Ages

/-!
# A heap refines a directory

Seen from outside a heap is a map from handles to two values and a root count, and every operation works
on this map.

* `Directory.Step`: what an operation does to the map, by its answer.
* `Directory.Answers`: what a heap tells about its cells is what the map holds.
* `Memory.Good.answers`: **a heap answers as its map does.**
* `Memory.uses`: how often storage is taken into use in a run.
* `Memory.Good.step`: **an operation is a step of the map, when no storage is older than `2 ^ 32`.**
-/

namespace ConsHeap

namespace Directory

/-- The directory in which no handle stands for anything. -/
def empty : Directory := fun _ => none

/-- A proper list is made from its end, with a new cons for each item. -/
inductive Listed (issued : Set Handle) (d : Directory) : List Value → Value → Directory → Prop where
  | nil : Listed issued d [] .nil d
  | cons {items : List Value} {item tail : Value} {handle : Handle} {d' : Directory} :
    Listed issued d items tail d' → handle ∉ issued ∪ d'.handles →
    Listed issued d (item :: items) (.cons .cons handle) (d'.put handle ⟨item, tail, 0⟩)

/-- What an operation does to a directory, and how it ends, when some handles were issued before. -/
inductive Step (issued : Set Handle) (d : Directory) :
    Operation Value → Except HeapError Result → Directory → Prop where
  | refused {op : Operation Value} {e : HeapError} : Step issued d op (.error e) d
  | cons {tag : Tag} {car cdr : Value} {handle : Handle} :
    handle ∉ issued →
    Step issued d (.cons tag car cdr) (.ok (.value (.cons tag handle))) (d.put handle ⟨car, cdr, 0⟩)
  | rootedCons {tag : Tag} {car cdr : Value} {handle : Handle} :
    handle ∉ issued →
    Step issued d (.rootedCons tag car cdr) (.ok (.value (.cons tag handle)))
      (d.put handle ⟨car, cdr, 1⟩)
  | list {items : List Value} {x : Value} {d' : Directory} :
    d.Listed issued items x d' → Step issued d (.list items) (.ok (.value x)) d'
  /-- The items at the end have been listed when the list is refused. -/
  | listRefused {start items : List Value} {x : Value} {e : HeapError} {d' : Directory} :
    d.Listed issued items x d' → Step issued d (.list (start ++ items)) (.error e) d'
  | root {tag : Tag} {handle : Handle} {e : Entry} :
    d handle = some e →
    Step issued d (.root (.cons tag handle)) (.ok .done)
      (d.put handle { e with count := e.count + 1 })
  | unroot {tag : Tag} {handle : Handle} {e : Entry} :
    d handle = some e → 0 < e.count →
    Step issued d (.unroot (.cons tag handle)) (.ok .done)
      (d.put handle { e with count := e.count - 1 })
  | setChild {side : Side} {tag : Tag} {handle : Handle} {x : Value} {e : Entry} :
    d handle = some e →
    Step issued d (.setChild side (.cons tag handle) x) (.ok .done)
      (d.put handle (e.setChild x side))
  | shade {x : Value} : Step issued d (.shade x) (.ok .done) d
  | scan {budget n : Nat} : n ≤ budget → Step issued d (.scan budget) (.ok (.count n)) d
  | startCycle : Step issued d .startCycle (.ok .done) d
  | sweep {n : Nat} {d' : Directory} : d.Deletes n d' → Step issued d .sweep (.ok (.count n)) d'
  | collect {n : Nat} {d' : Directory} : d.Deletes n d' → Step issued d .collect (.ok (.count n)) d'

/-- A heap tells what the directory holds. Handles that are not in it are foreign, and those with another
identity are not in it. -/
structure Answers (d : Directory) (h : Heap) : Prop where
  child : ∀ side tag handle, h.child side (.cons tag handle) =
    (d handle).elim (.error .foreign) fun e => .ok (e.child side)
  rootCount : ∀ tag handle, h.rootCount (.cons tag handle) = .ok ((d handle).elim 0 Entry.count)
  own : ∀ handle, d handle ≠ none → handle.heap = h.id

theorem put_put (d : Directory) (handle : Handle) (e e' : Entry) :
    (d.put handle e).put handle e' = d.put handle e' := Function.update_idem ..

end Directory

/-! ## Effects as steps -/

namespace View

variable {v w : View} {l m : Location} {handle : Handle} {b : Location → Nat} {issued : Set Handle}
  {op : Operation Value} {r : Except HeapError Result}

/-- A list adds an entry for each item. -/
theorem Lists.listed {items : List Value} {x : Value} (hl : v.Lists items x w) (h : v.Safe)
    (hcounted : v.Counted) (haged : v.Aged b) (hissued : issued ⊆ past v.id b)
    (hage : ∀ l, v.age w b l ≤ UInt32.size) : v.directory.Listed issued items x w.directory := by
  induction hl with
  | nil => exact .nil
  | @cons items item tail handle w u hl _ _ hc ih =>
    have hadd : w.age u (v.age w b) = v.age u b := age_age (fun _ => hl.live) fun _ => hc.live
    have hage' : ∀ l, v.age w b l ≤ UInt32.size := by
      intro l
      refine (le_age w u _ l).trans ?_
      rw [hadd]
      exact hage l
    rw [hc.directory (hl.safe h).toClosed (hl.counted hcounted)]
    refine .cons (ih hage') fun hmem => ?_
    -- the handles of the items after this one were issued too
    have hpast : issued ∪ w.directory.handles ⊆ past w.id (v.age w b) := by
      refine Set.union_subset ?_ (hl.aged haged).handles_subset
      rw [hl.id]
      exact hissued.trans (past_mono (le_age v w b))
    exact hc.not_mem_past (hl.aged haged) (by rw [hadd]; exact hage _) (hpast hmem)

/-- The same cells live after one was painted and others were shaded. -/
theorem color_paint_shade_ne_none (hl : v.color l ≠ none) (color : Color) (n : Nat) (S : Set Location) :
    (((v.paint l (some color)).recount l n).shade S).color m ≠ none ↔ v.color m ≠ none := by
  rw [← Option.isSome_iff_ne_none, ← Option.isSome_iff_ne_none, isSome_color_shade]
  exact Bool.eq_iff_iff.1 (isSome_color_paint hl color m)

theorem generation_store {c d : Cell} (hc : v.contents l = some c) (hd : d.generation = c.generation) :
    (v.store l d).generation = v.generation := by
  funext m
  by_cases hm : m = l
  · rw [hm, generation, generation, hc, show (v.store l d).contents l = some d from
      Function.update_self .., Option.elim_some, Option.elim_some, hd]
  · rw [generation, generation, show (v.store l d).contents m = v.contents m from
      Function.update_of_ne hm _ _]

/-- After every operation generations are ages. -/
theorem Effect.aged (he : v.Effect op r w) (haged : v.Aged b) : w.Aged (v.age w b) := by
  cases he with
  | refused => exact haged.keep rfl fun _ hl => hl
  | cons _ _ hc => exact hc.aged haged
  | rootedCons _ _ hc =>
    -- the cell was born before it became a root
    exact (hc.aged haged).congr (generation_congr rfl) fun l =>
      color_paint_shade_ne_none (live_of_resolve hc.resolve_new.1) _ _ _
  | list hl => exact hl.aged haged
  | listRefused hl => exact hl.aged haged
  | rootAgain => exact haged.keep rfl fun _ hl => hl
  | rootFirst hres _ hg =>
    refine haged.keep ((generation_congr rfl).trans hg.generation) fun m hm => ?_
    have hm := (color_paint_shade_ne_none (live_of_resolve (hg.resolve hres)) _ _ _).1 hm
    rwa [hg.color] at hm
  | unrootOne => exact haged.keep rfl fun _ hl => hl
  | unrootLast hres _ _ hg =>
    refine haged.keep ((generation_congr rfl).trans hg.generation) fun m hm => ?_
    have hm := (color_paint_shade_ne_none (live_of_resolve (hg.resolve hres)) _ _ _).1 hm
    rwa [hg.color] at hm
  | @setChild side tag handle x l c hres hc _ =>
    have hrec := recolored_barrier (v.store l (c.setChild x side)) l x
    refine haged.keep ?_ fun m hm => hrec.color_ne_none.1 hm
    rw [generation_congr hrec.contents, generation_store hc (by cases side <;> rfl)]
  | shade => exact haged.keep rfl fun _ hl => (recolored_shade v _).color_ne_none.1 hl
  | scan hs =>
    exact haged.keep (generation_congr hs.recolored.contents) fun _ hl =>
      hs.recolored.color_ne_none.1 hl
  | startCycle => exact haged.keep rfl fun _ hl => (recolored_startCycle v).color_ne_none.1 hl
  | sweep =>
    refine haged.keep rfl fun m hm => ?_
    rcases color_sweep_ne_none.1 hm with hm | hm <;> simp [hm]
  | collect hc =>
    obtain @⟨n, w, ls, hscans, -, -, -⟩ := hc
    refine haged.keep (generation_congr hscans.recolored.contents) fun m hm => ?_
    refine hscans.recolored.color_ne_none.1 ?_
    rcases color_sweep_ne_none.1 hm with hm | hm <;> simp [hm]

/-- **Every effect on a view is a step of its directory.** -/
theorem Effect.step (he : v.Effect op r w) (h : v.Safe) (hcounted : v.Counted) (haged : v.Aged b)
    (hissued : issued ⊆ past v.id b) (hage : ∀ l, v.age w b l ≤ UInt32.size) :
    v.directory.Step issued op r w.directory := by
  cases he with
  | refused => exact .refused
  | cons _ _ hc =>
    rw [hc.directory h.toClosed hcounted]
    exact .cons fun hmem => hc.not_mem_past haged (hage _) (hissued hmem)
  | @rootedCons tag car cdr handle w _ _ hc =>
    -- first an entry with no count, and then the same with a count of one
    obtain ⟨hres, c, hcell, rfl, rfl⟩ := hc.resolve_new
    have hsame : v.age (w.root handle.location) b = v.age w b :=
      age_congr fun l => color_paint_shade_ne_none (live_of_resolve hres) _ _ _
    rw [directory_root hres hcell, hc.directory h.toClosed hcounted, Directory.put_put]
    rw [hsame] at hage
    exact .rootedCons fun hmem => hc.not_mem_past haged (hage _) (hissued hmem)
  | list hl => exact .list (hl.listed h hcounted haged hissued hage)
  | listRefused hl => exact .listRefused (hl.listed h hcounted haged hissued hage)
  | rootAgain hres hroot =>
    obtain ⟨-, -, -, c, hc, -⟩ := resolve_eq_some_iff.1 hres
    rw [directory_recount hres hc]
    exact .root (directory_of_contents hres hc)
  | @rootFirst tag handle l g hres hroot hg =>
    obtain ⟨-, -, -, c, hc, -⟩ := resolve_eq_some_iff.1 hres
    -- a cell that is no root has no count yet
    have hentry := directory_of_contents hres hc
    rw [hcounted l hroot] at hentry
    rw [directory_root (hg.resolve hres) (hg.kept l c hc), h.directory_grows hg]
    exact .root hentry
  | unrootOne hres hroot hcount =>
    obtain ⟨-, -, -, c, hc, -⟩ := resolve_eq_some_iff.1 hres
    rw [directory_recount hres hc]
    exact .unroot (directory_of_contents hres hc) (Nat.zero_lt_of_lt hcount)
  | @unrootLast tag handle l g hres hroot hcount hg =>
    obtain ⟨-, -, -, c, hc, -⟩ := resolve_eq_some_iff.1 hres
    have hentry := directory_of_contents hres hc
    rw [hcount] at hentry
    rw [directory_unroot (hg.resolve hres) (hg.kept l c hc), h.directory_grows hg]
    exact .unroot hentry Nat.one_pos
  | setChild hres hc _ =>
    rw [directory_setChild hres hc]
    exact .setChild (directory_of_contents hres hc)
  | shade =>
    rw [(recolored_shade v _).directory]
    exact .shade
  | scan hs hle =>
    rw [hs.recolored.directory]
    exact .scan hle
  | startCycle =>
    rw [(recolored_startCycle v).directory]
    exact .startCycle
  | sweep hend hnodup hls => exact .sweep (h.directory_sweep hcounted hend hnodup hls)
  | collect hc => exact .collect (hc.directory h hcounted)

end View

/-! ## What a heap answers -/

/-- A handle resolves to a cell with its entry, or to nothing. -/
theorem Heap.directory_cases (h : Heap) (handle : Handle) :
    (h.resolve handle = none ∧ h.view.directory handle = none) ∨
      ∃ l c, h.resolve handle = some l ∧ h.cell? l = some c ∧
        h.view.directory handle = some ⟨c.car, c.cdr, h.tables.count l⟩ := by
  cases hres : h.resolve handle with
  | none => exact .inl ⟨rfl, View.directory_of_not_resolve (hres ▸ h.resolve_view handle)⟩
  | some l =>
    obtain ⟨-, -, -, c, hc, -⟩ := resolve_eq_some_iff.1 hres
    have hentry := View.directory_of_contents (hres ▸ h.resolve_view handle) (contents_view hc)
    exact .inr ⟨l, c, rfl, hc, hentry⟩

namespace Memory

variable {m : Memory} {b : Location → Nat} {issued : Set Handle}

/-- **A heap answers as its directory does.** -/
theorem Good.answers (hg : m.Good) : m.heap.view.directory.Answers m.heap := by
  constructor
  · intro side tag handle
    rcases m.heap.directory_cases handle with ⟨hres, hentry⟩ | ⟨l, c, hres, hc, hentry⟩
    · rw [hentry, Heap.child, Heap.liveCell_of_not_resolve hres]
      rfl
    · rw [hentry, Heap.child, Heap.liveCell_of_resolve hres hc]
      cases side <;> rfl
  · intro tag handle
    rcases m.heap.directory_cases handle with ⟨hres, hentry⟩ | ⟨l, c, hres, hc, hentry⟩
    · rw [hentry, Heap.rootCount, Heap.liveCell_of_not_resolve hres]
      rfl
    · rw [hentry, Heap.rootCount, Heap.liveCell_of_resolve hres hc]
      -- a root is counted in the entry that it records, and no other cell is counted
      by_cases hroot : m.heap.tables.color? l = some .root
      · obtain ⟨hcount, -, -, hflag⟩ := hg.sound.entry_of_root hc hroot
        simp only [hflag, if_true, hcount]
        rfl
      · have hflag : ¬c.isRoot = true := mt (hg.sound.isRoot_iff hc).1 hroot
        simp only [if_neg hflag, Option.elim_some]
        exact congrArg Except.ok (hg.sound.count_eq_zero hroot).symm
  · exact fun handle hne => View.heap_of_directory hne

/-! ## Moves -/

/-- How often storage at a location is taken into use in a run. -/
def uses (l : Location) : Memory → List Move → Nat
  | _, [] => 0
  | m, mv :: moves => m.heap.view.births (mv.after m).heap.view l + uses l (mv.after m) moves

theorem uses_le_length (l : Location) (moves : List Move) :
    ∀ m : Memory, uses l m moves ≤ moves.length := by
  induction moves with
  | nil =>
    intro m
    exact Nat.le_refl 0
  | cons mv moves ih =>
    intro m
    have hstep := View.births_le_one m.heap.view (mv.after m).heap.view l
    have hrest := ih (mv.after m)
    rw [uses, List.length_cons]
    omega

theorem Good.counted (hg : m.Good) : m.heap.view.Counted := fun _ hl => hg.sound.count_eq_zero hl

/-- In a new heap no handle stands for anything. -/
theorem directory_start (id : UInt32) (sizing : Sizing) (ledger : Ledger) :
    (start id sizing ledger).heap.view.directory = .empty := by
  funext handle
  exact View.directory_of_not_resolve (View.resolve_eq_none fun hres =>
    View.live_of_resolve hres (color_start id sizing ledger _))

/-- In a new heap generations are ages. -/
theorem aged_start (id : UInt32) (sizing : Sizing) (ledger : Ledger) :
    (start id sizing ledger).heap.view.Aged fun _ => 0 :=
  ⟨fun _ => rfl, fun hl => absurd (color_start id sizing ledger _) hl⟩

/-- Generations stay ages in every move. -/
theorem Good.aged_after (hg : m.Good) (haged : m.heap.view.Aged b) (mv : Move) :
    (mv.after m).heap.view.Aged (m.heap.view.age (mv.after m).heap.view b) ∧
      (mv.after m).heap.id = m.heap.id := by
  by_cases hmv : ∃ op, mv = .operate op
  · obtain ⟨op, rfl⟩ := hmv
    obtain ⟨r, w, hb, he, -⟩ := after_operate hg.sound op
    rw [hb.view]
    exact ⟨he.aged haged, hb.id⟩
  · have hview := (after_of_ne_operate hg.sound (not_exists.1 hmv)).2
    rw [hview]
    exact ⟨haged.keep rfl fun _ hl => hl, congrArg View.id hview⟩

/-- **Every operation is a step of the directory, with the same answer.** -/
theorem Good.step (hg : m.Good) (haged : m.heap.view.Aged b) (hissued : issued ⊆ View.past m.heap.view.id b)
    (op : Operation Value)
    (hage : ∀ l, m.heap.view.age ((Move.operate op).after m).heap.view b l ≤ UInt32.size) :
    ∃ r, Outcome.answer (op.run m) = r.mapError Failure.error ∧
      m.heap.view.directory.Step issued op r ((Move.operate op).after m).heap.view.directory := by
  obtain ⟨r, w, hb, he, hanswer⟩ := after_operate hg.sound op
  rw [hb.view] at hage ⊢
  exact ⟨r, hanswer, he.step hg.safe hg.counted haged hissued hage⟩

end Memory

end ConsHeap
