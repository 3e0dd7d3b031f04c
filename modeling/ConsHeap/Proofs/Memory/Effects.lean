import ConsHeap.Memory.Operation
import ConsHeap.Proofs.Heap.Cycle
import ConsHeap.Proofs.Heap.Rooting
import ConsHeap.Proofs.Ledger
import ConsHeap.Proofs.View.Safe

/-!
# Effects of operations

* `View.Effect`: what an operation does to the view of a heap, by its answer.
* `Memory.Intact`: the state after a refusal.
* `Memory.cons_cases`, `Memory.rootedCons_cases`, `Memory.list_cases`, `Memory.setChild_cases`: the
  operations that store values.
* `Operation.run_cases`: **every operation on a heap with sound tables has its effect and leaves the
  tables sound, or it is refused and leaves the heap as it was. Only a list may be refused halfway.**
-/

namespace ConsHeap

/-- What an operation does to a view, and how it ends. -/
inductive View.Effect (v : View) : Operation Value → Except HeapError Result → View → Prop where
  /-- A request is refused without a trace. -/
  | refused {op : Operation Value} {e : HeapError} : Effect v op (.error e) v
  | cons {tag : Tag} {car cdr : Value} {handle : Handle} {w : View} :
    v.Accepts car → v.Accepts cdr → v.Creates tag car cdr handle w →
    Effect v (.cons tag car cdr) (.ok (.value (.cons tag handle))) w
  | rootedCons {tag : Tag} {car cdr : Value} {handle : Handle} {w : View} :
    v.Accepts car → v.Accepts cdr → v.Creates tag car cdr handle w →
    Effect v (.rootedCons tag car cdr) (.ok (.value (.cons tag handle))) (w.root handle.location)
  | list {items : List Value} {x : Value} {w : View} :
    v.Lists items x w → Effect v (.list items) (.ok (.value x)) w
  /-- The items at the end have been listed when the list is refused. -/
  | listRefused {start items : List Value} {x : Value} {w : View} {e : HeapError} :
    v.Lists items x w → Effect v (.list (start ++ items)) (.error e) w
  | rootAgain {tag : Tag} {handle : Handle} {l : Location} :
    v.resolve handle = some l → v.color l = some .root →
    Effect v (.root (.cons tag handle)) (.ok .done) (v.recount l (v.count l + 1))
  | rootFirst {tag : Tag} {handle : Handle} {l : Location} {g : View} :
    v.resolve handle = some l → v.color l ≠ some .root → v.Grows g →
    Effect v (.root (.cons tag handle)) (.ok .done) (g.root l)
  | unrootOne {tag : Tag} {handle : Handle} {l : Location} :
    v.resolve handle = some l → v.color l = some .root → 1 < v.count l →
    Effect v (.unroot (.cons tag handle)) (.ok .done) (v.recount l (v.count l - 1))
  | unrootLast {tag : Tag} {handle : Handle} {l : Location} {g : View} :
    v.resolve handle = some l → v.color l = some .root → v.count l = 1 → v.Grows g →
    Effect v (.unroot (.cons tag handle)) (.ok .done) (g.unroot l)
  | setChild {side : Side} {tag : Tag} {handle : Handle} {x : Value} {l : Location} {c : Cell} :
    v.resolve handle = some l → v.contents l = some c → v.Accepts x →
    Effect v (.setChild side (.cons tag handle) x) (.ok .done)
      ((v.store l (c.setChild x side)).barrier l x)
  | shade {tag : Tag} {handle : Handle} {l : Location} :
    v.resolve handle = some l → Effect v (.shade (.cons tag handle)) (.ok .done) (v.shade {l})
  | scan {budget n : Nat} {w : View} :
    v.Scans n w → n ≤ budget → (n < budget → ∀ l, w.color l ≠ some .grey) →
    Effect v (.scan budget) (.ok (.count n)) w
  | startCycle : Effect v .startCycle (.ok .done) v.startCycle
  | sweep {ls : List Location} :
    (∀ l, v.color l ≠ some .grey) → ls.Nodup → (∀ l, l ∈ ls ↔ v.color l = some .white) →
    Effect v .sweep (.ok (.count ls.length)) v.sweep
  | collect {n : Nat} {w : View} : v.Collects n w → Effect v .collect (.ok (.count n)) w

namespace Heap

variable {h : Heap} {x : Value}

/-- A value that is accepted may be stored. -/
theorem checkChild_ok (hx : h.accepts x = true) : checkChild x h = .ok () h := by
  rw [checkChild, bind_get]
  simp only [hx, if_true]
  rfl

/-- A value that is not accepted is foreign. -/
theorem checkChild_error (hx : h.accepts x = false) : checkChild x h = .error (.error .foreign) h := by
  rw [checkChild, bind_get]
  simp only [hx, Bool.false_eq_true, if_false]
  rfl

end Heap

namespace Memory

variable {m m' : Memory} {h h' : Heap} {ledger : Ledger} {v w : View} {α : Type}

theorem onHeap_ok {act : HeapM α} {a : α} (hact : act h = .ok a h') :
    onHeap act ⟨h, ledger⟩ = .ok a ⟨h', ledger⟩ := by
  rw [onHeap, hact]

theorem onHeap_error {act : HeapM α} {e : Failure HeapError} (hact : act h = .error e h') :
    onHeap act ⟨h, ledger⟩ = .error e ⟨h', ledger⟩ := by
  rw [onHeap, hact]

/-- An action on the heap that answers changes only that. -/
theorem exists_of_onHeap_eq_ok {act : HeapM α} {a : α} (hact : onHeap act m = .ok a m') :
    ∃ h', act m.heap = .ok a h' ∧ m' = { m with heap := h' } := by
  obtain ⟨h, ledger⟩ := m
  cases hrun : act h with
  | ok b h' =>
    rw [onHeap_ok hrun] at hact
    cases hact
    exact ⟨h', rfl, rfl⟩
  | error e h' =>
    rw [onHeap_error hrun] at hact
    cases hact

theorem retain_ok (x : Value) : retain x ⟨h, ledger⟩ = .ok () ⟨h, ledger.retain x⟩ := rfl

theorem release_ok (x : Value) : release x ⟨h, ledger⟩ = .ok () ⟨h, ledger.release x⟩ := rfl

/-- The state `m'` after a refusal is `m`, as far as the heap is concerned. The ledger is the same, too,
when the values `xs` of the request are held. -/
structure Intact (m : Memory) (xs : List Value) (m' : Memory) : Prop where
  heap : m'.heap = m.heap
  ledger : (∀ x ∈ xs, m.ledger.Holds x) → m'.ledger = m.ledger

theorem Intact.refl (m : Memory) (xs : List Value) : m.Intact xs m := ⟨rfl, fun _ => rfl⟩

/-- The values are held twice when room was made for them. -/
theorem holding_ok {act : HeapM Unit} (hact : act h = .ok () h') (car cdr : Value) :
    holding car cdr (onHeap act) ⟨h, ledger⟩ = .ok () ⟨h', (ledger.retain car).retain cdr⟩ := by
  rw [holding, bind_ok (retain_ok car), bind_ok (retain_ok cdr), tryCatch_ok (onHeap_ok hact)]

/-- A refusal of room gives the values back. -/
theorem holding_error {act : HeapM Unit} {e : HeapError} (hact : act h = .error (.error e) h)
    (car cdr : Value) :
    ∃ m', holding car cdr (onHeap act) ⟨h, ledger⟩ = .error (.error e) m' ∧
      Intact ⟨h, ledger⟩ [car, cdr] m' := by
  refine ⟨⟨h, (((ledger.retain car).retain cdr).release cdr).release car⟩, ?_, rfl, fun hheld => ?_⟩
  · rw [holding, bind_ok (retain_ok car), bind_ok (retain_ok cdr), tryCatch_error (onHeap_error hact),
      bind_ok (release_ok cdr), bind_ok (release_ok car)]
    rfl
  · exact Ledger.release_release_retain_retain (hheld car (by simp)) (hheld cdr (by simp))

/-- A value is refused, or may be stored. -/
theorem checkChild_cases (h : Heap) (x : Value) :
    (h.accepts x = false ∧ Heap.checkChild x h = .error (.error .foreign) h) ∨
      Heap.checkChild x h = .ok () h ∧ h.view.Accepts x := by
  cases hx : h.accepts x with
  | false => exact .inl ⟨rfl, Heap.checkChild_error hx⟩
  | true => exact .inr ⟨Heap.checkChild_ok hx, Heap.accepts_iff.1 hx⟩

/-- The tag and the values of a new cell are refused, or fit. -/
theorem checkCons_cases (m : Memory) (tag : Tag) (car cdr : Value) :
    (∃ e, (tag.family ≠ some .cons ∧ e = .wrongType .consTag tag ∨
          (∃ x ∈ [car, cdr], m.heap.accepts x = false) ∧ e = .foreign) ∧
        checkCons tag car cdr m = .error (.error e) m) ∨
      checkCons tag car cdr m = .ok tag m ∧ m.heap.view.Accepts car ∧ m.heap.view.Accepts cdr := by
  obtain ⟨h, ledger⟩ := m
  by_cases htag : tag.family = some .cons
  · have hok : tag.asCons = .ok tag := if_pos htag
    rcases checkChild_cases h car with ⟨hno, he⟩ | ⟨hcar, hca⟩
    · left
      exact ⟨_, .inr ⟨⟨car, by simp, hno⟩, rfl⟩, by
        rw [checkCons, bind_ok (answer_ok hok), bind_error (onHeap_error he)]⟩
    rcases checkChild_cases h cdr with ⟨hno, he⟩ | ⟨hcdr, hcd⟩
    · left
      exact ⟨_, .inr ⟨⟨cdr, by simp, hno⟩, rfl⟩, by
        rw [checkCons, bind_ok (answer_ok hok), bind_ok (onHeap_ok hcar), bind_error (onHeap_error he)]⟩
    · right
      refine ⟨?_, hca, hcd⟩
      rw [checkCons, bind_ok (answer_ok hok), bind_ok (onHeap_ok hcar), bind_ok (onHeap_ok hcdr)]
      rfl
  · left
    have herr : tag.asCons = .error (.wrongType .consTag tag) := if_neg htag
    exact ⟨_, .inl ⟨htag, rfl⟩, by rw [checkCons, bind_error (answer_error herr)]⟩

/-- Two values that are held are put into a spare cell, and what that held is released. -/
theorem fill_ok (hs : m.heap.tables.Sound) (hfull : m.heap.tables.zones.isFull = false) (tag : Tag)
    (car cdr : Value) :
    ∃ m' l d, fill tag car cdr m = .ok l m' ∧ m.heap.view.color l = none ∧
      m.heap.view.contents l = some d ∧ m'.heap.tables.roots = m.heap.tables.roots ∧
      m.heap.Becomes m'.heap (m.heap.view.fill l (d.renew tag car cdr)) ∧
      m'.ledger = (m.ledger.release d.car).release d.cdr := by
  obtain ⟨h, ledger⟩ := m
  obtain ⟨h', l, c, hok, hdead, hc, hroots, hb⟩ := Heap.fill_ok hs hfull tag car cdr
  refine ⟨⟨h', (ledger.release c.car).release c.cdr⟩, l, c.contents, ?_, hdead, Heap.contents_view hc,
    hroots, hb, rfl⟩
  rw [fill, bind_ok (onHeap_ok hok)]
  simp only
  rw [bind_ok (release_ok c.car), bind_ok (release_ok c.cdr)]
  rfl

/-- A new white cell, or no change. -/
theorem cons_cases (hs : m.heap.tables.Sound) (tag : Tag) (car cdr : Value) :
    (∃ e m', m.heap.Refuses (.cons tag car cdr) e ∧ cons tag car cdr m = .error (.error e) m' ∧
        m.Intact [car, cdr] m') ∨
      ∃ m' handle w, cons tag car cdr m = .ok (.cons tag handle) m' ∧ m.heap.Becomes m'.heap w ∧
        m.heap.view.Accepts car ∧ m.heap.view.Accepts cdr ∧ m.heap.view.Creates tag car cdr handle w ∧
        m'.ledger = m.ledger.refilled car cdr (m.heap.view.stale handle.location) := by
  rcases checkCons_cases m tag car cdr with ⟨e, hwhy, he⟩ | ⟨hcheck, hcar, hcdr⟩
  · refine .inl ⟨e, m, ?_, bind_error he, .refl _ _⟩
    rcases hwhy with ⟨htag, rfl⟩ | ⟨⟨x, hmem, hno⟩, rfl⟩
    · exact .consTag htag
    · exact .foreign hmem hno
  obtain ⟨h, ledger⟩ := m
  rcases Heap.roomForCell_cases hs with ⟨e, halloc, he⟩ | ⟨h₁, hok₁, ⟨hb₁, hg, -⟩, hfull, -⟩
  · obtain ⟨m', herr, hintact⟩ := holding_error he car cdr
    exact .inl ⟨e, m', .memory halloc, by rw [cons, bind_ok hcheck, bind_error herr], hintact⟩
  right
  obtain ⟨⟨h₂, ledger₂⟩, l, d, hok₂, hdead, hd, -, hb₂, hledger⟩ :=
    fill_ok (m := ⟨h₁, (ledger.retain car).retain cdr⟩) hb₁.sound hfull tag car cdr
  -- the handle has the generation after that of the spare cell
  have hissue : Heap.issue l h₂ = .ok ⟨h.view.id, l, d.generation + 1⟩ h₂ := by
    have hc : h₂.view.contents l = some (d.renew tag car cdr) := by
      rw [hb₂.view]
      exact Function.update_self ..
    rw [Heap.issue_ok hc, hb₂.view]
    congr 2
    exact hg.id
  refine ⟨⟨h₂, ledger₂⟩, _, _, ?_, hb₁.trans hb₂, hcar, hcdr, .mk hg hdead hd, ?_⟩
  swap
  · rw [hg.stale_eq hd]
    exact hledger
  rw [cons, bind_ok hcheck, bind_ok (holding_ok hok₁ car cdr), bind_ok hok₂,
    bind_ok (onHeap_ok hissue)]
  rfl

/-- A new root, or no change. -/
theorem rootedCons_cases (hs : m.heap.tables.Sound) (tag : Tag) (car cdr : Value) :
    (∃ e m', m.heap.Refuses (.rootedCons tag car cdr) e ∧
        rootedCons tag car cdr m = .error (.error e) m' ∧ m.Intact [car, cdr] m') ∨
      ∃ m' handle w, rootedCons tag car cdr m = .ok (.cons tag handle) m' ∧
        m.heap.Becomes m'.heap (w.root handle.location) ∧
        m.heap.view.Accepts car ∧ m.heap.view.Accepts cdr ∧ m.heap.view.Creates tag car cdr handle w ∧
        m'.ledger = m.ledger.refilled car cdr (m.heap.view.stale handle.location) := by
  rcases checkCons_cases m tag car cdr with ⟨e, hwhy, he⟩ | ⟨hcheck, hcar, hcdr⟩
  · refine .inl ⟨e, m, ?_, bind_error he, .refl _ _⟩
    rcases hwhy with ⟨htag, rfl⟩ | ⟨⟨x, hmem, hno⟩, rfl⟩
    · exact .rootTag htag
    · exact .foreign hmem hno
  obtain ⟨h, ledger⟩ := m
  rcases Heap.roomForBoth_cases hs with ⟨e, halloc, he⟩ | ⟨h₁, hok₁, ⟨hb₁, hg, -⟩, hfull, hrfull⟩
  · obtain ⟨m', herr, hintact⟩ := holding_error he car cdr
    exact .inl ⟨e, m', .memory halloc, by rw [rootedCons, bind_ok hcheck, bind_error herr], hintact⟩
  right
  obtain ⟨⟨h₂, ledger₂⟩, l, d, hok₂, hdead, hd, hroots, hb₂, hledger⟩ :=
    fill_ok (m := ⟨h₁, (ledger.retain car).retain cdr⟩) hb₁.sound hfull tag car cdr
  have hcolor : h₂.view.color l = some .white := by
    rw [hb₂.view]
    exact Function.update_self ..
  -- the new cell is white, so it can be rooted in the entry for which there is room
  obtain ⟨h₃, hok₃, hb₃⟩ := Heap.toRoots_ok hb₂.sound (by rw [hroots]; exact hrfull)
    (by rw [hcolor]; simp) (by rw [hcolor]; simp)
  rw [hb₂.view] at hb₃
  have hissue : Heap.issue l h₃ = .ok ⟨h.view.id, l, d.generation + 1⟩ h₃ := by
    have hc : h₃.view.contents l = some (d.renew tag car cdr) := by
      rw [hb₃.view]
      exact Function.update_self ..
    rw [Heap.issue_ok hc, hb₃.view]
    congr 2
    exact hg.id
  refine ⟨⟨h₃, ledger₂⟩, _, _, ?_, (hb₁.trans hb₂).trans hb₃, hcar, hcdr, .mk hg hdead hd, ?_⟩
  swap
  · rw [hg.stale_eq hd]
    exact hledger
  rw [rootedCons, bind_ok hcheck, bind_ok (holding_ok hok₁ car cdr), bind_ok hok₂,
    bind_ok (onHeap_ok hok₃), bind_ok (onHeap_ok hissue)]
  rfl

/-- The first cell of a list is made last. -/
theorem list_cons (item : Value) (items : List Value) :
    list (item :: items) = list items >>= fun tail => cons .cons item tail := by
  rw [list, List.foldrM_cons]
  rfl

/-- All items are listed, or the cell for one of them is refused when those after it are listed. -/
theorem list_cases (items : List Value) : ∀ {m : Memory}, m.heap.tables.Sound →
    (∃ e m' start item rest x m₁ w, m.heap.Refuses (.list items) e ∧
        list items m = .error (.error e) m' ∧ items = start ++ item :: rest ∧ list rest m = .ok x m₁ ∧
        cons .cons item x m₁ = .error (.error e) m' ∧ m₁.Intact [item, x] m' ∧
        m.heap.view.Lists rest x w ∧ m.heap.Becomes m₁.heap w) ∨
      ∃ m' x w, list items m = .ok x m' ∧ m.heap.view.Lists items x w ∧ m.heap.Becomes m'.heap w := by
  induction items with
  | nil =>
    intro m hs
    exact .inr ⟨m, .nil, m.heap.view, rfl, .nil, .refl hs⟩
  | cons item items ih =>
    intro m hs
    rw [list_cons]
    rcases ih hs with
      ⟨e, m', start, i, rest, x, m₁, w, hwhy, herr, rfl, hrest⟩ | ⟨m₁, x, w, hok, hlists, hb⟩
    · exact .inl ⟨e, m', item :: start, i, rest, x, m₁, w, hwhy.of_suffix [item],
        bind_error herr, rfl, hrest⟩
    rcases cons_cases hb.sound .cons item x with
      ⟨e, m', hwhy, he, hintact⟩ | ⟨m', handle, u, hok', hb', hcar, hcdr, hc, -⟩
    · refine .inl ⟨e, m', [], item, items, x, m₁, w, ?_, (bind_ok hok).trans he, rfl, hok, he, hintact,
        hlists, hb⟩
      refine hwhy.of_item ?_ ?_
      · rw [Heap.accepts_iff, Heap.accepts_iff, hb.view]
        exact fun h => h.of_resolve hlists.resolve
      · rw [Heap.accepts_iff, hb.view]
        exact hlists.accepts_new
    · rw [hb.view] at hcar hcdr hc
      exact .inr ⟨m', _, u, (bind_ok hok).trans hok', .cons hlists hcar hcdr hc, hb.trans hb'⟩

/-- A value is stored in a live cons, or nothing changes. -/
theorem setChild_cases (hs : m.heap.tables.Sound) (side : Side) (target x : Value) :
    (∃ e, m.heap.Refuses (.setChild side target x) e ∧
        setChild side target x m = .error (.error e) m) ∨
      ∃ m' tag handle c, target = .cons tag handle ∧ setChild side target x m = .ok () m' ∧
        m.heap.view.resolve handle = some handle.location ∧
        m.heap.view.contents handle.location = some c ∧ m.heap.view.Accepts x ∧
        m.heap.Becomes m'.heap
          ((m.heap.view.store handle.location (c.setChild x side)).barrier handle.location x) ∧
        m'.ledger = (m.ledger.retain x).release (c.child side) := by
  rcases m.heap.liveCell_cases target with ⟨e, hx, he⟩ | ⟨tag, handle, c, rfl, hres, hc, hlive⟩
  · left
    exact ⟨e, .of_live rfl hx, by rw [setChild, bind_get, bind_error (answer_error he)]⟩
  obtain ⟨h, ledger⟩ := m
  rcases checkChild_cases h x with ⟨hno, he⟩ | ⟨hcheck, hx⟩
  · left
    refine ⟨_, .foreign (List.mem_cons_of_mem _ List.mem_cons_self) hno, ?_⟩
    rw [setChild, bind_get, bind_ok (answer_ok hlive)]
    simp only
    rw [bind_error (onHeap_error he)]
  right
  obtain ⟨id, sizing, kinds, t⟩ := h
  -- the value is stored first, and the barrier sees the cell with it
  obtain ⟨u, hu, hsu, hview⟩ := Tables.store_ok hs (f := (·.setChild x side)) hc (by simp) id
  have hb : Heap.Becomes ⟨id, sizing, kinds, t⟩ ⟨id, sizing, kinds, u⟩ _ :=
    Heap.becomes_tables hsu hview
  obtain ⟨h', hok, hb'⟩ := Heap.barrier_ok hb.sound handle.location x
  rw [hb.view] at hb'
  refine ⟨⟨h', (ledger.retain x).release (c.child side)⟩, tag, handle, c.contents, rfl, ?_, ?_,
    Heap.contents_view hc, hx, ?_, ?_⟩
  · rw [setChild, bind_get, bind_ok (answer_ok hlive)]
    simp only
    rw [bind_ok (onHeap_ok hcheck), bind_ok (retain_ok x), bind_ok (onHeap_ok (Heap.onTables_ok hu)),
      bind_ok (release_ok (c.child side)), onHeap_ok hok]
  · rw [Heap.resolve_view]
    exact hres
  · have hb'' := hb.trans hb'
    rw [Cell.contents_setChild] at hb''
    exact hb''
  · cases side <;> rfl

end Memory

namespace Operation

variable {m : Memory}

/-- What an operation on the heap alone answers. -/
theorem run_onHeap_ok {α : Type} {act : HeapM α} {f : α → Result} {h h' : Heap} {ledger : Ledger} {a : α}
    (hact : act h = .ok a h') : (f <$> Memory.onHeap act) ⟨h, ledger⟩ = .ok (f a) ⟨h', ledger⟩ :=
  map_ok (Memory.onHeap_ok hact)

/-- **Every operation on a heap with sound tables has its effect and leaves the tables sound, or it is
refused and leaves the heap as it was. A list that is refused leaves the cells that were made before.** -/
theorem run_cases (hs : m.heap.tables.Sound) (op : Operation Value) :
    (∃ a m' w, op.run m = .ok a m' ∧ m.heap.Becomes m'.heap w ∧ m.heap.view.Effect op (.ok a) w) ∨
      (∃ e m', m.heap.Refuses op e ∧ op.run m = .error (.error e) m' ∧ m.Intact op.operands m') ∨
      ∃ items e m' w, m.heap.Refuses op e ∧ op = .list items ∧ op.run m = .error (.error e) m' ∧
        m.heap.Becomes m'.heap w ∧ m.heap.view.Effect op (.error e) w := by
  obtain ⟨h, ledger⟩ := m
  cases op with
  | cons tag car cdr =>
    rcases Memory.cons_cases hs tag car cdr with
      ⟨e, m', hwhy, he, hintact⟩ | ⟨m', handle, w, hok, hb, hcar, hcdr, hc, -⟩
    · exact .inr (.inl ⟨e, m', hwhy, map_error he, hintact⟩)
    · exact .inl ⟨_, m', w, map_ok hok, hb, .cons hcar hcdr hc⟩
  | rootedCons tag car cdr =>
    rcases Memory.rootedCons_cases hs tag car cdr with
      ⟨e, m', hwhy, he, hintact⟩ | ⟨m', handle, w, hok, hb, hcar, hcdr, hc, -⟩
    · exact .inr (.inl ⟨e, m', hwhy, map_error he, hintact⟩)
    · exact .inl ⟨_, m', _, map_ok hok, hb, .rootedCons hcar hcdr hc⟩
  | list items =>
    rcases Memory.list_cases items hs with
      ⟨e, m', start, item, rest, x, m₁, w, hwhy, herr, rfl, -, -, hintact, hlists, hb⟩ |
      ⟨m', x, w, hok, hlists, hb⟩
    · rw [← hintact.heap] at hb
      rw [List.append_cons] at hwhy herr ⊢
      exact .inr (.inr ⟨_, e, m', w, hwhy, rfl, map_error herr, hb, .listRefused hlists⟩)
    · exact .inl ⟨_, m', w, map_ok hok, hb, .list hlists⟩
  | root x =>
    rcases Heap.root_cases hs x with
      ⟨e, hwhy, he⟩ | ⟨tag, handle, h', rfl, hres, hok, ⟨hroot, hb⟩ | ⟨hroot, g, hg, hb⟩⟩
    · exact .inr (.inl ⟨e, _, hwhy, map_error (Memory.onHeap_error he), .refl _ _⟩)
    · exact .inl ⟨_, ⟨h', ledger⟩, _, run_onHeap_ok hok, hb,
        .rootAgain ((h.resolve_view handle).trans hres) hroot⟩
    · exact .inl ⟨_, ⟨h', ledger⟩, _, run_onHeap_ok hok, hb,
        .rootFirst ((h.resolve_view handle).trans hres) hroot hg⟩
  | unroot x =>
    rcases Heap.unroot_cases hs x with
      ⟨e, hwhy, he⟩ | ⟨tag, handle, h', rfl, hres, hok, hroot, ⟨hcount, hb⟩ | ⟨hcount, g, hg, hb⟩⟩
    · exact .inr (.inl ⟨e, _, hwhy, map_error (Memory.onHeap_error he), .refl _ _⟩)
    · exact .inl ⟨_, ⟨h', ledger⟩, _, run_onHeap_ok hok, hb,
        .unrootOne ((h.resolve_view handle).trans hres) hroot hcount⟩
    · exact .inl ⟨_, ⟨h', ledger⟩, _, run_onHeap_ok hok, hb,
        .unrootLast ((h.resolve_view handle).trans hres) hroot hcount hg⟩
  | setChild side target x =>
    rcases Memory.setChild_cases hs side target x with
      ⟨e, hwhy, he⟩ | ⟨m', tag, handle, c, rfl, hok, hres, hc, hx, hb, -⟩
    · exact .inr (.inl ⟨e, _, hwhy, map_error he, .refl _ _⟩)
    · exact .inl ⟨_, m', _, map_ok hok, hb, .setChild hres hc hx⟩
  | shade x =>
    rcases Heap.shadeValue_cases hs x with ⟨e, hx, he⟩ | ⟨tag, handle, h', rfl, hres, hok, hb⟩
    · exact .inr (.inl ⟨e, _, .of_live rfl hx, map_error (Memory.onHeap_error he), .refl _ _⟩)
    · exact .inl ⟨_, ⟨h', ledger⟩, _, run_onHeap_ok hok, hb,
        .shade ((h.resolve_view handle).trans hres)⟩
  | scan budget =>
    obtain ⟨h', n, w, hok, hscans, hb, hle, hend⟩ := Heap.scan_ok hs budget
    exact .inl ⟨_, ⟨h', ledger⟩, w, run_onHeap_ok hok, hb, .scan hscans hle hend⟩
  | startCycle =>
    obtain ⟨h', hok, hb⟩ := Heap.startCycle_ok hs
    exact .inl ⟨_, ⟨h', ledger⟩, _, run_onHeap_ok hok, hb, .startCycle⟩
  | sweep =>
    rcases Heap.sweep_cases hs with ⟨⟨l, hl⟩, he⟩ | ⟨hend, h', ls, hok, hnodup, hls, hb⟩
    · have hgrey : h.isScanned = false := by
        rw [← Bool.not_eq_true, Heap.isScanned_iff hs]
        exact fun hnone => hnone l hl
      exact .inr (.inl ⟨_, _, .unscanned hgrey, map_error (Memory.onHeap_error he), .refl _ _⟩)
    · exact .inl ⟨_, ⟨h', ledger⟩, _, run_onHeap_ok hok, hb, .sweep hend hnodup hls⟩
  | collect =>
    obtain ⟨h', n, w, hok, hcollects, hb⟩ := Heap.collect_ok hs
    exact .inl ⟨_, ⟨h', ledger⟩, w, run_onHeap_ok hok, hb, .collect hcollects⟩

/-- An action of which an operation shows the answer in another form ends as the operation does. -/
theorem act_cases {α : Type} {act : MemoryM α} {f : α → Result} {op : Operation Value}
    (hop : op.run = f <$> act) (hs : m.heap.tables.Sound) :
    (∃ a m' w, act m = .ok a m' ∧ m.heap.Becomes m'.heap w ∧ m.heap.view.Effect op (.ok (f a)) w) ∨
      (∃ e m', m.heap.Refuses op e ∧ act m = .error (.error e) m' ∧ m.Intact op.operands m') ∨
      ∃ items e m' w, m.heap.Refuses op e ∧ op = .list items ∧ act m = .error (.error e) m' ∧
        m.heap.Becomes m'.heap w ∧ m.heap.view.Effect op (.error e) w := by
  have hrun := run_cases hs op
  rw [hop] at hrun
  cases hact : act m with
  | ok a m' =>
    rw [map_ok hact] at hrun
    rcases hrun with ⟨r, m₁, w, hok, hb, he⟩ | ⟨e, m₁, -, herr, -⟩ | ⟨items, e, m₁, w, -, -, herr, -⟩
    · cases hok
      exact .inl ⟨a, m', w, rfl, hb, he⟩
    · cases herr
    · cases herr
  | error f m' =>
    rw [map_error hact] at hrun
    rcases hrun with ⟨r, m₁, w, hok, -⟩ | ⟨e, m₁, hwhy, herr, hintact⟩ |
      ⟨items, e, m₁, w, hwhy, hlist, herr, hb, he⟩
    · cases hok
    · cases herr
      exact .inr (.inl ⟨e, m', hwhy, rfl, hintact⟩)
    · cases herr
      exact .inr (.inr ⟨items, e, m', w, hwhy, hlist, rfl, hb, he⟩)

/-- An action on the heap alone, of which an operation shows the answer in another form. -/
theorem heap_act_cases {α : Type} {act : HeapM α} {f : α → Result} {op : Operation Value}
    (hop : op.run = f <$> Memory.onHeap act) (hlist : ∀ items, op ≠ .list items)
    (hs : m.heap.tables.Sound) :
    (∃ a h' w, act m.heap = .ok a h' ∧ m.heap.Becomes h' w ∧ m.heap.view.Effect op (.ok (f a)) w) ∨
      ∃ e, m.heap.Refuses op e ∧ act m.heap = .error (.error e) m.heap := by
  obtain ⟨h, ledger⟩ := m
  have hcases := act_cases hop hs
  cases hact : act h with
  | ok a h' =>
    rw [Memory.onHeap_ok hact] at hcases
    rcases hcases with ⟨b, m', w, hok, hb, he⟩ | ⟨e, m', -, herr, -⟩ | ⟨items, e, m', w, -, rfl, -⟩
    · cases hok
      exact .inl ⟨a, h', w, rfl, hb, he⟩
    · cases herr
    · exact absurd rfl (hlist items)
  | error e h' =>
    rw [Memory.onHeap_error hact] at hcases
    rcases hcases with ⟨b, m', w, hok, -⟩ | ⟨e', m', hwhy, herr, hintact⟩ | ⟨items, e', m', w, -, rfl, -⟩
    · cases hok
    · cases herr
      obtain rfl : h' = h := hintact.heap
      exact .inr ⟨e', hwhy, rfl⟩
    · exact absurd rfl (hlist items)

end Operation

end ConsHeap
