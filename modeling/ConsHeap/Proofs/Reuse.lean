import ConsHeap.Proofs.Boundaries
import ConsHeap.Proofs.Census
import ConsHeap.Proofs.Contents
import ConsHeap.Proofs.Numbering

/-!
# Slots after a sweep

Cells that die leave their slots in the gap, in the free tail and in the root table. After a sweep every
slot of the cons table that no grey and no white cell has is free, so none is lost, and that is how many
cells can be made before another page is needed.

* `Request`, `Request.Fits`: a request for a new cell, and that nothing in it speaks against it.
* `Memory.Fit`: requests that fit, each when its turn comes.
* `Memory.Made`: new cells in spare storage, and nothing else.
* `Memory.Good.make_free`, `Memory.Good.make_full`: a cell is made in a free slot, or takes a page.
* `Memory.Good.make_all`: cells are made as long as there are free slots.
* `Memory.sweep_loses_no_slot`: **after a sweep or a collection just so many cells can be made without
  growth as there are slots that no survivor has.**
-/

namespace ConsHeap

/-- A request for a new cell. -/
structure Request where
  tag : Tag
  car : Value
  cdr : Value

namespace Request

variable {q : Request} {handle : Handle} {m m' : Memory}

/-- Make the cell. -/
def make (q : Request) : MemoryM Value := Memory.cons q.tag q.car q.cdr

/-- The tag is one of a cons, and both values may be stored. -/
structure Fits (q : Request) (m : Memory) : Prop where
  tag : q.tag.family = some .cons
  car : m.heap.accepts q.car = true
  cdr : m.heap.accepts q.cdr = true

/-- The handle stands for a white cell with the tag and the values that were requested. -/
structure Issued (q : Request) (handle : Handle) (m : Memory) : Prop where
  resolves : m.heap.resolve handle = some handle.location
  white : m.heap.tables.color? handle.location = some .white
  stored : ∃ c, m.heap.stored handle.location = some c ∧ c.tag = q.tag ∧ c.car = q.car ∧ c.cdr = q.cdr

/-- A handle still stands for what it did when nothing has changed at its location. -/
theorem Issued.kept (h : q.Issued handle m) (hid : m'.heap.id = m.heap.id)
    (hcolor : m'.heap.tables.color? handle.location = m.heap.tables.color? handle.location)
    (hstored : m'.heap.stored handle.location = m.heap.stored handle.location) : q.Issued handle m' where
  resolves := by
    have hsame : m'.heap.view.resolve handle = m.heap.view.resolve handle :=
      View.resolve_congr hid (congrArg Option.isSome hcolor) hstored
    rw [← Heap.resolve_view, hsame, Heap.resolve_view, h.resolves]
  white := hcolor.trans h.white
  stored := by
    rw [hstored]
    exact h.stored

end Request

namespace Memory

variable {m m₁ m' : Memory} {h h' : Heap} {ledger : Ledger} {q : Request} {qs : List Request}
  {handle : Handle} {handles : List Handle} {l : Location} {d : Cell} {x : Value}

/-- The requests fit, each in the state that those before it leave. -/
def Fit : Memory → List Request → Prop
  | _, [] => True
  | m, q :: qs => q.Fits m ∧ Fit (Outcome.state (q.make m)) qs

/-! ## New cells -/

/-- New white cells are there, one for each request, in storage that was spare. Nothing else has changed. -/
structure Made (m : Memory) (qs : List Request) (handles : List Handle) (m' : Memory) : Prop where
  id : m'.heap.id = m.heap.id
  spare : ∀ l ∈ handles.map Handle.location, m.heap.tables.color? l = none
  nodup : (handles.map Handle.location).Nodup
  cells : List.Forall₂ (fun q handle => q.Issued handle m') qs handles
  others : ∀ l ∉ handles.map Handle.location,
    m'.heap.tables.color? l = m.heap.tables.color? l ∧ m'.heap.stored l = m.heap.stored l

theorem Made.nil (m : Memory) : m.Made [] [] m :=
  ⟨rfl, fun _ hl => absurd hl List.not_mem_nil, List.nodup_nil, .nil, fun _ _ => ⟨rfl, rfl⟩⟩

/-- A request that fits is met in a free slot: the spare cell there becomes the new one, the end of the
white zone is shifted, and no page is added. -/
structure Met (m : Memory) (q : Request) (handle : Handle) (m' : Memory) : Prop where
  id : m'.heap.id = m.heap.id
  spare : m.heap.tables.color? handle.location = none
  issued : q.Issued handle m'
  others : ∀ l ≠ handle.location,
    m'.heap.tables.color? l = m.heap.tables.color? l ∧ m'.heap.stored l = m.heap.stored l

/-- The cells that are made after one are others. -/
theorem Made.cons (hfirst : m.Met q handle m₁) (hrest : m₁.Made qs handles m') :
    m.Made (q :: qs) (handle :: handles) m' := by
  have hnot : handle.location ∉ handles.map Handle.location := by
    intro hmem
    have hdead := hrest.spare _ hmem
    rw [hfirst.issued.white] at hdead
    cases hdead
  have hother : ∀ l ∈ handles.map Handle.location, l ≠ handle.location := fun l hl heq => hnot (heq ▸ hl)
  obtain ⟨hcolor, hstored⟩ := hrest.others _ hnot
  refine ⟨hrest.id.trans hfirst.id, ?_, List.nodup_cons.2 ⟨hnot, hrest.nodup⟩,
    .cons (hfirst.issued.kept hrest.id hcolor hstored) hrest.cells, ?_⟩
  · intro l hl
    rcases List.mem_cons.1 hl with rfl | hl
    · exact hfirst.spare
    · rw [← (hfirst.others l (hother l hl)).1]
      exact hrest.spare l hl
  · intro l hl
    rw [List.map_cons, List.mem_cons, not_or] at hl
    obtain ⟨hne, hl⟩ := hl
    obtain ⟨hcolor₁, hstored₁⟩ := hfirst.others l hne
    obtain ⟨hcolor₂, hstored₂⟩ := hrest.others l hl
    exact ⟨hcolor₂.trans hcolor₁, hstored₂.trans hstored₁⟩

/-! ## One request -/

/-- When room was made, what is left to do is to fill a slot and to issue a handle. -/
theorem make_of_room (hfit : q.Fits ⟨h, ledger⟩) (hroom : Heap.roomForCell h = .ok () h') :
    q.make ⟨h, ledger⟩ = (do
      let l ← fill q.tag q.car q.cdr
      return .cons q.tag (← onHeap (Heap.issue l)) : MemoryM Value) ⟨h', (ledger.retain q.car).retain q.cdr⟩ := by
  rw [Request.make, cons, bind_ok (checkCons_ok hfit.tag hfit.car hfit.cdr), bind_ok (holding_ok hroom q.car q.cdr)]

/-- The spare cell that is filled becomes the one that was requested. -/
theorem met_of_fill (hid : m'.heap.id = m.heap.id) (hdead : m.heap.view.color l = none)
    (hview : m'.heap.view = m.heap.view.fill l (d.renew q.tag q.car q.cdr)) :
    m.Met q ⟨m'.heap.id, l, d.generation + 1⟩ m' := by
  have hcolor : m'.heap.tables.color? l = some .white := by
    rw [← Heap.view_color, hview]
    exact Function.update_self ..
  have hstored : m'.heap.stored l = some (d.renew q.tag q.car q.cdr) := by
    rw [Heap.stored_eq_contents, hview]
    exact Function.update_self ..
  have hlive : (m'.heap.tables.color? l).isSome = true := by rw [hcolor, Option.isSome_some]
  refine ⟨hid, hdead, ⟨?_, hcolor, _, hstored, rfl, rfl, rfl⟩, fun k hk => ⟨?_, ?_⟩⟩
  · rw [← Heap.resolve_view]
    exact View.resolve_eq_some_iff.2 ⟨rfl, rfl, hlive, _, hstored, rfl⟩
  · rw [← Heap.view_color, hview]
    exact Function.update_of_ne hk ..
  · rw [Heap.stored_eq_contents, hview]
    exact Function.update_of_ne hk ..

/-- A request that fits is met when a slot is free. No page is added, and the root table is as it was. -/
theorem Good.make_free (hg : m.Good) (hfull : m.heap.tables.zones.isFull = false) (hfit : q.Fits m) :
    ∃ handle m', q.make m = .ok (.cons q.tag handle) m' ∧ m.Met q handle m' ∧
      m'.outline = m.outline ∧ m'.heap.tables.roots = m.heap.tables.roots ∧
      m'.heap.tables.zones = m.heap.tables.zones.extended := by
  have hs := hg.sound
  obtain ⟨h, ledger⟩ := m
  have hroom : Heap.roomForCell h = .ok () h := by
    rw [Heap.roomForCell, bind_get, if_neg (by simp [hfull])]
    rfl
  let held : Memory := ⟨h, (ledger.retain q.car).retain q.cdr⟩
  obtain ⟨⟨h₂, ledger₂⟩, l, d, hfill, hdead, hd, hroots, hb, -⟩ := fill_ok (m := held) hs hfull q.tag q.car q.cdr
  have hc : h₂.view.contents l = some (d.renew q.tag q.car q.cdr) := by
    rw [hb.view]
    exact Function.update_self ..
  have hok : q.make ⟨h, ledger⟩ = .ok (.cons q.tag ⟨h₂.id, l, d.generation + 1⟩) ⟨h₂, ledger₂⟩ := by
    rw [make_of_room hfit hroom, bind_ok hfill, bind_ok (onHeap_ok (Heap.issue_ok hc))]
    rfl
  have hmet : Met ⟨h, ledger⟩ q ⟨h₂.id, l, d.generation + 1⟩ ⟨h₂, ledger₂⟩ :=
    met_of_fill (m := ⟨h, ledger⟩) hb.id hdead hb.view
  have hzones : h₂.tables.zones = h.tables.zones.extended := zones_fill (m := held) hs hfull hfill
  have hkept := keeps_fill q.tag q.car q.cdr held
  rw [hfill] at hkept
  exact ⟨_, _, hok, hmet, hkept, hroots, hzones⟩

/-- A request that fits takes a page when no slot is free, or is refused for want of one. -/
theorem Good.make_full (hg : m.Good) (hfull : m.heap.tables.zones.isFull = true) (hfit : q.Fits m) :
    (∃ e m', e.isAllocation = true ∧ q.make m = .error (.error e) m' ∧ m'.heap = m.heap) ∨
      ∃ handle m', q.make m = .ok (.cons q.tag handle) m' ∧
        m'.heap.tables.storage.pages.size = m.heap.tables.storage.pages.size + 1 := by
  have hs := hg.sound
  rcases cons_cases hs q.tag q.car q.cdr with
    ⟨e, m', hwhy, herr, hintact⟩ | ⟨m', handle, w, hok, -, -, -, -, -⟩
  · left
    refine ⟨e, m', ?_, herr, hintact.heap⟩
    cases hwhy with
    | memory halloc => exact halloc
    | consTag hno => exact absurd hfit.tag hno
    | foreign hmem hno =>
      rcases List.mem_pair.1 hmem with rfl | rfl
      · rw [hfit.car] at hno
        cases hno
      · rw [hfit.cdr] at hno
        cases hno
    | noCons hsub => cases hsub
  · right
    refine ⟨handle, m', hok, ?_⟩
    obtain ⟨⟨id, sizing, kinds, t⟩, ledger⟩ := m
    have hstart : Heap.roomForCell ⟨id, sizing, kinds, t⟩ =
        Heap.onTables (Tables.growZones sizing.cellsPerPage) ⟨id, sizing, kinds, t⟩ := by
      rw [Heap.roomForCell, bind_get, if_pos hfull]
    rcases Tables.growZones_cases hs sizing.cellsPerPage with
      ⟨e, -, he⟩ | ⟨u, page, slots, hu, hgrown, hlen, -, hpush⟩
    · -- without a page the request would have been refused
      obtain ⟨m₁, herr, -⟩ := holding_error (hstart.trans (Heap.onTables_error he)) q.car q.cdr
      rw [cons, bind_ok (checkCons_ok hfit.tag hfit.car hfit.cdr), bind_error herr] at hok
      cases hok
    · have hroom := hstart.trans (Heap.onTables_ok hu)
      have hrest : Keeps outline (do
          let l ← fill q.tag q.car q.cdr
          return .cons q.tag (← onHeap (Heap.issue l)) : MemoryM Value) :=
        (keeps_fill q.tag q.car q.cdr).bind fun l => (keeps_onHeap (Heap.keeps_issue l)).bind fun _ => .pure _
      have hkept := hrest ⟨⟨id, sizing, kinds, u⟩, (ledger.retain q.car).retain q.cdr⟩
      rw [← make_of_room hfit hroom, show q.make _ = _ from hok] at hkept
      exact ((Heap.adds_slots hgrown hlen hpush).congr hkept).pages

/-! ## Many requests -/

theorem make_fit (hfit : m.Fit (q :: qs)) (hok : q.make m = .ok x m') : q.Fits m ∧ m'.Fit qs := by
  obtain ⟨hfirst, hrest⟩ := hfit
  rw [hok] at hrest
  exact ⟨hfirst, hrest⟩

/-- The slots that are free are filled one after the other. -/
theorem Good.make_all (qs : List Request) : ∀ {m : Memory}, m.Good → m.Fit qs →
    m.heap.tables.zones.whiteTop + qs.length ≤ m.heap.tables.zones.capacity →
    ∃ handles m', qs.mapM Request.make m =
        .ok (List.zipWith (fun q handle => .cons q.tag handle) qs handles) m' ∧
      m.Made qs handles m' ∧ m'.Good ∧ m'.outline = m.outline ∧ m'.heap.tables.roots = m.heap.tables.roots ∧
      m'.heap.tables.zones.whiteTop = m.heap.tables.zones.whiteTop + qs.length := by
  induction qs with
  | nil => exact fun {m} hg _ _ => ⟨[], m, rfl, .nil m, hg, rfl, rfl, rfl⟩
  | cons q qs ih =>
    intro m hg hfit hlen
    rw [List.length_cons] at hlen
    have hfull : m.heap.tables.zones.isFull = false := by
      rw [Zones.isFull, beq_eq_false_iff_ne]
      omega
    obtain ⟨handle, m₁, hok, hmet, hout, hroots, hzones⟩ := hg.make_free hfull hfit.1
    have hrun : (Operation.cons q.tag q.car q.cdr).run m = .ok (.value (.cons q.tag handle)) m₁ := map_ok hok
    have hg₁ : m₁.Good := hg.of_run hrun
    have hrest := (make_fit hfit hok).2
    obtain ⟨handles, m', hoks, hmade, hg', hout', hroots', htop⟩ := ih hg₁ hrest (by
      rw [hzones]
      simp only [Zones.extended, Zones.capacity] at hlen ⊢
      omega)
    refine ⟨handle :: handles, m', ?_, .cons hmet hmade, hg', hout'.trans hout, hroots'.trans hroots, ?_⟩
    · rw [List.mapM_cons, bind_ok hok, bind_ok hoks]
      rfl
    · rw [htop, hzones, List.length_cons]
      simp only [Zones.extended]
      omega

/-- What was live before has not changed. -/
theorem Made.survives (hmade : m.Made qs handles m') (hl : m.heap.tables.color? l ≠ none) :
    m'.heap.tables.color? l = m.heap.tables.color? l ∧ m'.heap.stored l = m.heap.stored l :=
  hmade.others l fun hmem => hl (hmade.spare l hmem)

/-! ## After a sweep -/

/-- A sweep or a collection that answers leaves neither a black cell nor a gap. -/
theorem lower_of_sweep {op : Operation Value} {r : Result} (hop : op = .sweep ∨ op = .collect)
    (hok : op.run m = .ok r m') : m'.heap.lower = (0, 0) := by
  rcases hop with rfl | rfl
  · obtain ⟨n, hsweep, -⟩ := exists_of_map_eq_ok hok
    obtain ⟨h', hok', rfl⟩ := exists_of_onHeap_eq_ok hsweep
    exact Heap.lower_of_sweep hok'
  · obtain ⟨n, hcollect, -⟩ := exists_of_map_eq_ok hok
    obtain ⟨h', hok', rfl⟩ := exists_of_onHeap_eq_ok hcollect
    exact Heap.lower_of_collect hok'

/-- **After any run, let a sweep or a collection answer. Then there is no gap, and every slot of the cons
table is grey, white or free. Any requests that fit when their turn comes, as many as there are free slots
or fewer, are met one after the other without a page, and the root table and the budget are as they were.
Each gets a new white cell with its tag and values, in storage that no survivor has and no other of them,
and every survivor keeps its colour and what it holds. When all free slots are filled, one more request
that fits takes a page, or is refused for want of one.** -/
theorem sweep_loses_no_slot (id : UInt32) (sizing : Sizing) (ledger : Ledger) (moves : List Move)
    (op : Operation Value) (hop : op = .sweep ∨ op = .collect) (r : Result) (m₁ : Memory)
    (hok : op.run ((start id sizing ledger).runs moves) = .ok r m₁) :
    ∃ o, m₁.heap.occupancy = .ok o ∧ o.gap = 0 ∧ o.free = o.capacity - o.grey - o.white ∧
      o.grey + o.white ≤ o.capacity ∧
      ∀ qs, m₁.Fit qs → qs.length ≤ o.free → ∃ handles m₂,
        qs.mapM Request.make m₁ = .ok (List.zipWith (fun q handle => .cons q.tag handle) qs handles) m₂ ∧
        m₂.outline = m₁.outline ∧ m₂.heap.tables.roots = m₁.heap.tables.roots ∧
        m₁.Made qs handles m₂ ∧
        (∀ l, m₁.heap.tables.color? l ≠ none →
          m₂.heap.tables.color? l = m₁.heap.tables.color? l ∧ m₂.heap.stored l = m₁.heap.stored l) ∧
        (qs.length = o.free → ∀ q : Request, q.Fits m₂ →
          (∃ e m₃, e.isAllocation = true ∧ q.make m₂ = .error (.error e) m₃ ∧ m₃.heap = m₂.heap) ∨
            ∃ handle m₃, q.make m₂ = .ok (.cons q.tag handle) m₃ ∧
              m₃.heap.tables.storage.pages.size = m₂.heap.tables.storage.pages.size + 1) := by
  have hg : m₁.Good := (good_runs id sizing ledger moves).of_run hok
  obtain ⟨hblack, hgrey⟩ := Prod.mk.inj (lower_of_sweep hop hok)
  obtain ⟨-, hgreyTop, hwhiteTop, hfree⟩ := hg.sound.zones.ordered
  refine ⟨_, hg.occupancy_eq, ?_, ?_, ?_, fun qs hfit hlen => ?_⟩
  · simp only
    omega
  · simp only
    omega
  · simp only
    omega
  · simp only at hlen
    obtain ⟨handles, m₂, hmake, hmade, hg₂, hout, hroots, htop⟩ := hg.make_all qs hfit (by omega)
    refine ⟨handles, m₂, hmake, hout, hroots, hmade, fun l hl => hmade.survives hl, fun hall q hq => ?_⟩
    -- the capacity is still the same, and the white zone has come to its end
    have hcapacity : m₂.heap.tables.zones.capacity = m₁.heap.tables.zones.capacity :=
      congrArg (fun outline => outline.2.slots) hout
    simp only at hall
    refine hg₂.make_full ?_ hq
    rw [Zones.isFull, beq_iff_eq, htop, hcapacity]
    omega

/-- A cell that died and one that went to the root table have left two slots. Both are used again. -/
theorem left_slots_are_used_again :
    let m := (start 0 ⟨2, 1, none⟩ .empty).runs [.operate (.cons .cons .nil .nil),
      .operate (.cons .cons .nil .nil), .operate (.root (.cons .cons ⟨0, ⟨0, 1⟩, 1⟩))]
    let qs : List Request := [⟨.cons, .nil, .nil⟩, ⟨.cons, .nil, .nil⟩]
    ∃ r m₁ handles m₂, Operation.sweep.run m = .ok r m₁ ∧
      qs.mapM Request.make m₁ = .ok (List.zipWith (fun q handle => .cons q.tag handle) qs handles) m₂ ∧
      m₁.Made qs handles m₂ ∧ m₂.outline = m₁.outline := by
  intro m qs
  have hfree : (Outcome.state (Operation.sweep.run m)).heap.occupancy.toOption.map Occupancy.free = some 2 := by
    decide +kernel
  have hanswers : Outcome.successes (Operation.sweep.run m) = 1 := by decide +kernel
  cases hok : Operation.sweep.run m with
  | error e m₁ =>
    rw [hok] at hanswers
    cases hanswers
  | ok r m₁ =>
    obtain ⟨o, ho, -, -, -, hmakes⟩ := sweep_loses_no_slot 0 ⟨2, 1, none⟩ .empty
      [.operate (.cons .cons .nil .nil), .operate (.cons .cons .nil .nil),
        .operate (.root (.cons .cons ⟨0, ⟨0, 1⟩, 1⟩))] .sweep (.inl rfl) r m₁ hok
    have htwo : o.free = 2 := by
      rw [hok, Outcome.state, ho] at hfree
      exact Option.some.inj hfree
    obtain ⟨handles, m₂, hmake, hout, -, hmade, -⟩ := hmakes qs
      ⟨⟨rfl, rfl, rfl⟩, ⟨rfl, rfl, rfl⟩, trivial⟩ (Nat.le_of_eq htwo.symm)
    exact ⟨r, m₁, handles, m₂, rfl, hmake, hmade, hout⟩

end Memory

end ConsHeap
