import ConsHeap.Heap.Listed
import ConsHeap.Proofs.Refinement

/-!
# Handles of dead cells

A handle resolves while its cell lives. After that its location may be used again, for cells of other
generations. Generations are numbers of 32 bits, so that of the handle comes back.

* `Memory.Rejects`: all that may be asked about a handle, or done with it, is refused as foreign.
* `Memory.rejects_iff`: this is so just when the handle does not resolve.
* `Memory.Good.resolve_runs_iff`: a handle that resolves does so again after a run just when its location
  is in use and was taken into use a multiple of `2 ^ 32` times.
* `Memory.dead_handle_is_rejected`: **the handle of a dead cell is rejected until its location has been
  taken into use `2 ^ 32` times, and after that just as long as it is not in use for a multiple of that.**
-/

namespace ConsHeap

namespace Heap

variable {h : Heap} {handle : Handle} {tag : Tag} {x : Value}

theorem live_of_not_resolve (hres : h.resolve handle = none) :
    h.live (.cons tag handle) = .error .foreign := by
  simp only [live, Value.handle?, hres]

/-- A value with a handle that does not resolve may not be stored. -/
theorem checkChild_of_not_resolve (hres : h.resolve handle = none) (hmem : handle ∈ x.handles) :
    checkChild x h = .error (.error .foreign) h := by
  have haccepts : h.accepts x = false := by
    rw [accepts, List.all_eq_false]
    exact ⟨handle, hmem, by simp [hres]⟩
  exact checkChild_error haccepts

/-- A handle resolves to its own location, or not at all. -/
theorem resolve_eq_none_iff : h.resolve handle = none ↔ h.resolve handle ≠ some handle.location := by
  constructor
  · intro hnone
    rw [hnone]
    simp
  · intro hne
    cases hres : h.resolve handle with
    | none => rfl
    | some l =>
      obtain ⟨-, rfl, -⟩ := resolve_eq_some_iff.1 hres
      exact absurd hres hne

end Heap

namespace Memory

variable {m : Memory} {handle : Handle} {l : Location} {b : Location → Nat}

/-! ## Rejection -/

/-- All that may be asked about a cons with this handle, or done with it, is refused as foreign, and it is
not counted as a root. No value that contains it, in a closure at any depth, is stored in a cell. -/
structure Rejects (m : Memory) (handle : Handle) : Prop where
  child : ∀ side tag, m.heap.child side (.cons tag handle) = .error .foreign
  color : ∀ tag, m.heap.color (.cons tag handle) = .error .foreign
  print : ∀ tag, m.heap.print (.cons tag handle) = .error .foreign
  rootCount : ∀ tag, m.heap.rootCount (.cons tag handle) = .ok 0
  root : ∀ tag, (Operation.root (.cons tag handle)).run m = .error (.error .foreign) m
  unroot : ∀ tag, (Operation.unroot (.cons tag handle)).run m = .error (.error .foreign) m
  shade : ∀ tag, (Operation.shade (.cons tag handle)).run m = .error (.error .foreign) m
  setChild : ∀ side tag x,
    (Operation.setChild side (.cons tag handle) x).run m = .error (.error .foreign) m
  stored : ∀ side tag target k x, m.heap.resolve target = some k → handle ∈ x.handles →
    (Operation.setChild side (.cons tag target) x).run m = .error (.error .foreign) m
  cons : ∀ tag car cdr, tag.family = some .cons → handle ∈ car.handles ++ cdr.handles →
    (Operation.cons tag car cdr).run m = .error (.error .foreign) m
  rootedCons : ∀ tag car cdr, tag.family = some .cons → handle ∈ car.handles ++ cdr.handles →
    (Operation.rootedCons tag car cdr).run m = .error (.error .foreign) m

/-- A new cell with a value that may not be stored is refused. -/
theorem checkCons_of_not_resolve {tag : Tag} {car cdr : Value} (htag : tag.family = some .cons)
    (hres : m.heap.resolve handle = none) (hmem : handle ∈ car.handles ++ cdr.handles) :
    checkCons tag car cdr m = .error (.error .foreign) m := by
  obtain ⟨h, ledger⟩ := m
  have hok : tag.asCons = .ok tag := if_pos htag
  cases hcar : h.accepts car with
  | false =>
    rw [checkCons, bind_ok (answer_ok hok), bind_error (onHeap_error (Heap.checkChild_error hcar))]
  | true =>
    -- the handle resolves if it is in the car, so it is in the cdr
    have hcdr : handle ∈ cdr.handles := by
      refine (List.mem_append.1 hmem).resolve_left fun hin => ?_
      have hsome := List.all_eq_true.1 hcar handle hin
      rw [hres] at hsome
      cases hsome
    rw [checkCons, bind_ok (answer_ok hok), bind_ok (onHeap_ok (Heap.checkChild_ok hcar)),
      bind_error (onHeap_error (Heap.checkChild_of_not_resolve hres hcdr))]

/-- A handle that does not resolve is rejected. -/
theorem rejects_of_not_resolve (hres : m.heap.resolve handle = none) : m.Rejects handle := by
  obtain ⟨h, ledger⟩ := m
  have hlive : ∀ tag, h.live (.cons tag handle) = .error .foreign := fun tag =>
    Heap.live_of_not_resolve hres
  have hcell : ∀ tag, h.liveCell (.cons tag handle) = .error .foreign := fun tag =>
    Heap.liveCell_of_not_resolve hres
  constructor
  case child =>
    intro side tag
    rw [Heap.child, hcell]
    rfl
  case color =>
    intro tag
    rw [Heap.color, hlive]
    rfl
  case print =>
    intro tag
    have hcons : (Value.cons tag handle).isCons = true := rfl
    rw [Heap.print, Heap.printItem, if_pos hcons, hlive]
    rfl
  case rootCount =>
    intro tag
    rw [Heap.rootCount, hcell]
  case root =>
    intro tag
    refine map_error (onHeap_error ?_)
    rw [Heap.root, bind_get, bind_error (answer_error (hcell tag))]
  case unroot =>
    intro tag
    refine map_error (onHeap_error ?_)
    rw [Heap.unroot, bind_get, bind_error (answer_error (hcell tag))]
  case shade =>
    intro tag
    refine map_error (onHeap_error ?_)
    rw [Heap.shadeValue, bind_get, bind_error (answer_error (hlive tag))]
  case setChild =>
    intro side tag x
    refine map_error ?_
    rw [Memory.setChild, bind_get, bind_error (answer_error (hcell tag))]
  case stored =>
    intro side tag target k x htarget hmem
    refine map_error ?_
    obtain ⟨-, -, -, c, hc, -⟩ := Heap.resolve_eq_some_iff.1 htarget
    have htarget : h.liveCell (.cons tag target) = .ok (k, c) := Heap.liveCell_of_resolve htarget hc
    rw [Memory.setChild, bind_get, bind_ok (answer_ok htarget)]
    simp only
    rw [bind_error (onHeap_error (Heap.checkChild_of_not_resolve hres hmem))]
  case cons =>
    intro tag car cdr htag hmem
    exact map_error (bind_error (checkCons_of_not_resolve htag hres hmem))
  case rootedCons =>
    intro tag car cdr htag hmem
    exact map_error (bind_error (checkCons_of_not_resolve htag hres hmem))

/-- **A handle is rejected just when it does not resolve.** -/
theorem rejects_iff : m.Rejects handle ↔ m.heap.resolve handle = none := by
  constructor
  · intro hr
    cases hres : m.heap.resolve handle with
    | none => rfl
    | some l =>
      -- a cell that lives has a car
      obtain ⟨-, -, -, c, hc, -⟩ := Heap.resolve_eq_some_iff.1 hres
      have hchild : m.heap.child .car (.cons .cons handle) = .ok c.car := by
        rw [Heap.child, Heap.liveCell_of_resolve hres hc]
        rfl
      rw [hr.child .car .cons] at hchild
      cases hchild
  · exact rejects_of_not_resolve

/-! ## Ages in runs -/

/-- After a run, storage is as old as it was taken into use, before or in the run. -/
theorem Good.aged_runs (moves : List Move) : ∀ {m : Memory} {b : Location → Nat}, m.Good →
    m.heap.view.Aged b → (m.runs moves).heap.view.Aged (fun l => b l + uses l m moves) ∧
      (m.runs moves).heap.id = m.heap.id := by
  induction moves with
  | nil =>
    intro m b _ haged
    exact ⟨haged, rfl⟩
  | cons mv moves ih =>
    intro m b hg haged
    obtain ⟨haged', hid'⟩ := hg.aged_after haged mv
    obtain ⟨hruns, hid⟩ := ih (hg.after mv) haged'
    refine ⟨?_, hid.trans hid'⟩
    -- the uses in the first move are in the ages after it
    have hsum : (fun l => b l + uses l m (mv :: moves)) = fun l =>
        m.heap.view.age (mv.after m).heap.view b l + uses l (mv.after m) moves := by
      funext l
      rw [uses, View.age, Nat.add_assoc]
    rw [hsum]
    exact hruns

/-- Numbers with the same generation differ by a multiple of `2 ^ 32`. -/
theorem ofNat_add_eq_iff (a n : Nat) : UInt32.ofNat (a + n) = UInt32.ofNat a ↔ UInt32.size ∣ n := by
  rw [← UInt32.toNat_inj, UInt32.toNat_ofNat', UInt32.toNat_ofNat']
  simp only [UInt32.size]
  omega

/-- **A handle that resolves does so again after a run just when its location is in use then and was
taken into use a multiple of `2 ^ 32` times.** -/
theorem Good.resolve_runs_iff (hg : m.Good) (haged : m.heap.view.Aged b)
    (hres : m.heap.resolve handle = some l) (moves : List Move) :
    (m.runs moves).heap.resolve handle = some l ↔
      (m.runs moves).heap.tables.color? l ≠ none ∧ UInt32.size ∣ uses l m moves := by
  obtain ⟨haged', hid⟩ := Good.aged_runs moves hg haged
  have hgood := hg.runs moves
  obtain ⟨hheap, rfl, hlive, c, hc, hgen⟩ := Heap.resolve_eq_some_iff.1 hres
  -- the generation in the handle is the age before the run
  have hage : handle.generation = UInt32.ofNat (b handle.location) := by
    rw [← haged.generation, View.generation, Heap.contents_view hc, Option.elim_some, ← hgen]
    rfl
  have hage' : ∀ d, (m.runs moves).heap.cell? handle.location = some d →
      d.generation = UInt32.ofNat (b handle.location + uses handle.location m moves) := by
    intro d hd
    rw [← haged'.generation, View.generation, Heap.contents_view hd, Option.elim_some]
    rfl
  rw [Heap.resolve_eq_some_iff, ← ofNat_add_eq_iff (b handle.location), ← hage]
  constructor
  · rintro ⟨-, -, hlive', d, hd, hdgen⟩
    exact ⟨Option.isSome_iff_ne_none.1 hlive', by rw [← hage' d hd, hdgen]⟩
  · rintro ⟨hlive', hsame⟩
    obtain ⟨d, hd⟩ := Tables.exists_cell hlive'
    exact ⟨hheap.trans hid.symm, rfl, Option.isSome_iff_ne_none.2 hlive', d, hd,
      (hage' d hd).trans hsame⟩

/-- A location that is not taken into use in a run is not in use after it, if it was not before. -/
theorem color_runs_of_uses_eq_zero (l : Location) (moves : List Move) : ∀ {m : Memory},
    m.heap.tables.color? l = none → uses l m moves = 0 →
      (m.runs moves).heap.tables.color? l = none := by
  induction moves with
  | nil => exact fun hl _ => hl
  | cons mv moves ih =>
    intro m hl huses
    rw [uses, Nat.add_eq_zero_iff] at huses
    refine ih ?_ huses.2
    by_contra hborn
    have hone : m.heap.view.births (mv.after m).heap.view l = 1 := if_pos ⟨hl, hborn⟩
    omega

/-- A move takes no location into use in which a cell lives. -/
theorem uses_cons_of_live (hlive : m.heap.tables.color? l ≠ none) (mv : Move) (later : List Move) :
    uses l m (mv :: later) = uses l (mv.after m) later := by
  have hborn : m.heap.view.births (mv.after m).heap.view l = 0 := if_neg fun h => hlive h.1
  rw [uses, hborn, Nat.zero_add]

/-- The location of a cell that dies in a move is not in use after that. -/
theorem Good.color_of_dead (hg : m.Good) (haged : m.heap.view.Aged b)
    (hres : m.heap.resolve handle = some l) (mv : Move)
    (hdead : (mv.after m).heap.resolve handle = none) : (mv.after m).heap.tables.color? l = none := by
  obtain ⟨-, -, hlive, -⟩ := Heap.resolve_eq_some_iff.1 hres
  by_contra hlive'
  -- a cell that still lives has kept its handle
  have hkept : (mv.after m).heap.resolve handle = some l := by
    refine (hg.resolve_runs_iff haged hres [mv]).2 ⟨hlive', ?_⟩
    rw [uses_cons_of_live (Option.isSome_iff_ne_none.1 hlive), uses]
    exact Nat.dvd_zero _
  rw [hdead] at hkept
  cases hkept

/-- **After any run, let a move end the life of the cell that a handle resolves to, and any other run
follow. Then the handle is rejected just when its location is not in use, or was not taken into use a
multiple of `2 ^ 32` times since. In particular it is rejected as long as these are fewer.** -/
theorem dead_handle_is_rejected (id : UInt32) (sizing : Sizing) (ledger : Ledger) (before : List Move)
    (mv : Move) (later : List Move) (handle : Handle) (l : Location) :
    let m := (start id sizing ledger).runs before
    let m' := (mv.after m).runs later
    m.heap.resolve handle = some l → (mv.after m).heap.resolve handle = none →
      (m'.Rejects handle ↔
          m'.heap.tables.color? l = none ∨ ¬ UInt32.size ∣ uses l (mv.after m) later) ∧
        (uses l (mv.after m) later < UInt32.size → m'.Rejects handle) := by
  intro m m' hres hdead
  have hg : m.Good := good_runs id sizing ledger before
  have haged := (Good.aged_runs before (good_start id sizing ledger) (aged_start id sizing ledger)).1
  obtain ⟨-, rfl, hlive, -⟩ := Heap.resolve_eq_some_iff.1 hres
  have hiff : m'.Rejects handle ↔ m'.heap.tables.color? handle.location = none ∨
      ¬ UInt32.size ∣ uses handle.location (mv.after m) later := by
    have hagain : m'.heap.resolve handle = some handle.location ↔ _ :=
      hg.resolve_runs_iff haged hres (mv :: later)
    rw [uses_cons_of_live (Option.isSome_iff_ne_none.1 hlive)] at hagain
    rw [rejects_iff, Heap.resolve_eq_none_iff, Ne, hagain, not_and_or, not_not]
    exact Iff.rfl
  refine ⟨hiff, fun hfew => hiff.2 ?_⟩
  rcases Nat.eq_zero_or_pos (uses handle.location (mv.after m) later) with hzero | hpos
  · exact .inl (color_runs_of_uses_eq_zero handle.location later
      (hg.color_of_dead haged hres mv hdead) hzero)
  · exact .inr (Nat.not_dvd_of_pos_of_lt hpos hfew)

/-- The handle of a cell that was swept is rejected when its location is in use again. -/
theorem swept_handle_is_rejected :
    let m := (start 0 ⟨1, 1, none⟩ .empty).runs [.operate (.cons .cons .nil .nil)]
    let m' := ((Move.operate .sweep).after m).runs [.operate (.cons .cons .nil .nil)]
    m.heap.resolve ⟨0, ⟨0, 0⟩, 1⟩ = some ⟨0, 0⟩ ∧ m'.heap.tables.color? ⟨0, 0⟩ = some .white ∧
      m'.Rejects ⟨0, ⟨0, 0⟩, 1⟩ := by
  have hfew : uses ⟨0, 0⟩ ((Move.operate .sweep).after
      ((start 0 ⟨1, 1, none⟩ .empty).runs [.operate (.cons .cons .nil .nil)]))
      [.operate (.cons .cons .nil .nil)] < UInt32.size :=
    (uses_le_length _ _ _).trans_lt (by decide)
  have hrejects := dead_handle_is_rejected 0 ⟨1, 1, none⟩ .empty [.operate (.cons .cons .nil .nil)]
    (.operate .sweep) [.operate (.cons .cons .nil .nil)] ⟨0, ⟨0, 0⟩, 1⟩ ⟨0, 0⟩ rfl rfl
  exact ⟨rfl, rfl, hrejects.2 hfew⟩

/-! ## The return of a generation -/

/-- A heap with one cell, which is spare, of this generation. -/
def oneSpare (generation : UInt32) : Memory where
  heap := {
    id := 0
    sizing := ⟨1, 1, none⟩
    kinds := .standard
    tables := {
      storage := {
        pages := #[⟨⟨128⟩, #[⟨.nil, .nil, .cons, generation, .ofSlot 0 false⟩]⟩]
        budget := ⟨1, none, .standard⟩
        cells := 1 }
      zones := ⟨#[⟨0, 0⟩], 0, 0, 0, 0⟩
      roots := .empty } }
  ledger := .empty

/-- A cell is made and dies. -/
def oneUse : List Move := [.operate (.cons .cons .nil .nil), .operate .sweep]

theorem runs_oneUse (generation : UInt32) :
    (oneSpare generation).runs oneUse = oneSpare (generation + 1) := rfl

theorem runs_replicate_oneUse (n : Nat) : ∀ generation : UInt32,
    (oneSpare generation).runs (List.replicate n oneUse).flatten =
      oneSpare (generation + UInt32.ofNat n) := by
  induction n with
  | zero =>
    intro generation
    rw [List.replicate_zero, List.flatten_nil, show UInt32.ofNat 0 = 0 from rfl, UInt32.add_zero]
    rfl
  | succ n ih =>
    intro generation
    have hgen : generation + 1 + UInt32.ofNat n = generation + UInt32.ofNat (n + 1) := by
      rw [UInt32.ofNat_add, UInt32.add_assoc, UInt32.add_comm 1]
      rfl
    rw [List.replicate_succ, List.flatten_cons, runs, List.foldl_append, ← runs, ← runs, runs_oneUse, ih,
      hgen]

/-- In a heap with one cell, the handle of a dead cell resolves again once `2 ^ 32` further cells have
been made there, to the last of these. -/
theorem dead_handle_resolves_again :
    let m := (start 0 ⟨1, 1, none⟩ .empty).runs [.operate (.cons .cons .nil .nil)]
    let dead := (Move.operate .sweep).after m
    let m' := (dead.runs (List.replicate (UInt32.size - 1) oneUse).flatten).runs
      [.operate (.cons .cons (.integer 2) .nil)]
    let x : Value := .cons .cons ⟨0, ⟨0, 0⟩, 1⟩
    m.heap.child .car x = .ok .nil ∧ dead.heap.child .car x = .error .foreign ∧
      m'.heap.child .car x = .ok (.integer 2) := by
  have hzero : (1 : UInt32) + UInt32.ofNat (UInt32.size - 1) = 0 := by decide
  have hagain : ∀ dead : Memory, dead = oneSpare 1 →
      ((dead.runs (List.replicate (UInt32.size - 1) oneUse).flatten).runs
        [.operate (.cons .cons (.integer 2) .nil)]).heap.child .car (.cons .cons ⟨0, ⟨0, 0⟩, 1⟩) =
        .ok (.integer 2) := by
    rintro dead rfl
    rw [runs_replicate_oneUse, hzero]
    rfl
  exact ⟨rfl, rfl, hagain _ rfl⟩

end Memory

end ConsHeap
