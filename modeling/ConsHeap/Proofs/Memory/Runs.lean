import ConsHeap.Proofs.Memory.Effects
import ConsHeap.Proofs.View.Marking

/-!
# Runs

A program works on a heap by moves, in any order. A move that fails ends there, and the program goes
on in the state that it left.

* `Move`: what a program may do with a heap and the objects in it.
* `Memory.runs`: the state after a list of moves.
* `Memory.Good`: sound tables and the tricolour invariant.
* `Memory.good_runs`: **every run keeps both.**
-/

namespace ConsHeap

/-- What a program may do with a heap and the objects in it. -/
inductive Move where
  | operate (op : Operation Value)
  | register (tag : Tag) (kind : Kind)
  | object (tag : Tag) (body : Body Value)
  | standard (tag : Tag) (body : Body Value)
  | retain (x : Value)
  | release (x : Value)
  /-- The system has other memory to give from now on. -/
  | supply (memory : Paging.Supply)

/-- Make a move. -/
def Move.run : Move → MemoryM Unit
  | operate op => (fun _ => ()) <$> op.run
  | register tag kind => Memory.onHeap (Heap.register tag kind)
  | object tag body => (fun _ => ()) <$> Memory.object tag body
  | standard tag body => (fun _ => ()) <$> Memory.standard tag body
  | retain x => Memory.retain x
  | release x => Memory.release x
  | supply memory => modify fun m => { m with heap := m.heap.supplied memory }

/-- The state after a move, whether it failed or not. -/
def Move.after (mv : Move) (m : Memory) : Memory := Outcome.state (mv.run m)

/-- What an operation answers is no part of the move. -/
theorem Move.operate_after (op : Operation Value) (m : Memory) :
    (operate op).after m = Outcome.state (op.run m) := Outcome.state_map

namespace Memory

variable {m : Memory} {v w : View} {op : Operation Value} {r : Except HeapError Result}

/-- A new heap beside any objects. -/
def start (id : UInt32) (sizing : Sizing) (ledger : Ledger) : Memory := ⟨.new id sizing, ledger⟩

/-- The state after a list of moves. -/
def runs (m : Memory) (moves : List Move) : Memory := moves.foldl (fun m mv => mv.after m) m

/-! ## What a move does -/

/-- An operation has its effect, and ends as the effect says. -/
theorem after_operate (hs : m.heap.tables.Sound) (op : Operation Value) :
    ∃ r w, m.heap.Becomes ((Move.operate op).after m).heap w ∧ m.heap.view.Effect op r w ∧
      Outcome.answer (op.run m) = r.mapError Failure.error := by
  rcases Operation.run_cases hs op with
    ⟨a, m', w, hok, hb, he⟩ | ⟨e, m', -, herr, hintact⟩ | ⟨-, e, m', w, -, -, herr, hb, he⟩
  · refine ⟨.ok a, w, ?_, he, ?_⟩
    · rw [Move.after, Move.run, map_ok hok]
      exact hb
    · rw [hok]
      rfl
  · refine ⟨.error e, m.heap.view, ?_, .refused, ?_⟩
    · rw [Move.after, Move.run, map_error herr]
      show m.heap.Becomes m'.heap m.heap.view
      rw [hintact.heap]
      exact .refl hs
    · rw [herr]
      rfl
  · refine ⟨.error e, w, ?_, he, ?_⟩
    · rw [Move.after, Move.run, map_error herr]
      exact hb
    · rw [herr]
      rfl

/-- An object is made with the finalizer that its tag has at that time, unless the tag has no kind. -/
theorem object_cases (m : Memory) (tag : Tag) (body : Body Value) :
    (∃ e, object tag body m = .error (.error e) m) ∨
      ∃ tag', object tag body m =
        .ok (m.ledger.create tag' (m.heap.kinds.finalizer tag') body).1
          ⟨m.heap, (m.ledger.create tag' (m.heap.kinds.finalizer tag') body).2⟩ := by
  obtain ⟨h, ledger⟩ := m
  cases htag : tag.asObject with
  | error e => exact .inl ⟨e, by rw [object, bind_error (answer_error htag)]⟩
  | ok tag' =>
    cases hkind : h.kinds.find? tag' with
    | none =>
      refine .inl ⟨.wrongType .registeredTag tag', ?_⟩
      rw [object, bind_ok (answer_ok htag), bind_get]
      simp only [hkind]
      rfl
    | some kind =>
      have hfinalizer : h.kinds.finalizer tag' = kind.finalizer := by rw [Kinds.finalizer, hkind, Option.bind_some]
      refine .inr ⟨tag', ?_⟩
      rw [object, bind_ok (answer_ok htag), bind_get, hfinalizer]
      simp only [hkind]
      rfl

/-- An object with a standard tag is made with the finalizer that the tag has at that time. -/
theorem standard_ok (m : Memory) (tag : Tag) (body : Body Value) :
    standard tag body m =
      .ok (m.ledger.create tag (m.heap.kinds.finalizer tag) body).1
        ⟨m.heap, (m.ledger.create tag (m.heap.kinds.finalizer tag) body).2⟩ := rfl

/-- A kind is registered, and nothing else of the heap changes, or it is refused. -/
theorem register_cases (m : Memory) (tag : Tag) (kind : Kind) :
    (∃ e, onHeap (Heap.register tag kind) m = .error (.error e) m) ∨
      ∃ kinds, onHeap (Heap.register tag kind) m = .ok () ⟨{ m.heap with kinds }, m.ledger⟩ := by
  obtain ⟨h, ledger⟩ := m
  cases hkinds : h.kinds.register tag kind with
  | error e =>
    have herr : Heap.register tag kind h = .error (.error e) h := by
      rw [Heap.register, bind_get, bind_error (answer_error hkinds)]
    exact .inl ⟨e, onHeap_error herr⟩
  | ok kinds =>
    have hok : Heap.register tag kind h = .ok () { h with kinds } := by
      rw [Heap.register, bind_get, bind_ok (answer_ok hkinds)]
      rfl
    exact .inr ⟨kinds, onHeap_ok hok⟩

/-- Other moves keep the tables sound and do not change the view. -/
theorem after_of_ne_operate (hs : m.heap.tables.Sound) {mv : Move} (hmv : ∀ op, mv ≠ .operate op) :
    (mv.after m).heap.tables.Sound ∧ (mv.after m).heap.view = m.heap.view := by
  obtain ⟨h, ledger⟩ := m
  cases mv with
  | operate op => exact absurd rfl (hmv op)
  | register tag kind =>
    rw [Move.after, Move.run]
    rcases register_cases ⟨h, ledger⟩ tag kind with ⟨e, he⟩ | ⟨kinds, hok⟩
    · rw [he]
      exact ⟨hs, rfl⟩
    · rw [hok]
      exact ⟨hs, rfl⟩
  | object tag body =>
    rw [Move.after, Move.run]
    rcases object_cases ⟨h, ledger⟩ tag body with ⟨e, he⟩ | ⟨tag', hok⟩
    · rw [map_error he]
      exact ⟨hs, rfl⟩
    · rw [map_ok hok]
      exact ⟨hs, rfl⟩
  | standard tag body => exact ⟨hs, rfl⟩
  | retain x => exact ⟨hs, rfl⟩
  | release x => exact ⟨hs, rfl⟩
  | supply memory => exact ⟨hs.supplied memory, rfl⟩

end Memory

/-! ## What effects preserve -/

namespace View

variable {v w : View} {op : Operation Value} {r : Except HeapError Result} {handle : Handle}
  {l : Location}

/-- Every operation keeps the tricolour invariant. -/
theorem Effect.safe (h : v.Safe) (he : v.Effect op r w) : w.Safe := by
  cases he with
  | refused => exact h
  | cons hcar hcdr hc => exact hc.safe h hcar hcdr
  | rootedCons hcar hcdr hc =>
    refine (hc.safe h hcar hcdr).root ?_
    cases hc
    simp [fill, paint]
  | list hl => exact hl.safe h
  | listRefused hl => exact hl.safe h
  | rootAgain => exact h.recount _ _
  | rootFirst hres _ hg => exact (h.grows hg).root (live_of_resolve (hg.resolve hres))
  | unrootOne => exact h.recount _ _
  | unrootLast hres _ _ hg => exact (h.grows hg).unroot (live_of_resolve (hg.resolve hres))
  | setChild hres hc hx => exact h.store (live_of_resolve hres) hc hx _
  | shade => exact h.shade _
  | scan hs => exact h.scans hs
  | startCycle => exact h.shade _
  | sweep hend => exact h.sweep hend
  | collect hc => exact hc.safe h

/-- A live cell that becomes a root, or stops being one, keeps its handles. -/
theorem resolve_paint_shade (hl : v.color l ≠ none) (color : Color) (n : Nat) (S : Set Location) :
    (((v.paint l (some color)).recount l n).shade S).resolve = v.resolve := by
  rw [resolve_shade]
  exact resolve_paint hl color

/-- No operation but a sweep or a collection invalidates a handle. -/
theorem Effect.resolve_of_ne (he : v.Effect op r w) (hsweep : op ≠ .sweep) (hcollect : op ≠ .collect)
    (hres : v.resolve handle = some l) : w.resolve handle = some l := by
  cases he with
  | refused => exact hres
  | cons _ _ hc => exact hc.resolve hres
  | rootedCons _ _ hc =>
    have hw := hc.resolve hres
    rw [root, pin, resolve_paint_shade]
    · exact hw
    · cases hc
      simp [fill, paint]
  | list hl => exact hl.resolve hres
  | listRefused hl => exact hl.resolve hres
  | rootAgain => exact hres
  | rootFirst hres' _ hg =>
    rw [root, pin, resolve_paint_shade (live_of_resolve (hg.resolve hres'))]
    exact hg.resolve hres
  | unrootOne => exact hres
  | unrootLast hres' _ _ hg =>
    rw [unroot, release, resolve_paint_shade (live_of_resolve (hg.resolve hres'))]
    exact hg.resolve hres
  | @setChild side _ _ x k c hres' hc hx =>
    have hstore : (v.store k (c.setChild x side)).resolve = v.resolve :=
      resolve_store hc (by cases side <;> rfl)
    rw [(recolored_barrier _ k x).resolve, hstore, hres]
  | shade => rw [resolve_shade, hres]
  | scan hs => rw [hs.recolored.resolve, hres]
  | startCycle => rw [(recolored_startCycle v).resolve, hres]
  | sweep => exact absurd rfl hsweep
  | collect => exact absurd rfl hcollect

/-- **No operation invalidates a handle of a cell that is reached from the roots.** -/
theorem Effect.resolve (h : v.Safe) (he : v.Effect op r w) (hr : v.Reach l)
    (hres : v.resolve handle = some l) : w.resolve handle = some l := by
  cases op with
  | sweep =>
    cases he with
    | refused => exact hres
    | sweep hend => exact resolve_sweep.2 ⟨hres, h.black_or_root hend hr⟩
  | collect =>
    cases he with
    | refused => exact hres
    | collect hc =>
      obtain ⟨hscans, hend, -, -⟩ := hc
      -- scanning changes neither what is reached nor what resolves
      refine resolve_sweep.2 ⟨by rw [hscans.recolored.resolve, hres], ?_⟩
      exact (h.scans hscans).black_or_root hend (hscans.recolored.reach.2 hr)
  | _ => exact he.resolve_of_ne (by simp) (by simp) hres

end View

/-! ## The invariant of runs -/

namespace Memory

variable {m : Memory}

/-- The tables are sound, and the tricolour invariant holds. -/
structure Good (m : Memory) : Prop where
  sound : m.heap.tables.Sound
  safe : m.heap.view.Safe

/-- In a new heap no cell lives. -/
theorem color_start (id : UInt32) (sizing : Sizing) (ledger : Ledger) (l : Location) :
    (start id sizing ledger).heap.view.color l = none := Tables.color?_of_get?_eq_none rfl

theorem good_start (id : UInt32) (sizing : Sizing) (ledger : Ledger) : (start id sizing ledger).Good := by
  have hdead := color_start id sizing ledger
  refine ⟨Tables.sound_ofLimit _, ⟨⟨?_, ?_⟩, ?_⟩⟩
  · exact fun hl => absurd (hdead _) hl
  · exact fun hl => absurd (hdead _) hl
  · intro l hl
    rw [hdead] at hl
    rcases hl with hl | hl <;> cases hl

theorem Good.after (h : m.Good) (mv : Move) : (mv.after m).Good := by
  by_cases hmv : ∃ op, mv = .operate op
  · obtain ⟨op, rfl⟩ := hmv
    obtain ⟨r, w, hb, he, -⟩ := after_operate h.sound op
    refine ⟨hb.sound, ?_⟩
    rw [hb.view]
    exact he.safe h.safe
  · obtain ⟨hs, hview⟩ := after_of_ne_operate h.sound (not_exists.1 hmv)
    refine ⟨hs, ?_⟩
    rw [hview]
    exact h.safe

theorem Good.of_run {op : Operation Value} {a : Result} {m' : Memory} (h : m.Good)
    (hok : op.run m = .ok a m') : m'.Good := by
  have hafter := h.after (.operate op)
  rwa [Move.operate_after, hok] at hafter

theorem Good.runs (h : m.Good) (moves : List Move) : (m.runs moves).Good := by
  induction moves generalizing m with
  | nil => exact h
  | cons mv moves ih => exact ih (h.after mv)

/-- **Every run keeps the tables sound and the tricolour invariant.** -/
theorem good_runs (id : UInt32) (sizing : Sizing) (ledger : Ledger) (moves : List Move) :
    ((start id sizing ledger).runs moves).Good := (good_start id sizing ledger).runs moves

end Memory

end ConsHeap
