import ConsHeap.Heap.Shading
import ConsHeap.Proofs.Heap.Refusals
import ConsHeap.Proofs.Tables.Cells

/-!
# Shading

What the operations on a heap do to its view. An operation of a heap with sound tables either
answers, and then the tables are sound again, or is refused, and then the heap is as it was.

* `Heap.Becomes`: the heap after an operation, by its view.
* `Heap.live_eq_ok_iff`, `Heap.liveCell_of_resolve`, `Heap.liveCell_cases`: the values that are live
  conses.
* `Heap.shade_ok`, `Heap.shadeHandles_ok`, `Heap.Becomes.shadeContents_ok`, `Heap.barrier_ok`,
  `Heap.shadeValue_cases`: shading in a heap is shading in its view.
* `Heap.shadeContents_of_no_white`: without a white cell to shade nothing is done.
-/

namespace ConsHeap.Heap

variable {g h h' : Heap} {v w : View} {l : Location} {c : Cell} {x : Value} {α : Type}

/-- The heap `h'` is the heap `h` with other tables. They are sound and have the view `v`. -/
structure Becomes (h h' : Heap) (v : View) : Prop where
  id : h'.id = h.id
  sizing : h'.sizing = h.sizing
  kinds : h'.kinds = h.kinds
  sound : h'.tables.Sound
  view : h'.view = v

theorem Becomes.refl (hs : h.tables.Sound) : h.Becomes h h.view := ⟨rfl, rfl, rfl, hs, rfl⟩

theorem Becomes.trans (hgh : g.Becomes h v) (hh : h.Becomes h' w) : g.Becomes h' w :=
  ⟨hh.id.trans hgh.id, hh.sizing.trans hgh.sizing, hh.kinds.trans hgh.kinds, hh.sound, hh.view⟩

section Steps

variable {id : UInt32} {sizing : Sizing} {kinds : Kinds} {t u : Tables} {act : TablesM α} {a : α}
  {e : Failure HeapError}

theorem onTables_ok (hact : act t = .ok a u) :
    onTables act ⟨id, sizing, kinds, t⟩ = .ok a ⟨id, sizing, kinds, u⟩ := by
  rw [onTables, hact]

theorem onTables_error (hact : act t = .error e u) :
    onTables act ⟨id, sizing, kinds, t⟩ = .error e ⟨id, sizing, kinds, u⟩ := by
  rw [onTables, hact]

/-- An action on the tables that answers changes only them. -/
theorem exists_of_onTables_eq_ok (hact : onTables act h = .ok a h') :
    ∃ u, act h.tables = .ok a u ∧ h' = { h with tables := u } := by
  obtain ⟨id, sizing, kinds, t⟩ := h
  cases ht : act t with
  | ok b u =>
    rw [onTables_ok ht] at hact
    cases hact
    exact ⟨u, rfl, rfl⟩
  | error e u =>
    rw [onTables_error ht] at hact
    cases hact

theorem becomes_tables (hu : u.Sound) (hv : u.view id = v) :
    Becomes ⟨id, sizing, kinds, t⟩ ⟨id, sizing, kinds, u⟩ v := ⟨rfl, rfl, rfl, hu, hv⟩

end Steps

/-! ## Live conses -/

theorem live_eq_ok_iff :
    h.live x = .ok l ↔ ∃ tag handle, x = .cons tag handle ∧ h.resolve handle = some l := by
  cases x with
  | cons tag handle =>
    rw [live, Value.handle?]
    constructor
    · intro hl
      cases hr : h.resolve handle with
      | none => simp [hr] at hl
      | some m =>
        simp only [hr, Except.ok.injEq] at hl
        exact ⟨tag, handle, rfl, hl ▸ hr⟩
    · rintro ⟨tag', handle', hx, hr⟩
      cases hx
      simp only [hr]
  | _ => simp [live, Value.handle?]

/-- A value is refused, or is a live cons. -/
theorem live_cases (h : Heap) (x : Value) :
    (∃ e, h.live x = .error e) ∨
      ∃ tag handle, x = .cons tag handle ∧ h.resolve handle = some handle.location ∧
        h.live x = .ok handle.location := by
  cases hl : h.live x with
  | error e => exact .inl ⟨e, rfl⟩
  | ok l =>
    obtain ⟨tag, handle, rfl, hr⟩ := live_eq_ok_iff.1 hl
    obtain ⟨-, rfl, -⟩ := resolve_eq_some_iff.1 hr
    exact .inr ⟨tag, handle, rfl, hr, rfl⟩

theorem liveCell_of_resolve {tag : Tag} {handle : Handle} (hres : h.resolve handle = some l)
    (hc : h.cell? l = some c) : h.liveCell (.cons tag handle) = .ok (l, c) := by
  have hlive : h.live (.cons tag handle) = .ok l := live_eq_ok_iff.2 ⟨tag, handle, rfl, hres⟩
  rw [liveCell, hlive]
  simp only [bind, Except.bind, hc]
  rfl

theorem liveCell_of_not_resolve {tag : Tag} {handle : Handle} (hres : h.resolve handle = none) :
    h.liveCell (.cons tag handle) = .error .foreign := by
  have hlive : h.live (.cons tag handle) = .error .foreign := by
    simp only [live, Value.handle?, hres]
  rw [liveCell, hlive]
  rfl

/-- A value is refused, or is a live cons with a cell. -/
theorem liveCell_cases (h : Heap) (x : Value) :
    (∃ e, h.live x = .error e ∧ h.liveCell x = .error e) ∨
      ∃ tag handle c, x = .cons tag handle ∧ h.resolve handle = some handle.location ∧
        h.cell? handle.location = some c ∧ h.liveCell x = .ok (handle.location, c) := by
  rcases h.live_cases x with ⟨e, he⟩ | ⟨tag, handle, rfl, hres, -⟩
  · left
    refine ⟨e, he, ?_⟩
    rw [liveCell, he]
    rfl
  · right
    obtain ⟨-, -, -, c, hc, -⟩ := resolve_eq_some_iff.1 hres
    exact ⟨tag, handle, c, rfl, hres, hc, liveCell_of_resolve hres hc⟩

/-! ## White to grey -/

theorem view_color (h : Heap) : h.view.color = h.tables.color? := rfl

theorem shade_of_ne_white (hw : h.tables.color? l ≠ some .white) : Heap.shade l h = .ok () h := by
  rw [Heap.shade, bind_get, if_neg hw]
  rfl

/-- A white cell becomes grey, any other stays. -/
theorem shade_ok (hs : h.tables.Sound) (l : Location) :
    ∃ h', Heap.shade l h = .ok () h' ∧ h.Becomes h' (h.view.shade {l}) := by
  obtain ⟨id, sizing, kinds, ⟨s, z, r⟩⟩ := h
  by_cases hw : Tables.color? ⟨s, z, r⟩ l = some .white
  · obtain ⟨c, hc⟩ := Tables.exists_cell (by rw [hw]; simp)
    obtain ⟨hslot, hz, -⟩ := hs.slot_of_live hc (by simp [hw]) (by simp [hw])
    have hzone : z.zone c.slot = .white := by
      simp only [hw] at hz
      cases hzc : z.zone c.slot <;> simp_all [Zone.color]
    obtain ⟨u, hu, hr, hz', -, hcolor⟩ := Tables.shade_ok hs.zones hslot hzone
    have hview := (hs.view_paint hr hz' hcolor id).trans (View.shade_singleton hw).symm
    refine ⟨_, ?_, becomes_tables (hs.relocated hr hz') hview⟩
    rw [Heap.shade, bind_get]
    simp only [hw, if_true]
    rw [bind_ok (onTables_ok (Tables.cellAt_ok hc)), onTables_ok hu]
  · refine ⟨⟨id, sizing, kinds, ⟨s, z, r⟩⟩, shade_of_ne_white hw, ?_⟩
    rw [View.shade_eq_self]
    · exact .refl hs
    · rintro m rfl
      exact hw

/-- The white cells that the handles stand for become grey. -/
theorem shadeHandles_ok (handles : List Handle) : ∀ {h : Heap}, h.tables.Sound →
    ∃ h', shadeHandles handles h = .ok () h' ∧ h.Becomes h' (h.view.shade (h.view.named handles)) := by
  induction handles with
  | nil =>
    intro h hs
    refine ⟨h, rfl, ?_⟩
    rw [View.shade_eq_self]
    · exact .refl hs
    · rintro l ⟨handle, hmem, -⟩
      cases hmem
  | cons handle handles ih =>
    intro h hs
    have hnamed : h.view.named (handle :: handles) =
        {l | h.view.resolve handle = some l} ∪ h.view.named handles := by
      ext l
      simp [View.named]
    rw [resolve_view] at hnamed
    rw [hnamed, shadeHandles, List.forM_eq_forM, List.forM_cons]
    -- the first handle, and then the others
    cases hr : h.resolve handle with
    | none =>
      obtain ⟨h', hrest, hb⟩ := ih hs
      refine ⟨h', (bind_ok (a := ()) ?_).trans hrest, ?_⟩
      · rw [bind_get]
        simp only [hr]
        rfl
      · simpa using hb
    | some l =>
      obtain ⟨h₁, hok, hb₁⟩ := shade_ok hs l
      obtain ⟨h', hrest, hb⟩ := ih hb₁.sound
      refine ⟨h', (bind_ok (a := ()) ?_).trans hrest, ?_⟩
      · rw [bind_get]
        simp only [hr]
        exact hok
      · have hb := hb₁.trans hb
        rw [hb₁.view, View.named_shade, View.shade_shade] at hb
        rw [show {m | some l = some m} = ({l} : Set Location) by ext m; simp [eq_comm]]
        exact hb

/-- After a change, the white cells that a cell refers to become grey. -/
theorem Becomes.shadeContents_ok (hb : g.Becomes h v) (hl : v.contents l ≠ none) :
    ∃ h', shadeContents l h = .ok () h' ∧ g.Becomes h' (v.shade (v.refs l)) := by
  obtain ⟨d, hd⟩ := Option.ne_none_iff_exists'.1 hl
  rw [← hb.view] at hd
  obtain ⟨c, hc, rfl⟩ := Option.map_eq_some_iff.1 hd
  obtain ⟨h', hok, hb'⟩ := shadeHandles_ok c.handles hb.sound
  rw [show h.view.named c.handles = h.view.refs l from (View.refs_eq hd).symm, hb.view] at hb'
  obtain ⟨id, sizing, kinds, ⟨s, z, r⟩⟩ := h
  refine ⟨h', ?_, hb.trans hb'⟩
  rw [shadeContents, bind_ok (onTables_ok (Tables.cellAt_ok hc)), hok]

/-- Nothing changes when none of the cells that the handles stand for is white. -/
theorem shadeHandles_of_no_white (handles : List Handle)
    (hw : ∀ m ∈ h.view.named handles, h.tables.color? m ≠ some .white) : shadeHandles handles h = .ok () h := by
  induction handles with
  | nil => rfl
  | cons handle handles ih =>
    have hrest := ih fun m hm => hw m (by
      obtain ⟨other, hmem, hres⟩ := hm
      exact ⟨other, List.mem_cons_of_mem _ hmem, hres⟩)
    rw [shadeHandles, List.forM_eq_forM, List.forM_cons]
    refine (bind_ok (a := ()) ?_).trans hrest
    rw [bind_get]
    cases hres : h.resolve handle with
    | none => rfl
    | some l => exact shade_of_ne_white (hw l ⟨handle, List.mem_cons_self, (resolve_view h handle).trans hres⟩)

/-- Nothing changes when a cell refers to no white one. -/
theorem shadeContents_of_no_white (hl : h.view.contents l ≠ none)
    (hw : ∀ m ∈ h.view.refs l, h.tables.color? m ≠ some .white) : shadeContents l h = .ok () h := by
  obtain ⟨d, hd⟩ := Option.ne_none_iff_exists'.1 hl
  obtain ⟨c, hc, rfl⟩ := Option.map_eq_some_iff.1 hd
  rw [View.refs_eq hd] at hw
  have hshade := shadeHandles_of_no_white c.handles hw
  obtain ⟨id, sizing, kinds, ⟨s, z, r⟩⟩ := h
  rw [shadeContents, bind_ok (onTables_ok (Tables.cellAt_ok hc)), hshade]

/-- After a value was stored in a root or a black cell, the white cells that it refers to become
grey. -/
theorem barrier_ok (hs : h.tables.Sound) (l : Location) (x : Value) :
    ∃ h', barrier l x h = .ok () h' ∧ h.Becomes h' (h.view.barrier l x) := by
  obtain ⟨h', hok, hb⟩ := shadeHandles_ok x.handles hs
  rw [barrier, bind_get]
  by_cases hl : h.view.color l = some .root ∨ h.view.color l = some .black
  · rw [View.barrier, if_pos hl]
    refine ⟨h', ?_, hb⟩
    rcases hl with hl | hl <;> (rw [view_color] at hl; simp only [hl]; exact hok)
  · rw [View.barrier, if_neg hl]
    refine ⟨h, ?_, .refl hs⟩
    cases hc : h.tables.color? l with
    | none => rfl
    | some color =>
      cases color with
      | root => exact absurd (.inl hc) hl
      | black => exact absurd (.inr hc) hl
      | grey => rfl
      | white => rfl

/-- A request to shade a value is refused, or a live cons is shaded. -/
theorem shadeValue_cases (hs : h.tables.Sound) (x : Value) :
    (∃ e, h.live x = .error e ∧ shadeValue x h = .error (.error e) h) ∨
      ∃ tag handle h', x = .cons tag handle ∧ h.resolve handle = some handle.location ∧
        shadeValue x h = .ok () h' ∧ h.Becomes h' (h.view.shade {handle.location}) := by
  rcases h.live_cases x with ⟨e, he⟩ | ⟨tag, handle, rfl, hres, hl⟩
  · left
    refine ⟨e, he, ?_⟩
    rw [shadeValue, bind_get, bind_error (answer_error he)]
  · right
    obtain ⟨h', hok, hb⟩ := shade_ok hs handle.location
    refine ⟨tag, handle, h', rfl, hres, ?_, hb⟩
    rw [shadeValue, bind_get, bind_ok (answer_ok hl), hok]

end ConsHeap.Heap
