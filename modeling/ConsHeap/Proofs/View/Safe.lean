import ConsHeap.Proofs.View.Basic

/-!
# The tricolour invariant

Live cells refer to live cells only, and a cell that is black or a root never refers to a white one.
Every change that an operation makes to a view keeps both. A change that adds a reference to a black
cell or a root, or makes a cell black or a root, shades what it refers to.

* `View.Closed`: live cells are stored, and every handle in them resolves.
* `View.Safe`: moreover, black cells and roots do not refer to white cells.
* `View.Safe.grows`, `View.Safe.fill`, `View.Safe.root`, `View.Safe.unroot`, `View.Safe.recount`,
  `View.Safe.store`, `View.Safe.shade`, `View.Safe.blacken`, `View.Safe.sweep`: the changes keep it.
-/

namespace ConsHeap.View

variable {v w g : View} {l m : Location} {c d : Cell} {handle : Handle} {x : Value} {S : Set Location}

/-- Every live cell is stored, and every handle in it resolves. -/
structure Closed (v : View) : Prop where
  stored : ∀ {l}, v.color l ≠ none → v.contents l ≠ none
  closed : ∀ {l c}, v.color l ≠ none → v.contents l = some c →
    ∀ handle ∈ c.handles, v.resolve handle ≠ none

/-- **The tricolour invariant: no black cell and no root refers to a white cell.** -/
structure Safe (v : View) : Prop extends v.Closed where
  guarded : ∀ {l}, v.color l = some .black ∨ v.color l = some .root →
    ∀ m ∈ v.refs l, v.color m ≠ some .white

/-! ## References -/

theorem mem_refs : m ∈ v.refs l ↔
    ∃ c, v.contents l = some c ∧ ∃ handle ∈ c.handles, v.resolve handle = some m := Iff.rfl

theorem eq_location (h : v.resolve handle = some l) : handle.location = l :=
  (resolve_eq_some_iff.1 h).2.1

/-- A handle resolves to a live cell only. -/
theorem live_of_resolve (h : v.resolve handle = some l) : v.color l ≠ none :=
  Option.isSome_iff_ne_none.1 (resolve_eq_some_iff.1 h).2.2.1

theorem live_of_mem_refs (h : m ∈ v.refs l) : v.color m ≠ none := by
  obtain ⟨-, -, handle, -, hres⟩ := h
  exact live_of_resolve hres

/-- Where the same handles resolve, a live cell with the same contents refers to the same cells. -/
theorem Closed.refs_of_kept (h : v.Closed) (hl : v.color l ≠ none) (hc : w.contents l = v.contents l)
    (hres : ∀ {handle m}, v.resolve handle = some m → w.resolve handle = some m) :
    w.refs l = v.refs l := by
  ext m
  simp only [mem_refs, hc]
  constructor
  · rintro ⟨c, hc, handle, hmem, hm⟩
    obtain ⟨k, hk⟩ := Option.ne_none_iff_exists'.1 (h.closed hl hc handle hmem)
    obtain rfl := Option.some.inj ((hres hk).symm.trans hm)
    exact ⟨c, hc, handle, hmem, hk⟩
  · rintro ⟨c, hc, handle, hmem, hm⟩
    exact ⟨c, hc, handle, hmem, hres hm⟩

/-! ## Changes of colour -/

/-- What cells live does not depend on what colours they have. -/
theorem resolve_recolor (hid : w.id = v.id) (hcontents : w.contents = v.contents)
    (hlive : ∀ l, (w.color l).isSome = (v.color l).isSome) : w.resolve = v.resolve :=
  funext fun _ => resolve_congr hid (hlive _) (congrFun hcontents _)

theorem refs_congr (hcontents : w.contents = v.contents) (hres : w.resolve = v.resolve) :
    w.refs = v.refs := by
  funext l
  ext m
  simp only [mem_refs, hcontents, hres]

/-- A change of colours among live cells is safe when the black cells and the roots are guarded
afterwards. -/
theorem Closed.recolor (h : v.Closed) (hid : w.id = v.id) (hcontents : w.contents = v.contents)
    (hlive : ∀ l, (w.color l).isSome = (v.color l).isSome)
    (hguard : ∀ {l}, w.color l = some .black ∨ w.color l = some .root →
      ∀ m ∈ v.refs l, w.color m ≠ some .white) : w.Safe := by
  have hres := resolve_recolor hid hcontents hlive
  have hne : ∀ {l}, w.color l ≠ none → v.color l ≠ none := by
    intro l hl
    rw [← Option.isSome_iff_ne_none] at hl ⊢
    rwa [← hlive]
  constructor
  · constructor
    · intro l hl
      rw [hcontents]
      exact h.stored (hne hl)
    · intro l c hl hc
      rw [hres]
      rw [hcontents] at hc
      exact h.closed (hne hl) hc
  · intro l hl m hm
    rw [refs_congr hcontents hres] at hm
    exact hguard hl m hm

/-- Shading makes no cell white. -/
theorem color_shade_ne_white (h : v.color l ≠ some .white) : (v.shade S).color l ≠ some .white := by
  rwa [color_shade_of_ne_white h]

theorem color_shade_ne_white_of_mem (h : l ∈ S) : (v.shade S).color l ≠ some .white := by
  by_cases hw : v.color l = some .white
  · rw [color_shade_of_mem hw h]
    simp
  · exact color_shade_ne_white hw

/-- Shading makes no cell black and no cell a root. -/
theorem color_of_shade {color : Color} (h : (v.shade S).color l = some color) (hgrey : color ≠ .grey) :
    v.color l = some color := by
  by_cases hw : v.color l = some .white ∧ l ∈ S
  · rw [color_shade_of_mem hw.1 hw.2, Option.some.injEq] at h
    exact absurd h.symm hgrey
  · rwa [show (v.shade S).color l = v.color l from if_neg hw] at h

theorem Safe.shade (h : v.Safe) (S : Set Location) : (v.shade S).Safe := by
  refine h.toClosed.recolor rfl rfl (isSome_color_shade v S) ?_
  intro l hl m hm
  refine color_shade_ne_white (h.guarded ?_ m hm)
  exact hl.imp (color_of_shade · (by simp)) (color_of_shade · (by simp))

theorem Safe.recount (h : v.Safe) (l : Location) (n : Nat) : (v.recount l n).Safe :=
  h.toClosed.recolor rfl rfl (fun _ => rfl) h.guarded

theorem isSome_color_paint (hl : v.color l ≠ none) (color : Color) (m : Location) :
    ((v.paint l (some color)).color m).isSome = (v.color m).isSome := by
  simp only [paint, Function.update_apply]
  split
  · next hm =>
    rw [hm, Option.isSome_iff_ne_none.2 hl]
    rfl
  · rfl

theorem resolve_paint (hl : v.color l ≠ none) (color : Color) :
    (v.paint l (some color)).resolve = v.resolve :=
  resolve_recolor rfl rfl (isSome_color_paint hl color)

theorem refs_paint (hl : v.color l ≠ none) (color : Color) :
    (v.paint l (some color)).refs = v.refs := refs_congr rfl (resolve_paint hl color)

/-- A cell may become black or a root when what it refers to is shaded. -/
theorem Safe.paint_shade (h : v.Safe) (hl : v.color l ≠ none) {color : Color}
    (hcolor : color = .black ∨ color = .root) :
    ((v.paint l (some color)).shade ((v.paint l (some color)).refs l)).Safe := by
  rw [refs_paint hl]
  refine h.toClosed.recolor rfl rfl ?_ ?_
  · intro m
    rw [isSome_color_shade, isSome_color_paint hl]
  · intro k hk m hm
    by_cases hkl : k = l
    · subst hkl
      exact color_shade_ne_white_of_mem hm
    · have hk' : v.color k = some .black ∨ v.color k = some .root := by
        have hk := hk.imp (color_of_shade · (by simp)) (color_of_shade · (by simp))
        simpa only [paint, Function.update_of_ne hkl] using hk
      refine color_shade_ne_white ?_
      simp only [paint, Function.update_apply]
      split
      · rcases hcolor with rfl | rfl <;> simp
      · exact h.guarded hk' m hm

theorem Safe.blacken (h : v.Safe) (hl : v.color l ≠ none) : (v.blacken l).Safe :=
  h.paint_shade hl (.inl rfl)

theorem Safe.root (h : v.Safe) (hl : v.color l ≠ none) : (v.root l).Safe :=
  (h.paint_shade hl (.inr rfl)).recount l 1

theorem Safe.unroot (h : v.Safe) (hl : v.color l ≠ none) : (v.unroot l).Safe :=
  (h.paint_shade hl (.inl rfl)).recount l 0

theorem Safe.scans {n : Nat} (h : v.Safe) (hs : v.Scans n w) : w.Safe := by
  induction hs with
  | done => exact h
  | next hl _ ih => exact ih (h.blacken (by simp [hl]))

/-! ## New cells -/

/-- Handles keep what they stand for when the heap grows. -/
theorem Grows.resolve (hg : v.Grows g) (h : v.resolve handle = some l) : g.resolve handle = some l := by
  obtain ⟨hid, rfl, hlive, c, hc, hgen⟩ := resolve_eq_some_iff.1 h
  exact resolve_eq_some_iff.2 ⟨hid.trans hg.id.symm, rfl, by rw [hg.color]; exact hlive, c,
    hg.kept _ c hc, hgen⟩

/-- Where handles keep what they stand for, values may still be stored. -/
theorem Accepts.of_resolve (h : v.Accepts x)
    (hres : ∀ {handle l}, v.resolve handle = some l → w.resolve handle = some l) : w.Accepts x := by
  intro handle hmem
  obtain ⟨l, hl⟩ := Option.isSome_iff_exists.1 (h handle hmem)
  exact Option.isSome_iff_exists.2 ⟨l, hres hl⟩

theorem Accepts.grows (h : v.Accepts x) (hg : v.Grows g) : g.Accepts x := h.of_resolve hg.resolve

theorem Closed.contents_of_grows (h : v.Closed) (hg : v.Grows g) (hl : v.color l ≠ none) :
    g.contents l = v.contents l := by
  obtain ⟨c, hc⟩ := Option.ne_none_iff_exists'.1 (h.stored hl)
  rw [hc, hg.kept l c hc]

theorem Safe.grows (h : v.Safe) (hg : v.Grows g) : g.Safe := by
  have hlive : ∀ {l}, g.color l ≠ none → v.color l ≠ none := by
    intro l hl
    rwa [← hg.color]
  constructor
  · constructor
    · intro l hl
      rw [h.contents_of_grows hg (hlive hl)]
      exact h.stored (hlive hl)
    · intro l c hl hc handle hmem
      rw [h.contents_of_grows hg (hlive hl)] at hc
      obtain ⟨m, hm⟩ := Option.ne_none_iff_exists'.1 (h.closed (hlive hl) hc handle hmem)
      rw [hg.resolve hm]
      simp
  · intro l hl m hm
    have hl' : v.color l ≠ none := by
      rw [hg.color] at hl
      rcases hl with hl | hl <;> simp [hl]
    rw [h.refs_of_kept hl' (h.contents_of_grows hg hl') hg.resolve] at hm
    rw [hg.color] at hl ⊢
    exact h.guarded hl m hm

/-- A handle that resolves is not of a spare cell, so it keeps what it stands for. -/
theorem resolve_fill (hl : v.color l = none) (h : v.resolve handle = some m) (c : Cell) :
    m ≠ l ∧ (v.fill l c).resolve handle = some m := by
  obtain ⟨hid, rfl, hlive, d, hd, hgen⟩ := resolve_eq_some_iff.1 h
  have hne : handle.location ≠ l := by
    rintro rfl
    rw [hl] at hlive
    cases hlive
  refine ⟨hne, resolve_eq_some_iff.2 ⟨hid, rfl, ?_, d, ?_, hgen⟩⟩
  · rwa [show (v.fill l c).color handle.location = v.color handle.location from
      Function.update_of_ne hne _ _]
  · exact (Function.update_of_ne hne _ _).trans hd

/-- A spare cell may become white with contents that resolve. -/
theorem Safe.fill (h : v.Safe) (hl : v.color l = none)
    (hc : ∀ handle ∈ c.handles, v.resolve handle ≠ none) : (v.fill l c).Safe := by
  have hcolor : ∀ {k}, k ≠ l → (v.fill l c).color k = v.color k := fun hk =>
    Function.update_of_ne hk _ _
  have hcontents : ∀ {k}, k ≠ l → (v.fill l c).contents k = v.contents k := fun hk =>
    Function.update_of_ne hk _ _
  have hkept : ∀ {handle}, v.resolve handle ≠ none → (v.fill l c).resolve handle ≠ none := by
    intro handle hres
    obtain ⟨m, hm⟩ := Option.ne_none_iff_exists'.1 hres
    rw [(resolve_fill hl hm c).2]
    simp
  constructor
  · constructor
    · intro k hk
      by_cases hkl : k = l
      · subst hkl
        simp [View.fill, View.store, View.paint]
      · rw [hcontents hkl]
        rw [hcolor hkl] at hk
        exact h.stored hk
    · intro k d hk hd handle hmem
      by_cases hkl : k = l
      · subst hkl
        simp only [View.fill, View.store, View.paint, Function.update_self, Option.some.injEq] at hd
        subst hd
        exact hkept (hc handle hmem)
      · rw [hcontents hkl] at hd
        rw [hcolor hkl] at hk
        exact hkept (h.closed hk hd handle hmem)
  · intro k hk m hm
    have hkl : k ≠ l := by
      rintro rfl
      simp [View.fill, View.paint] at hk
    rw [hcolor hkl] at hk
    have hlive : v.color k ≠ none := by rcases hk with hk | hk <;> simp [hk]
    rw [h.refs_of_kept hlive (hcontents hkl) fun hres => (resolve_fill hl hres c).2] at hm
    -- nothing referred to the spare cell
    have hml : m ≠ l := by
      rintro rfl
      exact live_of_mem_refs hm hl
    rw [hcolor hml]
    exact h.guarded hk m hm

theorem Creates.safe {tag : Tag} {car cdr : Value} (h : v.Safe) (hcar : v.Accepts car)
    (hcdr : v.Accepts cdr) (hc : v.Creates tag car cdr handle w) : w.Safe := by
  obtain ⟨hg, hdead, -⟩ := hc
  refine (h.grows hg).fill hdead fun handle hmem => ?_
  rw [← Option.isSome_iff_ne_none]
  rcases List.mem_append.1 hmem with hmem | hmem
  · exact hcar.grows hg handle hmem
  · exact hcdr.grows hg handle hmem

theorem Lists.safe {items : List Value} (h : v.Safe) (hl : v.Lists items x w) : w.Safe := by
  induction hl with
  | nil => exact h
  | cons _ hcar hcdr hc ih => exact hc.safe ih hcar hcdr

/-- Handles keep what they stand for when a cell is made. -/
theorem Creates.resolve {tag : Tag} {car cdr : Value} {new : Handle} (hc : v.Creates tag car cdr new w)
    (hres : v.resolve handle = some l) : w.resolve handle = some l := by
  obtain ⟨hg, hdead, -⟩ := hc
  exact (resolve_fill hdead (hg.resolve hres) _).2

/-- The new cell was not live. -/
theorem Creates.dead {tag : Tag} {car cdr : Value} (hc : v.Creates tag car cdr handle w) :
    v.color handle.location = none := by
  obtain ⟨hg, hdead, -⟩ := hc
  rwa [hg.color] at hdead

/-- The new handle resolves. -/
theorem Creates.resolve_new {tag : Tag} {car cdr : Value} (hc : v.Creates tag car cdr handle w) :
    w.resolve handle = some handle.location ∧
      ∃ c, w.contents handle.location = some c ∧ c.car = car ∧ c.cdr = cdr := by
  obtain ⟨hg, -, -⟩ := hc
  refine ⟨resolve_eq_some_iff.2 ⟨hg.id.symm, rfl, ?_, _, Function.update_self .., rfl⟩, _,
    Function.update_self .., rfl, rfl⟩
  simp [View.fill, View.paint]

/-- The new cell may be stored. -/
theorem Creates.accepts_new {tag : Tag} {car cdr : Value} (hc : v.Creates tag car cdr handle w)
    (consTag : Tag) : w.Accepts (.cons consTag handle) := by
  intro new hmem
  rw [Value.handles, List.mem_singleton] at hmem
  rw [hmem, hc.resolve_new.1]
  rfl

/-- Handles keep what they stand for when a list is made. -/
theorem Lists.resolve {items : List Value} {x : Value} (hl : v.Lists items x w)
    (hres : v.resolve handle = some l) : w.resolve handle = some l := by
  induction hl with
  | nil => exact hres
  | cons _ _ _ hc ih => exact hc.resolve ih

/-- A list may be stored. -/
theorem Lists.accepts_new {items : List Value} {x : Value} (hl : v.Lists items x w) : w.Accepts x := by
  cases hl with
  | nil => exact fun _ hmem => absurd hmem (by simp [Value.handles])
  | cons _ _ _ hc => exact hc.accepts_new _

/-! ## Stores -/

/-- Handles do not see what else a cell holds. -/
theorem resolve_store (hc : v.contents l = some c) (hd : d.generation = c.generation) :
    (v.store l d).resolve = v.resolve := by
  funext handle
  by_cases hl : handle.location = l
  · simp [resolve, View.store, hl, hc, hd]
  · exact resolve_congr rfl rfl (Function.update_of_ne hl _ _)

theorem mem_handles_setChild {side : Side} (h : handle ∈ (c.setChild x side).handles) :
    handle ∈ c.handles ∨ handle ∈ x.handles := by
  simp only [Cell.handles, List.mem_append]
  cases side with
  | car => exact (List.mem_append.1 h).elim .inr fun h => .inl (.inr h)
  | cdr => exact (List.mem_append.1 h).elim (fun h => .inl (.inl h)) .inr

/-- A value that resolves may be stored in a live cell, when what it refers to is shaded for a black
cell or a root. -/
theorem Safe.store (h : v.Safe) (hl : v.color l ≠ none) (hc : v.contents l = some c)
    (hx : v.Accepts x) (side : Side) :
    ((v.store l (c.setChild x side)).barrier l x).Safe := by
  have hres : (v.store l (c.setChild x side)).resolve = v.resolve :=
    resolve_store hc (by cases side <;> rfl)
  have hcontents : ∀ {k}, k ≠ l → (v.store l (c.setChild x side)).contents k = v.contents k := fun hk =>
    Function.update_of_ne hk _ _
  have hself : (v.store l (c.setChild x side)).contents l = some (c.setChild x side) :=
    Function.update_self ..
  have hclosed : (v.store l (c.setChild x side)).Closed := by
    constructor
    · intro k hk
      by_cases hkl : k = l
      · rw [hkl, hself]
        simp
      · rw [hcontents hkl]
        exact h.stored hk
    · intro k d hk hd handle hmem
      rw [hres]
      by_cases hkl : k = l
      · rw [hkl, hself, Option.some.injEq] at hd
        subst hd
        rcases mem_handles_setChild hmem with hmem | hmem
        · exact h.closed hl hc handle hmem
        · exact Option.isSome_iff_ne_none.1 (hx handle hmem)
      · rw [hcontents hkl] at hd
        exact h.closed hk hd handle hmem
  -- a cell that was stored into refers to what it referred to before, and to what `x` refers to
  have hrefs : ∀ {k}, k ≠ l → (v.store l (c.setChild x side)).refs k = v.refs k := by
    intro k hk
    ext m
    simp only [mem_refs, hcontents hk, hres]
  have hrefs_self : ∀ m ∈ (v.store l (c.setChild x side)).refs l,
      m ∈ v.refs l ∨ m ∈ (v.store l (c.setChild x side)).named x.handles := by
    rintro m ⟨d, hd, handle, hmem, hm⟩
    rw [hself, Option.some.injEq] at hd
    subst hd
    rcases mem_handles_setChild hmem with hmem | hmem
    · exact .inl ⟨c, hc, handle, hmem, by rw [← hres]; exact hm⟩
    · exact .inr ⟨handle, hmem, hm⟩
  rw [barrier]
  split
  · refine hclosed.recolor rfl rfl (isSome_color_shade _ _) ?_
    intro k hk m hm
    have hk' : v.color k = some .black ∨ v.color k = some .root :=
      hk.imp (color_of_shade · (by simp)) (color_of_shade · (by simp))
    by_cases hkl : k = l
    · subst hkl
      rcases hrefs_self m hm with hm | hm
      · exact color_shade_ne_white (h.guarded hk' m hm)
      · exact color_shade_ne_white_of_mem hm
    · rw [hrefs hkl] at hm
      exact color_shade_ne_white (h.guarded hk' m hm)
  · next hno =>
    refine ⟨hclosed, ?_⟩
    intro k hk m hm
    have hkl : k ≠ l := by
      rintro rfl
      exact hno hk.symm
    rw [hrefs hkl] at hm
    exact h.guarded hk m hm

/-! ## The end of a cycle -/

theorem color_turn (v : View) (l : Location) : v.turn.color l = Tables.turnColor (v.color l) := rfl

/-- The black cells and the roots survive the turn of a cycle, and no others. -/
theorem color_turn_ne_none : v.turn.color l ≠ none ↔ v.color l = some .black ∨ v.color l = some .root := by
  rw [color_turn]
  cases v.color l with
  | none => simp [Tables.turnColor]
  | some color => cases color <;> simp [Tables.turnColor]

theorem color_turn_ne_black : v.turn.color l ≠ some .black := by
  rw [color_turn]
  cases v.color l with
  | none => simp [Tables.turnColor]
  | some color => cases color <;> simp [Tables.turnColor]

theorem color_turn_eq_root : v.turn.color l = some .root ↔ v.color l = some .root := by
  rw [color_turn]
  cases v.color l with
  | none => simp [Tables.turnColor]
  | some color => cases color <;> simp [Tables.turnColor]

theorem resolve_turn : v.turn.resolve handle = some l ↔
    v.resolve handle = some l ∧ (v.color l = some .black ∨ v.color l = some .root) := by
  simp only [resolve_eq_some_iff, ← color_turn_ne_none, Option.isSome_iff_ne_none]
  constructor
  · rintro ⟨hid, hloc, hlive, hc⟩
    refine ⟨⟨hid, hloc, ?_, hc⟩, hlive⟩
    rcases color_turn_ne_none.1 hlive with hl | hl <;> simp [hl]
  · rintro ⟨⟨hid, hloc, -, hc⟩, hlive⟩
    exact ⟨hid, hloc, hlive, hc⟩

/-- When no cell is grey, what black cells and roots refer to is black or a root. -/
theorem Safe.color_of_mem_refs (h : v.Safe) (hend : ∀ l, v.color l ≠ some .grey)
    (hl : v.color l = some .black ∨ v.color l = some .root) (hm : m ∈ v.refs l) :
    v.color m = some .black ∨ v.color m = some .root := by
  have hwhite := h.guarded hl m hm
  have hgrey := hend m
  have hlive := live_of_mem_refs hm
  cases hc : v.color m with
  | none => exact absurd hc hlive
  | some color => cases color <;> simp_all

theorem Safe.closed_turn (h : v.Safe) (hend : ∀ l, v.color l ≠ some .grey) : v.turn.Closed where
  stored hl := h.stored (by rcases color_turn_ne_none.1 hl with hl | hl <;> simp [hl])
  closed := by
    intro l c hl hc handle hmem
    have hl := color_turn_ne_none.1 hl
    have hlive : v.color l ≠ none := by rcases hl with hl | hl <;> simp [hl]
    obtain ⟨m, hm⟩ := Option.ne_none_iff_exists'.1 (h.closed hlive hc handle hmem)
    rw [resolve_turn.2 ⟨hm, h.color_of_mem_refs hend hl ⟨c, hc, handle, hmem, hm⟩⟩]
    simp

/-- When no cell is grey, the white cells may die. -/
theorem Safe.sweep (h : v.Safe) (hend : ∀ l, v.color l ≠ some .grey) : v.sweep.Safe := by
  refine (h.closed_turn hend).recolor rfl rfl (isSome_color_shade _ _) ?_
  intro l hl m hm
  rcases hl with hl | hl
  · exact absurd (color_of_shade hl (by simp)) color_turn_ne_black
  · exact color_shade_ne_white_of_mem ⟨l, color_of_shade hl (by simp), hm⟩

theorem Collects.safe {n : Nat} (h : v.Safe) (hc : v.Collects n w) : w.Safe := by
  obtain ⟨hscans, hend, -, -⟩ := hc
  exact (h.scans hscans).sweep hend

end ConsHeap.View
