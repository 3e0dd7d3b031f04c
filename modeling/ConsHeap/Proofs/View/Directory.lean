import ConsHeap.Proofs.View.Marking
import Mathlib.Data.List.Basic
import Mathlib.Data.List.Nodup

/-!
# What handles stand for

A heap can be taken as a map from handles to the two values and the root count of a cell. Colours,
slots and locations play no part in it.

* `Entry`, `Directory`: the map.
* `View.directory`: the map that a view stands for.
* `View.directory_congr`: it does not depend on colours.
* `View.directory_fill`, `View.directory_recount`, `View.directory_root`, `View.directory_unroot`,
  `View.directory_setChild`: changes of one cell change one entry.
* `View.Creates.directory`: a new cell adds an entry.
* `View.Collects.directory`: a collection deletes as many entries as it says, none of a root.
-/

namespace ConsHeap

/-- What a handle stands for: two values and a root count. -/
structure Entry where
  car : Value
  cdr : Value
  count : Nat

namespace Entry

/-- The value on one side. -/
def child (e : Entry) : Side → Value
  | .car => e.car
  | .cdr => e.cdr

/-- The entry with the value on one side exchanged. -/
def setChild (e : Entry) (x : Value) : Side → Entry
  | .car => { e with car := x }
  | .cdr => { e with cdr := x }

end Entry

/-- A map from handles to what they stand for. -/
abbrev Directory := Handle → Option Entry

namespace Directory

/-- The directory with the entry of one handle set. -/
def put (d : Directory) (handle : Handle) (e : Entry) : Directory := Function.update d handle (some e)

/-- The handles that stand for something. -/
def handles (d : Directory) : Set Handle := {handle | d handle ≠ none}

/-- The directory `d'` is `d` without `n` entries, none of a root. -/
def Deletes (d : Directory) (n : Nat) (d' : Directory) : Prop :=
  ∃ dead : List Handle, dead.Nodup ∧ dead.length = n ∧
    (∀ handle ∈ dead, ∃ e, d handle = some e ∧ e.count = 0) ∧
    ∀ handle, d' handle = if handle ∈ dead then none else d handle

end Directory

namespace View

variable {v w g : View} {l m : Location} {c d : Cell} {handle other : Handle} {n : Nat}

/-- What the cell at a location holds, with its count. -/
def entry (v : View) (l : Location) : Option Entry :=
  (v.contents l).map fun c => ⟨c.car, c.cdr, v.count l⟩

/-- The generation of the storage at a location. -/
def generation (v : View) (l : Location) : UInt32 := (v.contents l).elim 0 Cell.generation

/-- What handles stand for. -/
def directory (v : View) : Directory := fun handle => (v.resolve handle).bind v.entry

theorem directory_of_resolve (h : v.resolve handle = some l) : v.directory handle = v.entry l := by
  rw [directory, h, Option.bind_some]

theorem directory_of_contents (h : v.resolve handle = some l) (hc : v.contents l = some c) :
    v.directory handle = some ⟨c.car, c.cdr, v.count l⟩ := by
  rw [directory_of_resolve h, entry, hc, Option.map_some]

theorem directory_of_not_resolve (h : v.resolve handle = none) : v.directory handle = none := by
  rw [directory, h, Option.bind_none]

/-- Only handles of the heap stand for something. -/
theorem heap_of_directory (h : v.directory handle ≠ none) : handle.heap = v.id := by
  cases hres : v.resolve handle with
  | none => exact absurd (directory_of_not_resolve hres) h
  | some l => exact (resolve_eq_some_iff.1 hres).1

/-- A cell has one handle at a time. -/
theorem resolve_injective (h : v.resolve handle = some l) (h' : v.resolve other = some l) :
    other = handle := by
  obtain ⟨hid, hloc, -, c, hc, hgen⟩ := resolve_eq_some_iff.1 h
  obtain ⟨hid', hloc', -, c', hc', hgen'⟩ := resolve_eq_some_iff.1 h'
  obtain rfl := Option.some.inj (hc.symm.trans hc')
  cases handle
  cases other
  simp only at *
  simp only [Handle.mk.injEq]
  exact ⟨hid'.trans hid.symm, hloc'.trans hloc.symm, hgen'.symm.trans hgen⟩

/-- A handle resolves to its own location or not at all. -/
theorem resolve_eq_none (h : v.resolve handle ≠ some handle.location) : v.resolve handle = none := by
  rw [Option.eq_none_iff_forall_ne_some]
  intro m hm
  rw [eq_location hm] at h
  exact h hm

/-- No other handle of the location of a cell resolves. -/
theorem resolve_of_ne (h : v.resolve handle = some l) (hne : other ≠ handle)
    (hloc : other.location = l) : v.resolve other = none :=
  resolve_eq_none fun hres => hne (resolve_injective h (hloc ▸ hres))

/-- Where the same handles resolve to the same cells, they stand for the same. -/
theorem directory_congr (hres : w.resolve = v.resolve) (hcontents : w.contents = v.contents)
    (hcount : w.count = v.count) : w.directory = v.directory := by
  have hentry : w.entry = v.entry := by
    funext l
    rw [entry, entry, hcontents, hcount]
  funext handle
  rw [directory, directory, hres, hentry]

theorem Recolored.directory (h : v.Recolored w) : w.directory = v.directory :=
  directory_congr h.resolve h.contents h.count

/-- The directory after a change of one cell. -/
theorem directory_eq_put (hres : w.resolve handle = some l) {e : Entry} (he : w.entry l = some e)
    (hrest : ∀ other, other ≠ handle → w.directory other = v.directory other) :
    w.directory = v.directory.put handle e := by
  funext other
  rw [Directory.put, Function.update_apply]
  split
  · next heq => rw [heq, directory_of_resolve hres, he]
  · next hne => exact hrest other hne

/-- A handle of another cell stands for what it stood for. -/
theorem directory_of_location_ne (hid : w.id = v.id) (hne : other.location ≠ l)
    (hcolor : ∀ m, m ≠ l → (w.color m).isSome = (v.color m).isSome)
    (hcontents : ∀ m, m ≠ l → w.contents m = v.contents m)
    (hcount : ∀ m, m ≠ l → w.count m = v.count m) : w.directory other = v.directory other := by
  have hres : w.resolve other = v.resolve other :=
    resolve_congr hid (hcolor _ hne) (hcontents _ hne)
  cases hv : v.resolve other with
  | none => rw [directory_of_not_resolve hv, directory_of_not_resolve (hres.trans hv)]
  | some m =>
    obtain rfl := eq_location hv
    rw [directory_of_resolve hv, directory_of_resolve (hres.trans hv), entry, entry,
      hcontents _ hne, hcount _ hne]

/-- A spare cell gets an entry. -/
theorem directory_fill (hl : v.color l = none) (c : Cell) :
    (v.fill l c).directory =
      v.directory.put ⟨v.id, l, c.generation⟩ ⟨c.car, c.cdr, v.count l⟩ := by
  have hcontents : (v.fill l c).contents l = some c := Function.update_self ..
  have hcolor : (v.fill l c).color l = some .white := Function.update_self ..
  have hres : (v.fill l c).resolve ⟨v.id, l, c.generation⟩ = some l :=
    resolve_eq_some_iff.2 ⟨rfl, rfl, by rw [hcolor]; rfl, c, hcontents, rfl⟩
  refine directory_eq_put hres (by rw [entry, hcontents]; rfl) ?_
  intro other hne
  by_cases hloc : other.location = l
  · -- no other handle of the location resolves, before or after
    have hnone : v.resolve other = none :=
      resolve_eq_none fun hother => live_of_resolve hother (hloc ▸ hl)
    rw [directory_of_not_resolve hnone, directory_of_not_resolve (resolve_of_ne hres hne hloc)]
  · exact directory_of_location_ne rfl hloc
      (fun m hm => congrArg Option.isSome (Function.update_of_ne hm _ _))
      (fun m hm => Function.update_of_ne hm _ _) fun _ _ => rfl

/-- A change of the count of a cell. -/
theorem directory_recount (hres : v.resolve handle = some l) (hc : v.contents l = some c) (n : Nat) :
    (v.recount l n).directory = v.directory.put handle ⟨c.car, c.cdr, n⟩ := by
  refine directory_eq_put (w := v.recount l n) hres ?_ ?_
  · rw [entry, show (v.recount l n).contents l = some c from hc]
    simp [recount]
  · intro other hne
    by_cases hloc : other.location = l
    · have hnone := resolve_of_ne hres hne hloc
      rw [directory_of_not_resolve hnone, directory_of_not_resolve (v := v.recount l n) hnone]
    · exact directory_of_location_ne rfl hloc (fun _ _ => rfl) (fun _ _ => rfl)
        fun m hm => Function.update_of_ne hm _ _

/-- A change of what a cell holds. -/
theorem directory_store (hres : v.resolve handle = some l) (hc : v.contents l = some c)
    (hd : d.generation = c.generation) :
    (v.store l d).directory = v.directory.put handle ⟨d.car, d.cdr, v.count l⟩ := by
  have hself : (v.store l d).contents l = some d := Function.update_self ..
  have hres' := resolve_store hc hd
  refine directory_eq_put (by rw [hres', hres]) (by rw [entry, hself]; rfl) ?_
  intro other hne
  by_cases hloc : other.location = l
  · have hnone := resolve_of_ne hres hne hloc
    rw [directory_of_not_resolve hnone, directory_of_not_resolve (by rw [hres', hnone])]
  · exact directory_of_location_ne rfl hloc (fun _ _ => rfl)
      (fun m hm => Function.update_of_ne hm _ _) fun _ _ => rfl

/-- A live cell gets another count, whatever colours change. -/
theorem directory_paint_shade (hres : v.resolve handle = some l) (hc : v.contents l = some c)
    (color : Color) (n : Nat) (S : Set Location) :
    (((v.paint l (some color)).recount l n).shade S).directory =
      v.directory.put handle ⟨c.car, c.cdr, n⟩ := by
  have hlive := live_of_resolve hres
  have hpaint : (v.paint l (some color)).directory = v.directory :=
    directory_congr (resolve_paint hlive color) rfl rfl
  have hres' : (v.paint l (some color)).resolve handle = some l := by rw [resolve_paint hlive, hres]
  rw [(recolored_shade _ _).directory, directory_recount hres' hc, hpaint]

/-- A live cell becomes a root with a count of one. -/
theorem directory_root (hres : v.resolve handle = some l) (hc : v.contents l = some c) :
    (v.root l).directory = v.directory.put handle ⟨c.car, c.cdr, 1⟩ :=
  directory_paint_shade hres hc _ _ _

/-- A root loses its last count. -/
theorem directory_unroot (hres : v.resolve handle = some l) (hc : v.contents l = some c) :
    (v.unroot l).directory = v.directory.put handle ⟨c.car, c.cdr, 0⟩ :=
  directory_paint_shade hres hc _ _ _

/-- A value in a live cell is exchanged. -/
theorem directory_setChild (hres : v.resolve handle = some l) (hc : v.contents l = some c) (x : Value)
    (side : Side) :
    ((v.store l (c.setChild x side)).barrier l x).directory =
      v.directory.put handle ((⟨c.car, c.cdr, v.count l⟩ : Entry).setChild x side) := by
  rw [(recolored_barrier _ l x).directory, directory_store hres hc (by cases side <;> rfl)]
  cases side <;> rfl

/-! ## Growth and new cells -/

theorem Grows.generation (hg : v.Grows g) : g.generation = v.generation := by
  funext l
  cases hv : v.contents l with
  | some c => rw [View.generation, View.generation, hv, hg.kept l c hv]
  | none =>
    cases hgl : g.contents l with
    | none => rw [View.generation, View.generation, hv, hgl]
    | some c =>
      rw [View.generation, View.generation, hv, hgl, hg.fresh l c hv hgl]
      rfl

theorem Closed.resolve_grows (h : v.Closed) (hg : v.Grows g) : g.resolve = v.resolve := by
  funext handle
  cases hres : v.resolve handle with
  | some l => exact hg.resolve hres
  | none =>
    refine resolve_eq_none fun hm => ?_
    obtain ⟨hid, -, hlive, c, hc, hgen⟩ := resolve_eq_some_iff.1 hm
    rw [hg.color] at hlive
    rw [h.contents_of_grows hg (Option.isSome_iff_ne_none.1 hlive)] at hc
    rw [resolve_eq_some_iff.2 ⟨hid.trans hg.id, rfl, hlive, c, hc, hgen⟩] at hres
    cases hres

theorem Closed.directory_grows (h : v.Closed) (hg : v.Grows g) : g.directory = v.directory := by
  funext handle
  have hres := congrFun (h.resolve_grows hg) handle
  cases hv : v.resolve handle with
  | none => rw [directory_of_not_resolve hv, directory_of_not_resolve (hres.trans hv)]
  | some l =>
    rw [directory_of_resolve hv, directory_of_resolve (hres.trans hv), entry, entry, hg.count,
      h.contents_of_grows hg (live_of_resolve hv)]

/-- Only roots are counted. -/
def Counted (v : View) : Prop := ∀ l, v.color l ≠ some .root → v.count l = 0

section Creates

variable {tag : Tag} {car cdr : Value}

theorem Creates.id (hc : v.Creates tag car cdr handle w) : w.id = v.id := by
  obtain ⟨hg, -, -⟩ := hc
  exact hg.id

/-- A new cell is not counted. -/
theorem Creates.counted (hc : v.Creates tag car cdr handle w) (h : v.Counted) : w.Counted := by
  obtain @⟨g, k, d, hg, hdead, -⟩ := hc
  intro l hl
  have hcount : (g.fill k (d.renew tag car cdr)).count l = v.count l := congrFun hg.count l
  rw [hcount]
  by_cases hlk : l = k
  · refine h l ?_
    rw [hlk, ← hg.color, hdead]
    simp
  · have hcolor : (g.fill k (d.renew tag car cdr)).color l = v.color l :=
      (Function.update_of_ne hlk _ _).trans (congrFun hg.color l)
    exact h l (hcolor ▸ hl)

/-- A new cell adds an entry. -/
theorem Creates.directory (hc : v.Creates tag car cdr handle w) (h : v.Closed) (hcounted : v.Counted) :
    w.directory = v.directory.put handle ⟨car, cdr, 0⟩ := by
  obtain @⟨g, l, d, hg, hdead, hd⟩ := hc
  have hcount : g.count l = 0 := by
    rw [hg.count]
    exact hcounted l (by rw [← hg.color, hdead]; simp)
  rw [directory_fill hdead, h.directory_grows hg, hg.id, hcount]
  rfl

end Creates

/-! ## The end of a cycle -/

theorem Recolored.counted (h : v.Recolored w) (hv : v.Counted) : w.Counted := by
  intro l hl
  rw [h.count]
  exact hv l (mt (h.root l).2 hl)

/-- The handle that a cell has now. -/
def handleOf (v : View) (l : Location) : Handle := ⟨v.id, l, v.generation l⟩

theorem resolve_handleOf (hl : v.color l ≠ none) (hc : v.contents l = some c) :
    v.resolve (v.handleOf l) = some l :=
  resolve_eq_some_iff.2 ⟨rfl, rfl, Option.isSome_iff_ne_none.2 hl, c, hc, by
    rw [handleOf, generation, hc, Option.elim_some]⟩

/-- A sweep deletes the entries of the white cells. -/
theorem Safe.directory_sweep (h : v.Safe) (hcounted : v.Counted) (hend : ∀ l, v.color l ≠ some .grey)
    {ls : List Location} (hnodup : ls.Nodup) (hls : ∀ l, l ∈ ls ↔ v.color l = some .white) :
    v.directory.Deletes ls.length v.sweep.directory := by
  have hinj : Function.Injective v.handleOf := fun l m hlm => congrArg Handle.location hlm
  refine ⟨ls.map v.handleOf, List.Nodup.map hinj hnodup, List.length_map _, ?_, ?_⟩
  · intro handle hmem
    obtain ⟨l, hl, rfl⟩ := List.mem_map.1 hmem
    have hwhite := (hls l).1 hl
    have hlive : v.color l ≠ none := by simp [hwhite]
    obtain ⟨c, hc⟩ := Option.ne_none_iff_exists'.1 (h.stored hlive)
    refine ⟨⟨c.car, c.cdr, v.count l⟩, ?_, hcounted l (by simp [hwhite])⟩
    rw [directory_of_contents (resolve_handleOf hlive hc) hc]
  · intro handle
    have hentry : v.sweep.entry = v.entry := rfl
    cases hres : v.resolve handle with
    | none =>
      have hsweep : v.sweep.resolve handle = none :=
        resolve_eq_none fun hm => by simp [(resolve_sweep.1 hm).1] at hres
      rw [directory_of_not_resolve hres, directory_of_not_resolve hsweep, ite_self]
    | some l =>
      have hlive := live_of_resolve hres
      obtain ⟨c, hc⟩ := Option.ne_none_iff_exists'.1 (h.stored hlive)
      have hhandle : handle = v.handleOf l := resolve_injective (resolve_handleOf hlive hc) hres
      have hmem : handle ∈ ls.map v.handleOf ↔ v.color l = some .white := by
        rw [hhandle, List.mem_map_of_injective hinj, hls]
      -- white cells go, black ones and roots keep their handles and contents
      cases hcolor : v.color l with
      | none => exact absurd hcolor hlive
      | some color =>
        cases color with
        | white =>
          have hsweep : v.sweep.resolve handle = none := by
            refine resolve_eq_none fun hm => ?_
            obtain ⟨hm, hblack⟩ := resolve_sweep.1 hm
            obtain rfl := Option.some.inj (hm.symm.trans hres)
            rcases hblack with hblack | hblack <;> simp [hcolor] at hblack
          rw [if_pos (hmem.2 hcolor), directory_of_not_resolve hsweep]
        | grey => exact absurd hcolor (hend l)
        | black =>
          rw [if_neg (by rw [hmem, hcolor]; simp), directory_of_resolve hres, ← hentry,
            directory_of_resolve (resolve_sweep.2 ⟨hres, .inl hcolor⟩)]
        | root =>
          rw [if_neg (by rw [hmem, hcolor]; simp), directory_of_resolve hres, ← hentry,
            directory_of_resolve (resolve_sweep.2 ⟨hres, .inr hcolor⟩)]

/-- **A collection deletes as many entries as it returns, and none of a root.** -/
theorem Collects.directory (hc : v.Collects n w) (h : v.Safe) (hcounted : v.Counted) :
    v.directory.Deletes n w.directory := by
  obtain ⟨hscans, hend, hnodup, hls⟩ := hc
  rw [← hscans.recolored.directory]
  exact (h.scans hscans).directory_sweep (hscans.recolored.counted hcounted) hend hnodup hls

end View

end ConsHeap
