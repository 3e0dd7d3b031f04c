import ConsHeap.Heap.Basic
import ConsHeap.Proofs.Tables.Sound
import Mathlib.Data.Set.Insert
import Mathlib.Logic.Function.Basic

/-!
# Views

What a heap amounts to, apart from slots and pages: the colour, the contents and the root count of
the cell at each location. Handles are resolved in a view as in the heap it is taken from.

* `View`, `Tables.view`, `Heap.view`: the view of the tables and of a heap.
* `View.resolve`, `View.refs`: the location that a handle stands for, and the cells that a cell
  refers to.
* `View.paint`, `View.shade`, `View.recount`, `View.store`: changes of a view.
* `View.fill`, `View.root`, `View.unroot`, `View.barrier`, `View.blacken`, `View.sweep`: what the
  operations do to it.
* `View.Grows`, `View.Scans`, `View.Creates`, `View.Lists`, `View.Collects`: what they do where
  something is left open.
-/

namespace ConsHeap

/-- The colour, the contents and the root count of the cell at each location, in a heap with an
identity. -/
@[ext]
structure View where
  id : UInt32
  color : Location → Option Color
  contents : Location → Option Cell
  count : Location → Nat

/-- The view of the tables of heap `id`. -/
def Tables.view (t : Tables) (id : UInt32) : View := ⟨id, t.color?, t.storage.contents?, t.count⟩

/-- The view of a heap. -/
def Heap.view (h : Heap) : View := h.tables.view h.id

namespace View

variable {v w : View} {l m : Location} {handle : Handle} {S T : Set Location}

/-- The location that a handle stands for. -/
def resolve (v : View) (handle : Handle) : Option Location :=
  match v.contents handle.location with
  | none => none
  | some cell =>
    if handle.heap = v.id ∧ cell.generation = handle.generation ∧
        (v.color handle.location).isSome then
      some handle.location
    else none

theorem resolve_eq_some_iff :
    v.resolve handle = some l ↔
      handle.heap = v.id ∧ handle.location = l ∧ (v.color l).isSome ∧
        ∃ cell, v.contents l = some cell ∧ cell.generation = handle.generation := by
  unfold resolve
  constructor
  · intro hr
    split at hr
    · cases hr
    · next cell hcell =>
      obtain ⟨⟨hid, hgen, hcolor⟩, hl⟩ := Option.ite_none_right_eq_some.1 hr
      cases hl
      exact ⟨hid, rfl, hcolor, cell, hcell, hgen⟩
  · rintro ⟨hid, rfl, hcolor, cell, hcell, hgen⟩
    simp [hid, hcolor, hcell, hgen]

/-- Handles are resolved by identity, liveness and contents. -/
theorem resolve_congr (hid : w.id = v.id)
    (hcolor : (w.color handle.location).isSome = (v.color handle.location).isSome)
    (hcontents : w.contents handle.location = v.contents handle.location) :
    w.resolve handle = v.resolve handle := by
  simp only [resolve, hid, hcolor, hcontents]

/-- The cells that one of the handles stands for. -/
def named (v : View) (handles : List Handle) : Set Location :=
  {l | ∃ handle ∈ handles, v.resolve handle = some l}

/-- The cells that the cell at a location refers to. -/
def refs (v : View) (l : Location) : Set Location :=
  {m | ∃ c, v.contents l = some c ∧ m ∈ v.named c.handles}

/-- The cells that a root refers to. -/
def rootRefs (v : View) : Set Location := {m | ∃ l, v.color l = some .root ∧ m ∈ v.refs l}

theorem refs_eq {c : Cell} (hc : v.contents l = some c) : v.refs l = v.named c.handles := by
  ext m
  simp [refs, hc]

/-- Holds of the values all of whose handles resolve. -/
def Accepts (v : View) (x : Value) : Prop := ∀ handle ∈ x.handles, (v.resolve handle).isSome

/-! ## Changes -/

/-- Another colour for one cell. -/
def paint (v : View) (l : Location) (c : Option Color) : View :=
  { v with color := Function.update v.color l c }

open Classical in
/-- Every white cell in `S` becomes grey. -/
noncomputable def shade (v : View) (S : Set Location) : View :=
  { v with color := fun l => if v.color l = some .white ∧ l ∈ S then some .grey else v.color l }

/-- Another root count for one cell. -/
def recount (v : View) (l : Location) (n : Nat) : View :=
  { v with count := Function.update v.count l n }

/-- A cell becomes a root with a count of one. -/
def pin (v : View) (l : Location) : View := (v.paint l (some .root)).recount l 1

/-- A root becomes black. -/
def release (v : View) (l : Location) : View := (v.paint l (some .black)).recount l 0

/-- Other contents for one cell. -/
def store (v : View) (l : Location) (c : Cell) : View :=
  { v with contents := Function.update v.contents l (some c) }

open Classical in
/-- After a value was stored in a root or a black cell, every white cell that it refers to becomes
grey. -/
noncomputable def barrier (v : View) (l : Location) (x : Value) : View :=
  if v.color l = some .root ∨ v.color l = some .black then v.shade (v.named x.handles) else v

/-- A spare cell becomes a white one with new contents. -/
def fill (v : View) (l : Location) (c : Cell) : View := (v.store l c).paint l (some .white)

theorem store_store (v : View) (l : Location) (c d : Cell) : (v.store l c).store l d = v.store l d :=
  View.ext rfl rfl (Function.update_idem ..) rfl

/-- White cells die, and black ones become white. -/
def turn (v : View) : View := { v with color := fun l => Tables.turnColor (v.color l) }

/-- A cell becomes black, and the white cells that it refers to become grey. -/
noncomputable def blacken (v : View) (l : Location) : View :=
  (v.paint l (some .black)).shade ((v.paint l (some .black)).refs l)

/-- A cell becomes a root, and the white cells that it refers to become grey. -/
noncomputable def root (v : View) (l : Location) : View := (v.pin l).shade ((v.pin l).refs l)

/-- A root becomes black, and the white cells that it refers to become grey. -/
noncomputable def unroot (v : View) (l : Location) : View :=
  (v.release l).shade ((v.release l).refs l)

/-- The white cells that roots refer to become grey. -/
noncomputable def startCycle (v : View) : View := v.shade v.rootRefs

/-- The white cells die, and the next cycle starts. -/
noncomputable def sweep (v : View) : View := v.turn.startCycle

/-- One grey cell after another becomes black, in any order, `n` of them in all. -/
inductive Scans : Nat → View → View → Prop where
  | done (v : View) : Scans 0 v v
  | next {n : Nat} {v w : View} {l : Location} :
    v.color l = some .grey → Scans n (v.blacken l) w → Scans (n + 1) v w

/-- Spare cells come in that were never used. -/
structure Grows (v w : View) : Prop where
  id : w.id = v.id
  color : w.color = v.color
  count : w.count = v.count
  kept : ∀ l c, v.contents l = some c → w.contents l = some c
  fresh : ∀ l c, v.contents l = none → w.contents l = some c → c = (Cell.spare 0).contents

/-- A spare cell, which may have come in with growth, becomes a new white one with a handle. -/
inductive Creates (v : View) (tag : Tag) (car cdr : Value) : Handle → View → Prop where
  | mk {g : View} {l : Location} {d : Cell} :
    v.Grows g → g.color l = none → g.contents l = some d →
    Creates v tag car cdr ⟨v.id, l, d.generation + 1⟩ (g.fill l (d.renew tag car cdr))

/-- A list of new white cells is made from its end. -/
inductive Lists (v : View) : List Value → Value → View → Prop where
  | nil : Lists v [] .nil v
  | cons {items : List Value} {item tail : Value} {handle : Handle} {w u : View} :
    Lists v items tail w → w.Accepts item → w.Accepts tail → w.Creates .cons item tail handle u →
    Lists v (item :: items) (.cons .cons handle) u

/-- All that is grey is scanned, `n` white cells die, and the next cycle starts. -/
inductive Collects (v : View) : Nat → View → Prop where
  | mk {n : Nat} {w : View} {ls : List Location} :
    v.Scans n w → (∀ l, w.color l ≠ some .grey) → ls.Nodup →
    (∀ l, l ∈ ls ↔ w.color l = some .white) → Collects v ls.length w.sweep

theorem Grows.refl (v : View) : v.Grows v :=
  ⟨rfl, rfl, rfl, fun _ _ h => h, fun _ _ hn h => absurd (hn.symm.trans h) (by simp)⟩

theorem Grows.trans {u : View} (h : u.Grows v) (h' : v.Grows w) : u.Grows w where
  id := h'.id.trans h.id
  color := h'.color.trans h.color
  count := h'.count.trans h.count
  kept l c hc := h'.kept l c (h.kept l c hc)
  fresh := by
    intro l c hn hc
    cases hv : v.contents l with
    | none => exact h'.fresh l c hv hc
    | some d =>
      obtain rfl := Option.some.inj ((h'.kept l d hv).symm.trans hc)
      exact h.fresh l d hn hv

/-- What a spare cell still has in it, or what it has when it comes in. -/
def stale (v : View) (l : Location) : Cell := (v.contents l).getD (Cell.spare 0).contents

theorem Grows.stale_eq {c : Cell} (h : v.Grows w) (hc : w.contents l = some c) : v.stale l = c := by
  rw [stale]
  cases hv : v.contents l with
  | some d => exact Option.some.inj ((h.kept l d hv).symm.trans hc)
  | none => exact (h.fresh l c hv hc).symm

theorem pin_paint (v : View) (l : Location) (c : Option Color) : (v.paint l c).pin l = v.pin l :=
  View.ext rfl (Function.update_idem ..) rfl rfl

/-! ## Shading -/

@[simp] theorem id_shade (v : View) (S : Set Location) : (v.shade S).id = v.id := rfl

@[simp] theorem contents_shade (v : View) (S : Set Location) : (v.shade S).contents = v.contents := rfl

@[simp] theorem count_shade (v : View) (S : Set Location) : (v.shade S).count = v.count := rfl

theorem color_shade_of_mem (h : v.color l = some .white) (hl : l ∈ S) :
    (v.shade S).color l = some .grey := if_pos ⟨h, hl⟩

theorem color_shade_of_ne_white (h : v.color l ≠ some .white) : (v.shade S).color l = v.color l :=
  if_neg fun hw => h hw.1

theorem color_shade_of_not_mem (h : l ∉ S) : (v.shade S).color l = v.color l :=
  if_neg fun hl => h hl.2

/-- Shading keeps cells alive. -/
@[simp] theorem isSome_color_shade (v : View) (S : Set Location) (l : Location) :
    ((v.shade S).color l).isSome = (v.color l).isSome := by
  by_cases h : v.color l = some .white ∧ l ∈ S
  · rw [color_shade_of_mem h.1 h.2, h.1]
    rfl
  · rw [show (v.shade S).color l = v.color l from if_neg h]

@[simp] theorem resolve_shade (v : View) (S : Set Location) : (v.shade S).resolve = v.resolve := by
  funext handle
  exact resolve_congr rfl (isSome_color_shade v S _) rfl

@[simp] theorem refs_shade (v : View) (S : Set Location) : (v.shade S).refs = v.refs := by
  funext l
  simp only [refs, named, contents_shade, resolve_shade]

@[simp] theorem named_shade (v : View) (S : Set Location) : (v.shade S).named = v.named := by
  funext handles
  simp only [named, resolve_shade]

/-- Shading twice shades both sets. -/
theorem shade_shade (v : View) (S T : Set Location) : (v.shade S).shade T = v.shade (S ∪ T) := by
  refine View.ext rfl (funext fun l => ?_) rfl rfl
  by_cases hw : v.color l = some .white
  · by_cases hS : l ∈ S
    · have hg := color_shade_of_mem hw hS
      rw [color_shade_of_ne_white (by rw [hg]; simp), hg, color_shade_of_mem hw (.inl hS)]
    · by_cases hT : l ∈ T
      · rw [color_shade_of_mem (by rwa [color_shade_of_not_mem hS]) hT, color_shade_of_mem hw (.inr hT)]
      · rw [color_shade_of_not_mem hT, color_shade_of_not_mem hS,
          color_shade_of_not_mem (not_or.2 ⟨hS, hT⟩)]
  · have hS := color_shade_of_ne_white (S := S) hw
    rw [color_shade_of_ne_white (by rwa [hS]), hS, color_shade_of_ne_white hw]

/-- Shading changes nothing when no cell of the set is white. -/
theorem shade_eq_self (h : ∀ l ∈ S, v.color l ≠ some .white) : v.shade S = v := by
  refine View.ext rfl (funext fun l => ?_) rfl rfl
  by_cases hl : l ∈ S
  · exact color_shade_of_ne_white (h l hl)
  · exact color_shade_of_not_mem hl

/-- Shading one white cell. -/
theorem shade_singleton (h : v.color l = some .white) : v.shade {l} = v.paint l (some .grey) := by
  refine View.ext rfl (funext fun m => ?_) rfl rfl
  by_cases hm : m = l
  · rw [hm, color_shade_of_mem h (Set.mem_singleton l)]
    exact (Function.update_self l (some Color.grey) v.color).symm
  · rw [color_shade_of_not_mem (mt Set.mem_singleton_iff.1 hm)]
    exact (Function.update_of_ne hm (some Color.grey) v.color).symm

/-! ## Scanning -/

/-- Black cells stay black when another cell becomes black. -/
theorem color_blacken_of_black (h : v.color m = some .black) (l : Location) :
    (v.blacken l).color m = some .black := by
  have hp : (v.paint l (some .black)).color m = some .black := by
    simp only [paint, Function.update_apply, h, ite_self]
  rw [blacken, color_shade_of_ne_white (by simp [hp]), hp]

theorem color_blacken_self (v : View) (l : Location) : (v.blacken l).color l = some .black := by
  have hp : (v.paint l (some .black)).color l = some .black := by
    simp only [paint, Function.update_self]
  rw [blacken, color_shade_of_ne_white (by simp [hp]), hp]

theorem Scans.color_of_black {n : Nat} (h : Scans n v w) (hm : v.color m = some .black) :
    w.color m = some .black := by
  induction h with
  | done => exact hm
  | next _ _ ih => exact ih (color_blacken_of_black hm _)

/-- Every cell is scanned only once. -/
theorem Scans.exists_black {n : Nat} (h : Scans n v w) :
    ∃ ls : List Location, ls.Nodup ∧ ls.length = n ∧
      ∀ l ∈ ls, v.color l ≠ some .black ∧ w.color l = some .black := by
  induction h with
  | done => exact ⟨[], List.nodup_nil, rfl, fun l hl => absurd hl (by simp)⟩
  | @next n v w l hl hrest ih =>
    obtain ⟨ls, hnodup, hlen, hls⟩ := ih
    refine ⟨l :: ls, List.nodup_cons.2 ⟨fun hmem => ?_, hnodup⟩, by simp [hlen], ?_⟩
    · exact (hls l hmem).1 (color_blacken_self v l)
    · intro m hm
      rcases List.mem_cons.1 hm with rfl | hm
      · exact ⟨by simp [hl], hrest.color_of_black (color_blacken_self v m)⟩
      · exact ⟨fun hb => (hls m hm).1 (color_blacken_of_black hb l), (hls m hm).2⟩

end View

namespace Tables.Sound

variable {t u : Tables} {l : Location}

/-- A move in the cons table changes colours only. -/
theorem view_relocated (h : t.Sound) (hr : t.Relocated u) (hu : u.ZonesSound)
    {color : Location → Option Color} (hcolor : ∀ m, u.color? m = color m) (id : UInt32) :
    u.view id = { t.view id with color } :=
  View.ext rfl (funext hcolor) (funext hr.contents) (funext (h.count_relocated hr hu))

/-- A move that changes the colour of one cell. -/
theorem view_paint (h : t.Sound) (hr : t.Relocated u) (hu : u.ZonesSound) {color : Option Color}
    (hcolor : ∀ m, u.color? m = if m = l then color else t.color? m) (id : UInt32) :
    u.view id = (t.view id).paint l color :=
  h.view_relocated hr hu (fun m => (hcolor m).trans (Function.update_apply ..).symm) id

end Tables.Sound

/-- A live cell is stored. -/
theorem Tables.stored_of_live {t : Tables} {l : Location} (hl : t.color? l ≠ none) (id : UInt32) :
    (t.view id).contents l ≠ none := by
  obtain ⟨c, hc⟩ := exists_cell hl
  rw [show (t.view id).contents l = some c.contents from Option.map_eq_some_iff.2 ⟨c, hc, rfl⟩]
  simp

theorem Heap.contents_view {h : Heap} {l : Location} {c : Cell} (hc : h.cell? l = some c) :
    h.view.contents l = some c.contents := Option.map_eq_some_iff.2 ⟨c, hc, rfl⟩

/-- A handle is resolved in the view of a heap as in the heap. -/
@[simp] theorem Heap.resolve_view (h : Heap) (handle : Handle) :
    h.view.resolve handle = h.resolve handle := by
  simp only [View.resolve, Heap.resolve, Heap.view, Tables.view, Storage.contents?, Heap.cell?]
  cases h.tables.storage.get? handle.location <;> rfl

theorem Heap.accepts_iff {h : Heap} {v : Value} : h.accepts v ↔ h.view.Accepts v := by
  simp [Heap.accepts, View.Accepts]

end ConsHeap
