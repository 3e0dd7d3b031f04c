import ConsHeap.Proofs.Alike.Outcomes
import ConsHeap.Proofs.Alike.Values
import ConsHeap.Proofs.Tables.Sound

/-!
# Tables that differ in size

Two tables are alike when their boundaries are the same, and the cells at one position of both go together. What one
has past the end of the other was never used.

* `Cell.Alike`: cells that hold the same, and record the same place.
* `Zones.Level`, `Tables.Past`, `Tables.Alike`: the relation.
* `Tables.Alike.set`, `Tables.Alike.slots`, `Tables.Alike.entries`: changes of one cell, one slot, one entry.
* `Tables.Alike.color?`: **cells that go together have the same colour.**
-/

namespace ConsHeap

variable {M N : Renaming} {n : UInt32}

/-! ## Cells -/

/-- The same cell, up to a renaming. -/
structure Cell.Alike (M : Renaming) (c d : Cell) : Prop where
  car : c.car.Alike M d.car
  cdr : c.cdr.Alike M d.cdr
  tag : c.tag = d.tag
  generation : c.generation = d.generation
  slot : c.slot = d.slot
  isRoot : c.isRoot = d.isRoot

namespace Cell.Alike

variable {c d : Cell} {v w : Value}

theorem mono (h : c.Alike M d) (hle : M.Le N) : c.Alike N d :=
  ⟨h.car.mono hle, h.cdr.mono hle, h.tag, h.generation, h.slot, h.isRoot⟩

theorem symm (h : c.Alike M d) : d.Alike M.flip c :=
  ⟨h.car.symm, h.cdr.symm, h.tag.symm, h.generation.symm, h.slot.symm, h.isRoot.symm⟩

theorem handles (h : c.Alike M d) : List.Forall₂ (Handle.Alike M) c.handles d.handles :=
  List.rel_append h.car.handles h.cdr.handles

theorem child (h : c.Alike M d) (side : Side) : (c.child side).Alike M (d.child side) := by
  cases side
  · exact h.car
  · exact h.cdr

theorem setChild (h : c.Alike M d) (hv : v.Alike M w) (side : Side) :
    (c.setChild v side).Alike M (d.setChild w side) := by
  cases side
  · exact ⟨hv, h.cdr, h.tag, h.generation, h.slot, h.isRoot⟩
  · exact ⟨h.car, hv, h.tag, h.generation, h.slot, h.isRoot⟩

theorem place (h : c.Alike M d) (i : Nat) (isRoot : Bool) : (c.place i isRoot).Alike M (d.place i isRoot) :=
  ⟨h.car, h.cdr, h.tag, h.generation, rfl, rfl⟩

theorem renew {car cdr car' cdr' : Value} (h : c.Alike M d) (tag : Tag) (hcar : car.Alike M car')
    (hcdr : cdr.Alike M cdr') : (c.renew tag car cdr).Alike M (d.renew tag car' cdr') :=
  ⟨hcar, hcdr, rfl, by simp only [Cell.renew, h.generation], h.slot, h.isRoot⟩

/-- Cells that were never used are alike when they record the same place. -/
theorem unused (hc : c.contents = (Cell.spare 0).contents) (hd : d.contents = (Cell.spare 0).contents)
    (hslot : c.slot = d.slot) (hroot : c.isRoot = d.isRoot) : c.Alike M d := by
  obtain ⟨car, cdr, tag, generation, placement⟩ := c
  obtain ⟨car', cdr', tag', generation', placement'⟩ := d
  cases hc
  cases hd
  exact ⟨.atom trivial, .atom trivial, rfl, rfl, hslot, hroot⟩

end Cell.Alike

/-! ## Tables -/

/-- The boundaries of two tables are the same. -/
structure Zones.Level (z w : Zones) : Prop where
  blackTop : z.blackTop = w.blackTop
  greyBegin : z.greyBegin = w.greyBegin
  greyTop : z.greyTop = w.greyTop
  whiteTop : z.whiteTop = w.whiteTop

namespace Zones.Level

variable {z w : Zones}

theorem symm (h : z.Level w) : w.Level z :=
  ⟨h.blackTop.symm, h.greyBegin.symm, h.greyTop.symm, h.whiteTop.symm⟩

theorem zone (h : z.Level w) (i : Nat) : z.zone i = w.zone i := by
  simp only [Zones.zone, h.blackTop, h.greyBegin, h.greyTop, h.whiteTop]

theorem hasGrey (h : z.Level w) : z.hasGrey = w.hasGrey := by
  simp only [Zones.hasGrey, h.greyBegin, h.greyTop]

theorem hasGap (h : z.Level w) : z.hasGap = w.hasGap := by
  simp only [Zones.hasGap, h.blackTop, h.greyBegin]

end Zones.Level

/-- The cell at a location was never used and goes together with nothing. -/
structure Storage.Untouched (M : Renaming) (n : UInt32) (s : Storage) (l : Location) : Prop where
  contents : s.contents? l = some (Cell.spare 0).contents
  alone : ∀ m, ¬ M n l m

theorem Storage.Untouched.set {s : Storage} {l m k : Location} {c : Cell} (h : s.Untouched M n l) (hm : M n m k) :
    (s.set m c).Untouched M n l := by
  refine ⟨?_, h.alone⟩
  have hne : l ≠ m := by
    rintro rfl
    exact h.alone k hm
  rw [Storage.contents?, Storage.get?_set_of_ne hne]
  exact h.contents

namespace Tables

/-- What tables `t` have past the ends of `u` is untouched. -/
structure Past (M : Renaming) (n : UInt32) (t u : Tables) : Prop where
  slots : ∀ {i : Nat} {l}, u.zones.capacity ≤ i → t.zones.slots[i]? = some l → t.storage.Untouched M n l
  entries : ∀ {i : Nat} {e : RootEntry}, u.roots.capacity ≤ i → t.roots.entries[i]? = some e →
    t.storage.Untouched M n e.location

/-- The tables of heap `n` in two hosts. Cells at the same position go together, and cells that go together are
alike. -/
structure Alike (M : Renaming) (n : UInt32) (t u : Tables) : Prop where
  level : t.zones.Level u.zones
  live : t.roots.live = u.roots.live
  live_le : t.roots.live ≤ t.roots.capacity
  live_le' : u.roots.live ≤ u.roots.capacity
  unique : ∀ {l m l' m'}, M n l m → M n l' m' → (l = l' ↔ m = m')
  cell : ∀ {l m}, M n l m → ∃ c d, t.storage.get? l = some c ∧ u.storage.get? m = some d ∧ c.Alike M d
  slot : ∀ {i : Nat} {l m}, t.zones.slots[i]? = some l → u.zones.slots[i]? = some m → M n l m
  entry : ∀ {i : Nat} {e f : RootEntry}, t.roots.entries[i]? = some e → u.roots.entries[i]? = some f →
    M n e.location f.location ∧ e.count = f.count
  left : t.Past M n u
  right : u.Past M.flip n t

namespace Alike

variable {t u : Tables} {l m : Location} {c d : Cell} {i j : Nat}

theorem symm (h : t.Alike M n u) : u.Alike M.flip n t where
  level := h.level.symm
  live := h.live.symm
  live_le := h.live_le'
  live_le' := h.live_le
  unique hM hM' := (h.unique hM hM').symm
  cell hM := by
    obtain ⟨c, d, hc, hd, hcd⟩ := h.cell hM
    exact ⟨d, c, hd, hc, hcd.symm⟩
  slot hl hm := h.slot hm hl
  entry he hf := ⟨(h.entry hf he).1, (h.entry hf he).2.symm⟩
  left := h.right
  right := h.left

/-- More cells may go together in other heaps. -/
theorem mono (h : t.Alike M n u) (hle : M.Le N) (hsame : N n = M n) : t.Alike N n u where
  level := h.level
  live := h.live
  live_le := h.live_le
  live_le' := h.live_le'
  unique := by
    rw [hsame]
    exact h.unique
  cell hN := by
    rw [hsame] at hN
    obtain ⟨c, d, hc, hd, hcd⟩ := h.cell hN
    exact ⟨c, d, hc, hd, hcd.mono hle⟩
  slot hl hm := hle _ _ _ (h.slot hl hm)
  entry he hf := (h.entry he hf).imp_left (hle _ _ _)
  left := by
    refine ⟨fun hi hl => ⟨(h.left.slots hi hl).contents, ?_⟩, fun hi he => ⟨(h.left.entries hi he).contents, ?_⟩⟩
    · rw [hsame]
      exact (h.left.slots hi hl).alone
    · rw [hsame]
      exact (h.left.entries hi he).alone
  right := by
    refine ⟨fun hi hl => ⟨(h.right.slots hi hl).contents, ?_⟩, fun hi he => ⟨(h.right.entries hi he).contents, ?_⟩⟩
    · simp only [Renaming.flip, hsame]
      exact (h.right.slots hi hl).alone
    · simp only [Renaming.flip, hsame]
      exact (h.right.entries hi he).alone

/-! ## Changes in one place -/

/-- Other contents for two cells that go together. -/
theorem set (h : t.Alike M n u) (hlm : M n l m) (hcd : c.Alike M d) :
    Alike M n { t with storage := t.storage.set l c } { u with storage := u.storage.set m d } := by
  obtain ⟨c₀, d₀, hc₀, hd₀, -⟩ := h.cell hlm
  refine ⟨h.level, h.live, h.live_le, h.live_le', h.unique, fun {l' m'} hM => ?_, h.slot, h.entry, ⟨?_, ?_⟩, ⟨?_, ?_⟩⟩
  · by_cases hl : l' = l
    · subst hl
      obtain rfl := (h.unique hM hlm).1 rfl
      exact ⟨c, d, Storage.get?_set_self hc₀ c, Storage.get?_set_self hd₀ d, hcd⟩
    · have hm : m' ≠ m := fun heq => hl ((h.unique hM hlm).2 heq)
      rw [Storage.get?_set_of_ne hl, Storage.get?_set_of_ne hm]
      exact h.cell hM
  · exact fun hi hl' => (h.left.slots hi hl').set hlm
  · exact fun hi he => (h.left.entries hi he).set hlm
  · exact fun hi hm' => (h.right.slots hi hm').set (show M.flip n m l from hlm)
  · exact fun hi he => (h.right.entries hi he).set (show M.flip n m l from hlm)

/-- Two slots of the same number name other cells that go together. -/
theorem slots (h : t.Alike M n u) (hi : i < t.zones.capacity) (hi' : i < u.zones.capacity) (hlm : M n l m) :
    Alike M n { t with zones := { t.zones with slots := t.zones.slots.setIfInBounds i l } }
      { u with zones := { u.zones with slots := u.zones.slots.setIfInBounds i m } } := by
  have hget : ∀ (z : Zones) (l : Location) (j : Nat), i < z.capacity →
      (z.slots.setIfInBounds i l)[j]? = if i = j then some l else z.slots[j]? := by
    intro z l j hz
    have hz' : i < z.slots.size := hz
    simp only [Array.getElem?_setIfInBounds, hz', if_true]
  have hsize : ∀ (z : Zones) (l : Location),
      Zones.capacity { z with slots := z.slots.setIfInBounds i l } = z.capacity := fun z l => Array.size_setIfInBounds
  refine ⟨⟨h.level.blackTop, h.level.greyBegin, h.level.greyTop, h.level.whiteTop⟩, h.live, h.live_le, h.live_le',
    h.unique, h.cell, fun {j l' m'} hl' hm' => ?_, h.entry, ⟨?_, h.left.entries⟩, ⟨?_, h.right.entries⟩⟩
  · simp only [hget _ _ _ hi] at hl'
    simp only [hget _ _ _ hi'] at hm'
    split at hl'
    · next hij =>
      rw [if_pos hij] at hm'
      cases hl'
      cases hm'
      exact hlm
    · next hij =>
      rw [if_neg hij] at hm'
      exact h.slot hl' hm'
  · intro j l' hj hl'
    simp only [hsize] at hj
    simp only [hget _ _ _ hi] at hl'
    rw [if_neg (by omega)] at hl'
    exact h.left.slots hj hl'
  · intro j m' hj hm'
    simp only [hsize] at hj
    simp only [hget _ _ _ hi'] at hm'
    rw [if_neg (by omega)] at hm'
    exact h.right.slots hj hm'

/-- Two entries of the same number name other cells that go together, with the same count. -/
theorem entries (h : t.Alike M n u) (hi : i < t.roots.capacity) (hi' : i < u.roots.capacity) (hlm : M n l m)
    (k : Nat) :
    Alike M n { t with roots := { t.roots with entries := t.roots.entries.setIfInBounds i ⟨l, k⟩ } }
      { u with roots := { u.roots with entries := u.roots.entries.setIfInBounds i ⟨m, k⟩ } } := by
  have hget : ∀ (r : Roots) (e : RootEntry) (j : Nat), i < r.capacity →
      (r.entries.setIfInBounds i e)[j]? = if i = j then some e else r.entries[j]? := by
    intro r e j hr
    have hr' : i < r.entries.size := hr
    simp only [Array.getElem?_setIfInBounds, hr', if_true]
  have hsize : ∀ (r : Roots) (e : RootEntry),
      Roots.capacity { r with entries := r.entries.setIfInBounds i e } = r.capacity :=
    fun r e => Array.size_setIfInBounds
  refine ⟨h.level, h.live, ?_, ?_, h.unique, h.cell, h.slot, fun {j e f} he hf => ?_, ⟨h.left.slots, ?_⟩,
    ⟨h.right.slots, ?_⟩⟩
  · simp only [hsize]
    exact h.live_le
  · simp only [hsize]
    exact h.live_le'
  · simp only [hget _ _ _ hi] at he
    simp only [hget _ _ _ hi'] at hf
    split at he
    · next hij =>
      rw [if_pos hij] at hf
      cases he
      cases hf
      exact ⟨hlm, rfl⟩
    · next hij =>
      rw [if_neg hij] at hf
      exact h.entry he hf
  · intro j e hj he
    simp only [hsize] at hj
    simp only [hget _ _ _ hi] at he
    rw [if_neg (by omega)] at he
    exact h.left.entries hj he
  · intro j e hj he
    simp only [hsize] at hj
    simp only [hget _ _ _ hi'] at he
    rw [if_neg (by omega)] at he
    exact h.right.entries hj he

/-- Boundaries that stay the same as each other. -/
theorem bounds {z w : Zones} (h : t.Alike M n u) (hzw : z.Level w) (hz : z.slots = t.zones.slots)
    (hw : w.slots = u.zones.slots) : Alike M n { t with zones := z } { u with zones := w } := by
  have hcapz : z.capacity = t.zones.capacity := by rw [Zones.capacity, hz, Zones.capacity]
  have hcapw : w.capacity = u.zones.capacity := by rw [Zones.capacity, hw, Zones.capacity]
  refine ⟨hzw, h.live, h.live_le, h.live_le', h.unique, h.cell, fun hl hm => ?_, h.entry,
    ⟨fun hi hl => ?_, h.left.entries⟩, ⟨fun hi hm => ?_, h.right.entries⟩⟩
  · rw [hz] at hl
    rw [hw] at hm
    exact h.slot hl hm
  · rw [hz] at hl
    exact h.left.slots (by rw [← hcapw]; exact hi) hl
  · rw [hw] at hm
    exact h.right.slots (by rw [← hcapz]; exact hi) hm

/-- The same number of live entries. -/
theorem withLive {k : Nat} (h : t.Alike M n u) (hk : k ≤ t.roots.capacity) (hk' : k ≤ u.roots.capacity) :
    Alike M n { t with roots := { t.roots with live := k } } { u with roots := { u.roots with live := k } } :=
  ⟨h.level, rfl, hk, hk', h.unique, h.cell, h.slot, h.entry, ⟨h.left.slots, h.left.entries⟩,
    ⟨h.right.slots, h.right.entries⟩⟩

/-! ## Colours -/

/-- A cell that goes together with another is named by a slot if the other is. -/
theorem names (h : t.Alike M n u) (hlm : M n l m) (hl : t.zones.slots[i]? = some l) :
    u.zones.slots[i]? = some m := by
  cases hm : u.zones.slots[i]? with
  | some m' => rw [(h.unique hlm (h.slot hl hm)).1 rfl]
  -- past the end of the other table nothing goes together
  | none => exact absurd hlm ((h.left.slots (Array.getElem?_eq_none_iff.1 hm) hl).alone m)

theorem names_iff (h : t.Alike M n u) (hlm : M n l m) :
    t.zones.slots[i]? = some l ↔ u.zones.slots[i]? = some m :=
  ⟨h.names hlm, h.symm.names (show M.flip n m l from hlm)⟩

/-- Cells that go together have the same colour. -/
theorem color? (h : t.Alike M n u) (hlm : M n l m) : t.color? l = u.color? m := by
  obtain ⟨c, d, hc, hd, hcd⟩ := h.cell hlm
  have hnames : t.zones.slots[d.slot]? = some l ↔ u.zones.slots[d.slot]? = some m := h.names_iff hlm
  simp only [Tables.color?, hc, hd, Option.bind_eq_bind, Option.bind_some, hcd.isRoot, hcd.slot, hnames, h.level.zone]

end Alike

end Tables

end ConsHeap
