import ConsHeap.Proofs.Integrity

/-!
# What a good heap answers

Questions about a value that may be stored are answered, as far as they make sense for it. They never fail
because of a handle, nor because the tables are broken.

* `Heap.live_of_accepts`: a cons that may be stored is live.
* `Heap.color_of_resolve`, `Heap.slot_of_resolve`: live conses have a colour and a slot.
* `Memory.Good.rootCount_ok`, `Memory.Good.occupancy_ok`: numbers that are always there.
* `Memory.Good.accepts_child`: what a live cell holds may be stored.
-/

namespace ConsHeap

variable {h : Heap} {m : Memory} {x : Value} {tag : Tag} {handle : Handle} {l : Location}

namespace Heap

/-- A cons that may be stored is live. -/
theorem live_of_accepts (hx : h.accepts (.cons tag handle)) :
    h.resolve handle = some handle.location := by
  rw [accepts, Value.handles, List.all_eq_true] at hx
  obtain ⟨l, hl⟩ := Option.isSome_iff_exists.1 (hx handle (List.mem_singleton_self _))
  obtain ⟨-, rfl, -⟩ := resolve_eq_some_iff.1 hl
  exact hl

/-- A cons that resolves has a colour. -/
theorem color_of_resolve (hres : h.resolve handle = some l) (tag : Tag) :
    ∃ c, h.color (.cons tag handle) = .ok c := by
  obtain ⟨-, -, hlive, -⟩ := resolve_eq_some_iff.1 hres
  obtain ⟨c, hc⟩ := Option.isSome_iff_exists.1 hlive
  refine ⟨c, ?_⟩
  have hl : h.live (.cons tag handle) = .ok l := live_eq_ok_iff.2 ⟨tag, handle, rfl, hres⟩
  rw [color, hl]
  simp only [bind, Except.bind, hc]
  rfl

/-- A cons that resolves has a slot. -/
theorem slot_of_resolve (hres : h.resolve handle = some l) (tag : Tag) :
    ∃ i, h.slot (.cons tag handle) = .ok i := by
  obtain ⟨-, -, -, c, hc, -⟩ := resolve_eq_some_iff.1 hres
  refine ⟨c.slot, ?_⟩
  rw [slot, liveCell_of_resolve hres hc]
  rfl

end Heap

namespace Memory.Good

variable (hg : m.Good)
include hg

/-- The root count of any value is a number. -/
theorem rootCount_ok (x : Value) : ∃ n, m.heap.rootCount x = .ok n := by
  rw [Heap.rootCount]
  rcases m.heap.liveCell_cases x with ⟨e, -, he⟩ | ⟨tag, handle, c, rfl, hres, hc, hlive⟩
  · rw [he]
    exact ⟨0, rfl⟩
  · simp only [hlive]
    cases hroot : c.isRoot with
    | false => exact ⟨0, rfl⟩
    | true =>
      -- a root is counted in the entry that it records
      obtain ⟨he, -⟩ := hg.sound.entry_of_root hc ((hg.sound.isRoot_iff hc).1 hroot)
      simp only [he, if_true]
      exact ⟨_, rfl⟩

/-- The sizes of the zones are the differences of the boundaries. -/
theorem occupancy_eq :
    let z := m.heap.tables.zones
    let r := m.heap.tables.roots
    m.heap.occupancy = .ok ⟨z.blackTop, z.greyBegin - z.blackTop, z.greyTop - z.greyBegin,
      z.whiteTop - z.greyTop, z.capacity - z.whiteTop, z.capacity, r.live, r.capacity,
      m.heap.tables.storage.pages.size⟩ := by
  obtain ⟨hgap, hgrey, hwhite, hfree⟩ := hg.sound.zones.ordered
  have hbetween : ∀ {low high}, low ≤ high → Heap.gapBetween low high = .ok (high - low) :=
    fun h => if_pos h
  intro z r
  rw [Heap.occupancy]
  simp only [hbetween hgap, hbetween hgrey, hbetween hwhite, hbetween hfree]
  rfl

/-- The sizes of the zones are numbers. -/
theorem occupancy_ok : ∃ o, m.heap.occupancy = .ok o := ⟨_, hg.occupancy_eq⟩

/-- What a live cell holds may be stored. -/
theorem accepts_child {c : Cell} (hl : m.heap.tables.color? l ≠ none) (hc : m.heap.cell? l = some c)
    (hx : ∀ handle ∈ x.handles, handle ∈ c.handles) : m.heap.accepts x := by
  rw [Heap.accepts, List.all_eq_true]
  intro handle hmem
  rw [hg.resolve_of_live hl hc (hx handle hmem)]
  rfl

end Memory.Good

end ConsHeap
