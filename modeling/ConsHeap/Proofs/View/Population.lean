import ConsHeap.Proofs.View.Coloring
import ConsHeap.Proofs.View.Holders
import Mathlib.Data.Set.Card

/-!
# The number of live cells

* `ncard_eq_length`: the number of the members of a list.
* `Coloring.population`: the number of locations with a live cell.
* `Coloring.population_paint_new`, `Coloring.population_of_dead`: a cell comes to life, and some die.
* `View.Effect.isSome_color`: operations that neither make nor reclaim cells keep all that live.
* `Tables.Sound.population`: **the live cells are those of the black, grey and white zones and of the live
  entries.**
-/

namespace ConsHeap

/-- A list of the members of a set, each once, has the length of their number. -/
theorem ncard_eq_length {α : Type} {S : Set α} {as : List α} (hnodup : as.Nodup)
    (has : ∀ a, a ∈ as ↔ a ∈ S) : S.ncard = as.length := by
  classical
  have hset : S = ↑as.toFinset := by
    ext a
    simp [has]
  rw [hset, Set.ncard_coe_finset, List.toFinset_card_of_nodup hnodup]

namespace Coloring

variable {c c' : Coloring} {l : Location} {color : Color} {ls : List Location}

/-- The number of locations with a live cell. -/
noncomputable def population (c : Coloring) : Nat := {l | c l ≠ none}.ncard

theorem population_congr (h : ∀ l, (c' l).isSome = (c l).isSome) : c'.population = c.population := by
  have hlive : {l | c' l ≠ none} = {l | c l ≠ none} := by
    ext l
    simp only [Set.mem_ofPred_eq, ← Option.isSome_iff_ne_none, h]
  rw [population, hlive, population]

/-- A list of the live cells, each once, has the length of their number. -/
theorem population_eq_length (hnodup : ls.Nodup) (hls : ∀ l, l ∈ ls ↔ c l ≠ none) :
    c.population = ls.length :=
  ncard_eq_length hnodup hls

/-- A spare cell that gets a colour is one more live cell. -/
theorem population_paint_new (hl : c l = none) (color : Color) :
    (c.paint l color).population = c.population + 1 := by
  have hlive : {m | c.paint l color m ≠ none} = insert l {m | c m ≠ none} := by
    ext m
    by_cases hm : m = l
    · simp [hm]
    · simp [hm]
  rw [population, hlive, Set.ncard_insert_of_notMem (by simpa using hl) (Set.toFinite _), population]

/-- Live cells that die are so many less. -/
theorem population_of_dead (hnodup : ls.Nodup) (hlive : ∀ l ∈ ls, c l ≠ none)
    (hdead : ∀ l, c' l ≠ none ↔ c l ≠ none ∧ l ∉ ls) : c'.population + ls.length = c.population := by
  have hunion : {l | c l ≠ none} = {l | c' l ≠ none} ∪ ↑ls.toFinset := by
    ext l
    simp only [Set.mem_union, Set.mem_ofPred_eq, hdead, List.coe_toFinset]
    by_cases hl : l ∈ ls
    · simp [hl, hlive l hl]
    · simp [hl]
  have hdisjoint : Disjoint {l | c' l ≠ none} (↑ls.toFinset : Set Location) := by
    rw [Set.disjoint_left]
    intro l hl hmem
    exact ((hdead l).1 hl).2 (by simpa using hmem)
  rw [population, population, hunion, Set.ncard_union_eq hdisjoint (Set.toFinite _) (Set.toFinite _),
    Set.ncard_coe_finset, List.toFinset_card_of_nodup hnodup]

end Coloring

/-- Whether an operation leaves every cell alive, and makes none. -/
def Operation.keepsCells {α : Type} : Operation α → Bool
  | .cons .. | .rootedCons .. | .list _ | .sweep | .collect => false
  | _ => true

namespace View

variable {v w : View} {l : Location} {op : Operation Value} {r : Except HeapError Result}

/-- A live cell that becomes a root lives on. -/
theorem isSome_color_root (hl : v.color l ≠ none) (m : Location) :
    ((v.root l).color m).isSome = (v.color m).isSome := by
  rw [root, isSome_color_shade]
  exact isSome_color_paint hl .root m

/-- A root that becomes black lives on. -/
theorem isSome_color_unroot (hl : v.color l ≠ none) (m : Location) :
    ((v.unroot l).color m).isSome = (v.color m).isSome := by
  rw [unroot, isSome_color_shade]
  exact isSome_color_paint hl .black m

/-- Operations that neither make nor reclaim cells keep all that live. -/
theorem Effect.isSome_color (he : v.Effect op r w) (hop : op.keepsCells = true) (m : Location) :
    (w.color m).isSome = (v.color m).isSome := by
  cases he with
  | refused => rfl
  | cons => cases hop
  | rootedCons => cases hop
  | list => cases hop
  | listRefused => cases hop
  | rootAgain => rfl
  | @rootFirst tag handle l g hres _ hg =>
    rw [isSome_color_root (by rw [hg.color]; exact live_of_resolve hres), hg.color]
  | unrootOne => rfl
  | @unrootLast tag handle l g hres _ _ hg =>
    rw [isSome_color_unroot (by rw [hg.color]; exact live_of_resolve hres), hg.color]
  | setChild => exact (recolored_barrier _ _ _).live m
  | shade => exact isSome_color_shade _ _ m
  | scan hs => exact hs.recolored.live m
  | startCycle => exact (recolored_startCycle v).live m
  | sweep => cases hop
  | collect => cases hop

/-- At the end of a cycle the white cells die. -/
theorem population_sweep {ls : List Location} (hend : ∀ l, v.color l ≠ some .grey) (hnodup : ls.Nodup)
    (hls : ∀ l, l ∈ ls ↔ v.color l = some .white) :
    Coloring.population v.sweep.color + ls.length = Coloring.population v.color := by
  refine Coloring.population_of_dead hnodup (fun l hl => by simp [(hls l).1 hl]) fun l => ?_
  rw [color_sweep_ne_none, hls]
  have hgrey := hend l
  cases hc : v.color l with
  | none => simp
  | some color => cases color <;> simp_all

end View

namespace Tables

variable {t : Tables}

/-- No cell has two live entries. -/
theorem Sound.nodup_roots (h : t.Sound) : t.roots.locations.Nodup := by
  refine List.pairwise_iff_getElem.2 fun i j hi hj hlt heq => ?_
  simp only [Roots.locations, List.length_map, List.length_take] at hi hj
  simp only [Roots.locations, List.getElem_map, List.getElem_take, Array.getElem_toList] at heq
  have := h.roots.injective (Array.getElem?_eq_getElem _) (Array.getElem?_eq_getElem _) heq
  omega

theorem Sound.length_roots (h : t.Sound) : t.roots.locations.length = t.roots.live := by
  have hle := h.roots.live_le
  rw [Roots.locations, List.length_map, List.length_take, Array.length_toList]
  exact Nat.min_eq_left hle

/-- **The live cells are those of the black, grey and white zones and of the live entries.** -/
theorem Sound.population (h : t.Sound) :
    Coloring.population t.color? = t.zones.blackTop + (t.zones.greyTop - t.zones.greyBegin) +
      (t.zones.whiteTop - t.zones.greyTop) + t.roots.live := by
  have hord := h.zones.ordered
  obtain ⟨blacks, hnb, hlb, hb⟩ := h.exists_blacks
  obtain ⟨greys, hng, hlg, hg⟩ := h.exists_greys
  obtain ⟨whites, hnw, hlw, hw⟩ := h.exists_whites
  have hroots := fun l => h.mem_locations_iff (l := l)
  -- no cell has two colours
  have hapart : ∀ {c d : Color} {ls ms : List Location}, c ≠ d → (∀ l, l ∈ ls ↔ t.color? l = some c) →
      (∀ l, l ∈ ms ↔ t.color? l = some d) → ls.Disjoint ms := by
    intro c d ls ms hne hls hms l hl hl'
    exact hne (Option.some.inj (((hls l).1 hl).symm.trans ((hms l).1 hl')))
  have hnodup : (blacks ++ greys ++ whites ++ t.roots.locations).Nodup := by
    refine ((hnb.append hng (hapart (by simp) hb hg)).append hnw ?_).append h.nodup_roots ?_
    · exact List.disjoint_append_left.2 ⟨hapart (by simp) hb hw, hapart (by simp) hg hw⟩
    · rw [List.disjoint_append_left, List.disjoint_append_left]
      exact ⟨⟨hapart (by simp) hb hroots, hapart (by simp) hg hroots⟩, hapart (by simp) hw hroots⟩
  rw [Coloring.population_eq_length hnodup, List.length_append, List.length_append, List.length_append,
    hlb, hlg, hlw, h.length_roots]
  intro l
  simp only [List.mem_append, hb, hg, hw, hroots]
  cases t.color? l with
  | none => simp
  | some color => cases color <;> simp

end Tables

end ConsHeap
