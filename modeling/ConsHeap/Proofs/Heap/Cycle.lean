import ConsHeap.Heap.Cycle
import ConsHeap.Proofs.Heap.Shading
import Mathlib.Data.List.Perm.Subperm

/-!
# The collection cycle

* `Heap.scanFrom_ok`: scanning makes grey cells black until the budget or the grey cells run out.
* `Heap.startCycle_ok`: the children of the roots become grey.
* `Heap.sweep_cases`: a sweep is refused while a cell is grey. Otherwise it returns the number of
  white cells, and starts the next cycle.
* `Heap.collect_ok`: a collection is never refused.
-/

namespace ConsHeap

variable {t : Tables}

namespace Tables.Sound

/-- A cell is left to scan as long as the grey zone has a slot. -/
theorem hasGrey_iff (h : t.Sound) : t.zones.hasGrey ↔ ∃ l, t.color? l = some .grey := by
  have hord := h.zones.ordered
  rw [Zones.hasGrey_iff]
  constructor
  · intro hlt
    have hwhite := hord.white
    have hfree := hord.free
    obtain ⟨l, hl⟩ := Zones.lt_capacity_iff.1 (show t.zones.greyBegin < t.zones.capacity by omega)
    refine ⟨l, ?_⟩
    rw [color?_of_slot h.zones hl, (Zones.zone_eq_grey hord).2 ⟨Nat.le_refl _, hlt⟩, Zone.color]
  · rintro ⟨l, hl⟩
    obtain ⟨k, -, hz⟩ := h.exists_slot (l := l) (by simp [hl]) (by simp [hl])
    have hzone : t.zones.zone k = .grey := by
      rw [hl] at hz
      cases hk : t.zones.zone k <;> simp_all [Zone.color]
    have := (Zones.zone_eq_grey hord).1 hzone
    omega

/-- The black cells, each once. -/
theorem exists_blacks (h : t.Sound) :
    ∃ ls : List Location, ls.Nodup ∧ ls.length = t.zones.blackTop ∧
      ∀ l, l ∈ ls ↔ t.color? l = some .black := by
  have hord := h.zones.ordered
  have hle := Nat.le_trans hord.gap (Nat.le_trans hord.grey (Nat.le_trans hord.white hord.free))
  refine @ZonesSound.zone_cells t h.zones 0 t.zones.blackTop .black hle (by simp) fun k => ?_
  rw [and_iff_right (Nat.zero_le k), ← Zones.zone_eq_black]
  cases t.zones.zone k <;> simp [Zone.color]

/-- The grey cells, each once. -/
theorem exists_greys (h : t.Sound) :
    ∃ ls : List Location, ls.Nodup ∧ ls.length = t.zones.greyTop - t.zones.greyBegin ∧
      ∀ l, l ∈ ls ↔ t.color? l = some .grey := by
  have hord := h.zones.ordered
  refine h.zones.zone_cells (Nat.le_trans hord.white hord.free) (by simp) fun k => ?_
  rw [← Zones.zone_eq_grey hord]
  cases t.zones.zone k <;> simp [Zone.color]

/-- The white cells, each once. -/
theorem exists_whites (h : t.Sound) :
    ∃ ls : List Location, ls.Nodup ∧ ls.length = t.zones.whiteTop - t.zones.greyTop ∧
      ∀ l, l ∈ ls ↔ t.color? l = some .white := by
  have hord := h.zones.ordered
  refine h.zones.zone_cells hord.free (by simp) fun k => ?_
  rw [← Zones.zone_eq_white hord]
  cases t.zones.zone k <;> simp [Zone.color]

end Tables.Sound

namespace Heap

variable {h h' : Heap} {v w : View} {l : Location} {c : Cell}

/-! ## Scanning -/

theorem isScanned_iff (hs : h.tables.Sound) : h.isScanned ↔ ∀ l, h.view.color l ≠ some .grey := by
  rw [isScanned, Bool.not_eq_true', ← Bool.not_eq_true, hs.hasGrey_iff, not_exists]
  rfl

/-- No cell is left to scan, or one grey cell becomes black. -/
theorem blacken_cases (hs : h.tables.Sound) :
    (onTables Tables.blacken h = .ok none h ∧ ∀ l, h.view.color l ≠ some .grey) ∨
      ∃ h₁ h₂ l, onTables Tables.blacken h = .ok (some l) h₁ ∧ shadeContents l h₁ = .ok () h₂ ∧
        h.view.color l = some .grey ∧ h.Becomes h₂ (h.view.blacken l) := by
  have hgrey := hs.hasGrey_iff
  obtain ⟨id, sizing, kinds, t⟩ := h
  rcases Tables.blacken_ok hs.zones with ⟨hnone, hok⟩ | ⟨u, l, -, hok, hr, hz, -, -, hl, hcolor⟩
  · left
    refine ⟨onTables_ok hok, fun l hl => ?_⟩
    rw [hgrey.2 ⟨l, hl⟩] at hnone
    cases hnone
  · right
    have hb : Becomes ⟨id, sizing, kinds, t⟩ ⟨id, sizing, kinds, u⟩ _ :=
      becomes_tables (hs.relocated hr hz) (hs.view_paint hr hz hcolor id)
    have hlive : t.color? l ≠ none := by
      rw [hl]
      simp
    obtain ⟨h₂, hok₂, hb₂⟩ := hb.shadeContents_ok (Tables.stored_of_live hlive id)
    exact ⟨_, h₂, l, onTables_ok hok, hok₂, hl, hb₂⟩

/-- Scanning ends with the budget, or because no grey cell is left. -/
theorem scanFrom_ok (budget : Nat) : ∀ {h : Heap} (done : Nat), h.tables.Sound →
    ∃ h' n w, scanFrom done budget h = .ok (done + n) h' ∧ h.view.Scans n w ∧ h.Becomes h' w ∧
      n ≤ budget ∧ (n < budget → ∀ l, w.color l ≠ some .grey) := by
  induction budget with
  | zero =>
    intro h done hs
    exact ⟨h, 0, h.view, rfl, .done _, .refl hs, Nat.le_refl 0, fun hlt => absurd hlt (by simp)⟩
  | succ budget ih =>
    intro h done hs
    rcases blacken_cases hs with ⟨hok, hnone⟩ | ⟨h₁, h₂, l, hok₁, hok₂, hl, hb⟩
    · refine ⟨h, 0, h.view, ?_, .done _, .refl hs, Nat.zero_le _, fun _ => hnone⟩
      rw [scanFrom, bind_ok hok]
      rfl
    · obtain ⟨h', n, w, hok, hscans, hb', hle, hend⟩ := ih (done + 1) hb.sound
      rw [hb.view] at hscans
      refine ⟨h', n + 1, w, ?_, .next hl hscans, hb.trans hb', by omega, fun hlt => hend (by omega)⟩
      rw [scanFrom, bind_ok hok₁]
      simp only
      rw [bind_ok hok₂, hok, show done + 1 + n = done + (n + 1) by omega]

theorem scan_ok (hs : h.tables.Sound) (budget : Nat) :
    ∃ h' n w, scan budget h = .ok n h' ∧ h.view.Scans n w ∧ h.Becomes h' w ∧ n ≤ budget ∧
      (n < budget → ∀ l, w.color l ≠ some .grey) := by
  obtain ⟨h', n, w, hok, hrest⟩ := scanFrom_ok budget 0 hs
  rw [Nat.zero_add] at hok
  exact ⟨h', n, w, hok, hrest⟩

/-- A scan with a budget for the whole heap leaves no grey cell. -/
theorem scan_wholeHeap_ok (hs : h.tables.Sound) :
    ∃ h' n w, scan wholeHeap h = .ok n h' ∧ h.view.Scans n w ∧ h.Becomes h' w ∧
      ∀ l, w.color l ≠ some .grey := by
  obtain ⟨h', n, w, hok, hscans, hb, -, hend⟩ := scan_ok hs wholeHeap
  refine ⟨h', n, w, hok, hscans, hb, hend ?_⟩
  -- every scanned cell is black afterwards, and there are not so many black cells
  obtain ⟨ls, hnodup, rfl, hls⟩ := hscans.exists_black
  obtain ⟨bs, -, hlen, hbs⟩ := hb.sound.exists_blacks
  have hsub : ls ⊆ bs := by
    intro l hl
    refine (hbs l).2 ?_
    have hblack := (hls l hl).2
    rw [← hb.view] at hblack
    exact hblack
  have hle := (hnodup.subperm hsub).length_le
  obtain ⟨hgap, hgrey, hwhite, hfree⟩ := hb.sound.zones.ordered
  have hslots := hb.sound.slots_le
  simp only [Placement.maxSlot] at hslots
  simp only [wholeHeap, UInt64.size]
  omega

/-! ## The start of a cycle -/

/-- The white cells that one of the cells refers to become grey. -/
theorem forM_shadeContents_ok (ls : List Location) : ∀ {h : Heap}, h.tables.Sound →
    (∀ l ∈ ls, h.view.contents l ≠ none) →
    ∃ h', ls.forM shadeContents h = .ok () h' ∧
      h.Becomes h' (h.view.shade {m | ∃ l ∈ ls, m ∈ h.view.refs l}) := by
  induction ls with
  | nil =>
    intro h hs _
    refine ⟨h, rfl, ?_⟩
    rw [View.shade_eq_self (by simp)]
    exact .refl hs
  | cons l ls ih =>
    intro h hs hstored
    obtain ⟨h₁, hok₁, hb₁⟩ := (Becomes.refl hs).shadeContents_ok (hstored l (by simp))
    obtain ⟨h', hok, hb⟩ := ih hb₁.sound (by
      intro m hm
      rw [hb₁.view]
      exact hstored m (by simp [hm]))
    refine ⟨h', (bind_ok hok₁).trans hok, ?_⟩
    -- shading does not change what the other cells refer to
    rw [hb₁.view, View.refs_shade, View.shade_shade] at hb
    rw [show {m | ∃ k ∈ l :: ls, m ∈ h.view.refs k} =
        h.view.refs l ∪ {m | ∃ k ∈ ls, m ∈ h.view.refs k} by ext m; simp]
    exact hb₁.trans hb

/-- The white cells that roots refer to become grey. -/
theorem startCycle_ok (hs : h.tables.Sound) :
    ∃ h', startCycle h = .ok () h' ∧ h.Becomes h' h.view.startCycle := by
  have hmem : ∀ l, l ∈ h.tables.roots.locations ↔ h.view.color l = some .root := fun l =>
    hs.mem_locations_iff
  obtain ⟨h', hok, hb⟩ := forM_shadeContents_ok h.tables.roots.locations hs (by
    intro l hl
    refine Tables.stored_of_live ?_ h.id
    rw [← view_color, (hmem l).1 hl]
    simp)
  refine ⟨h', ?_, ?_⟩
  · rw [startCycle, bind_get, hok]
  · simp only [hmem] at hb
    exact hb

/-! ## The end of a cycle -/

/-- A sweep is refused while a cell is grey. Otherwise the white cells die, their number is returned,
and the next cycle starts. -/
theorem sweep_cases (hs : h.tables.Sound) :
    ((∃ l, h.view.color l = some .grey) ∧ sweep h = .error (.error .unscanned) h) ∨
      (∀ l, h.view.color l ≠ some .grey) ∧ ∃ (h' : Heap) (ls : List Location), sweep h = .ok ls.length h' ∧ ls.Nodup ∧
        (∀ l, l ∈ ls ↔ h.view.color l = some .white) ∧ h.Becomes h' h.view.sweep := by
  have hiff := isScanned_iff hs
  cases hscanned : h.isScanned with
  | false =>
    left
    refine ⟨?_, ?_⟩
    · rw [hscanned] at hiff
      simpa using hiff
    · rw [sweep, bind_get]
      simp only [hscanned, Bool.false_eq_true, if_false]
      exact bind_error rfl
  | true =>
    right
    refine ⟨hiff.1 hscanned, ?_⟩
    -- the white cells of the view are those whose slots are counted
    obtain ⟨ls, hnodup, hlen, hls⟩ := hs.exists_whites
    obtain ⟨id, sizing, kinds, t⟩ := h
    obtain ⟨u, v, hu, hv, hr, hz, -, hcolor⟩ := Tables.turn_ok hs.zones (by
      simpa [isScanned] using hscanned)
    have hview : v.view id = (t.view id).turn := hs.view_relocated hr hz hcolor id
    have hb : Becomes ⟨id, sizing, kinds, t⟩ ⟨id, sizing, kinds, v⟩ _ :=
      becomes_tables (hs.relocated hr hz) hview
    obtain ⟨h', hok, hb'⟩ := startCycle_ok hb.sound
    rw [hb.view] at hb'
    refine ⟨h', ls, ?_, hnodup, hls, hb.trans hb'⟩
    rw [sweep, bind_get]
    simp only [hscanned, if_true]
    rw [bind_ok (onTables_ok hu), bind_ok (onTables_ok hv), bind_ok hok, hlen]
    rfl

/-- A collection scans all that is grey and then sweeps. -/
theorem collect_ok (hs : h.tables.Sound) :
    ∃ h' n w, collect h = .ok n h' ∧ h.view.Collects n w ∧ h.Becomes h' w := by
  obtain ⟨h₁, n, w, hok₁, hscans, hb₁, hend⟩ := scan_wholeHeap_ok hs
  rcases sweep_cases hb₁.sound with ⟨⟨l, hl⟩, -⟩ | ⟨-, h', ls, hok, hnodup, hls, hb⟩
  · rw [hb₁.view] at hl
    exact absurd hl (hend l)
  · rw [hb₁.view] at hls hb
    exact ⟨h', ls.length, w.sweep, by rw [collect, bind_ok hok₁, hok], .mk hscans hend hnodup hls,
      hb₁.trans hb⟩

end Heap

end ConsHeap
