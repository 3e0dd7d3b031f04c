import ConsHeap.Proofs.Census
import ConsHeap.Proofs.Colors
import ConsHeap.Proofs.Faults
import ConsHeap.Proofs.Tables.Returns

/-!
# Into the root table and back

A cell that becomes a root leaves its zone, and comes back as the last black one when its count is
taken back. If it refers to no white cell, nothing is shaded on the way, and the cons table is the one
after the two moves in it.

* `Heap.root_vacates`, `Heap.unroot_opens`: what the two halves do to the cons table.
* `Heap.Beside`: the other live cells of the cons table.
* `Heap.unroot_returns`: the table after both.
* `Memory.unroot_undoes_root`: **a root that is taken back at once is black, and every other cell has its
  colour and is in the slot that is known.**
* `Memory.white_cells_change_their_order`: it need not be the slot that it had.
-/

namespace ConsHeap

/-! ## The two halves -/

namespace Heap

variable {h h₁ h₂ : Heap} {l m : Location} {i k : Nat} {x y : Value} {c : Color}

/-- A value that is a live cons has a colour. -/
theorem color_ne_none_of_live (hx : h.live x = .ok l) : h.view.color l ≠ none := by
  obtain ⟨tag, handle, rfl, hres⟩ := live_eq_ok_iff.1 hx
  exact View.live_of_resolve ((h.resolve_view handle).trans hres)

/-- Nothing is shaded when a live cell that refers to no white one has got another colour and count. -/
theorem shadeContents_of_painted {v : View} {n : Nat} (hv : h.view = (v.paint l (some c)).recount l n)
    (hc : c ≠ .white) (hl : v.color l ≠ none) (hstored : v.contents l ≠ none)
    (hw : ∀ m ∈ v.refs l, v.color m ≠ some .white) : shadeContents l h = .ok () h := by
  apply shadeContents_of_no_white
  · rw [hv]
    exact hstored
  · intro m hm
    rw [hv, show ((v.paint l (some c)).recount l n).refs = v.refs from View.refs_paint hl c] at hm
    rw [← view_color, hv]
    show Function.update v.color l (some c) m ≠ some .white
    rw [Function.update_apply]
    split
    · simpa using hc
    · exact hw m hm

/-- A cell that refers to no white one becomes a root, and all that happens to the cons table is that the
cell is taken out of it. -/
theorem root_vacates (hs : h.tables.Sound) (hsafe : h.view.Safe) (hx : h.live x = .ok l)
    (hi : h.tables.zones.slots[i]? = some l) (hw : ∀ m ∈ h.refs l, h.coloring m ≠ some .white)
    (hrun : root x h = .ok () h₁) :
    ∃ (g : View) (spare : Location), h.view.Grows g ∧ h.Becomes h₁ (g.pin l) ∧
      h₁.tables.zones = h.tables.zones.without i spare := by
  have hlive := color_ne_none_of_live hx
  obtain ⟨tag, handle, rfl, hres⟩ := live_eq_ok_iff.1 hx
  have hunrooted : h.view.color l ≠ some .root := by
    rw [view_color, Tables.color?_of_slot hs.zones hi]
    cases h.tables.zones.zone i <;> simp [Zone.color]
  obtain ⟨d, hd, -, hflag⟩ := hs.zones.records hi
  rw [root_of_liveCell (liveCell_of_resolve hres hd) hflag] at hrun
  obtain ⟨⟨⟩, g, hroom, hrun⟩ := exists_of_bind_eq_ok hrun
  rcases roomForRoot_cases hs with ⟨e, -, he⟩ | ⟨g', hok, ⟨hb, hgrows, -⟩, hfull, hzones⟩
  · rw [he] at hroom
    cases hroom
  rw [hok] at hroom
  cases hroom
  -- the slots are as they were when the cell is taken out
  obtain ⟨c, hc, rfl, -⟩ := hb.sound.zones.records (l := l) (by rw [hzones]; exact hi)
  have hlive' : g.view.color l ≠ none := by rwa [hgrows.color]
  obtain ⟨g', spare, hstart, hb', hz⟩ :=
    toRoots_eq hb.sound hfull hc hlive' (by rwa [hgrows.color])
  have hshade : shadeContents l g' = .ok () g' := by
    refine shadeContents_of_painted hb'.view (by decide) hlive' (Tables.stored_of_live hlive' g.id) ?_
    intro m hm
    rw [hsafe.refs_grows hgrows hlive, h.refs_view] at hm
    rw [hgrows.color]
    exact hw m hm
  rw [hstart, hshade] at hrun
  cases hrun
  rw [hzones] at hz
  exact ⟨g.view, spare, hgrows, hb.trans hb', hz⟩

/-- A root that was counted once becomes black, and all that happens to the cons table is that the cell
comes to a new black slot. -/
theorem unroot_opens (hs : h.tables.Sound) (hsafe : h.view.Safe) (hx : h.live x = .ok l)
    (hl : h.coloring l = some .root) (hone : h.view.count l = 1) (hroom : h.tables.zones.canExtendBlack) :
    ∃ h₂, unroot x h = .ok () h₂ ∧ h.Becomes h₂ (h.view.release l) ∧
      h₂.tables.zones = h.tables.zones.opened.put h.tables.zones.blackTop l := by
  have hlive := color_ne_none_of_live hx
  obtain ⟨tag, handle, rfl, hres⟩ := live_eq_ok_iff.1 hx
  obtain ⟨c, hc⟩ := Tables.exists_cell hlive
  obtain ⟨he, hlt, -, -⟩ := hs.entry_of_root hc hl
  have hcount : h.tables.count l = 1 := hone
  rw [hcount] at he
  obtain ⟨h₂, hretire, hb, hz⟩ := retire_eq hs hlt he hroom
  -- a root refers to no white cell
  have hshade : shadeContents l h₂ = .ok () h₂ :=
    shadeContents_of_painted hb.view (by decide) hlive (Tables.stored_of_live hlive h.id)
      (hsafe.guarded (.inr hl))
  refine ⟨h₂, ?_, hb, hz⟩
  rw [unroot_of_liveCell hs hc hl (liveCell_of_resolve hres hc), hcount, if_neg (Nat.lt_irrefl 1), toBlack_eq,
    hroom]
  exact hretire.trans hshade

/-! ## The cells beside -/

/-- The value is a live cell of the cons table, other than that at `l`, with this colour and slot. -/
structure Beside (h : Heap) (l : Location) (y : Value) (c : Color) (k : Nat) : Prop where
  other : h.live y ≠ .ok l
  color : h.color y = .ok c
  unrooted : c ≠ .root
  slot : h.slot y = .ok k

/-- A live cell that a slot names has that slot, and the colour of its zone. -/
theorem answers_of_slot (hs : h.tables.Sound) (hy : h.live y = .ok m)
    (hk : h.tables.zones.slots[k]? = some m) :
    h.slot y = .ok k ∧ ∃ c, (h.tables.zones.zone k).color = some c ∧ h.color y = .ok c := by
  obtain ⟨⟨c, hcolor, hc⟩, d, hd, hslot, -⟩ := answers_of_live hy
  obtain ⟨d', hd', rfl, -⟩ := hs.zones.records hk
  obtain rfl := Option.some.inj (hd'.symm.trans hd)
  rw [Tables.color?_of_slot hs.zones hk] at hcolor
  exact ⟨hslot, c, hcolor, hc⟩

/-- A cell beside is named by its slot, and its zone has its colour. -/
theorem beside_iff (hs : h.tables.Sound) : h.Beside l y c k ↔
    ∃ m, h.live y = .ok m ∧ m ≠ l ∧ h.tables.zones.slots[k]? = some m ∧
      (h.tables.zones.zone k).color = some c := by
  constructor
  · rintro ⟨hother, hcolor, hunrooted, hslot⟩
    cases hy : h.live y with
    | error e =>
      rw [Heap.color, hy] at hcolor
      cases hcolor
    | ok m =>
      obtain ⟨⟨c', hc', hcolor'⟩, d, hd, hslot', -⟩ := answers_of_live hy
      cases hcolor'.symm.trans hcolor
      cases hslot'.symm.trans hslot
      obtain ⟨hk, hz, -⟩ := hs.slot_of_live hd (by simp [hc']) (by simp [hc', hunrooted])
      refine ⟨m, rfl, ?_, hk, hz.trans hc'⟩
      rintro rfl
      exact hother hy
  · rintro ⟨m, hy, hne, hk, hz⟩
    obtain ⟨hslot, c', hz', hcolor⟩ := answers_of_slot hs hy hk
    cases hz'.symm.trans hz
    refine ⟨?_, hcolor, ?_, hslot⟩
    · rw [hy]
      exact fun heq => hne (Except.ok.inj heq)
    · rintro rfl
      cases hzone : h.tables.zones.zone k <;> simp [hzone, Zone.color] at hz

/-- **A cell that refers to no white one is taken back right after it became a root, and the cons table is
the one that `Zones.roundTrip` says.** -/
theorem unroot_returns (hs : h.tables.Sound) (hsafe : h.view.Safe) (hsafe₁ : h₁.view.Safe)
    (hx : h.live x = .ok l) (hi : h.tables.zones.slots[i]? = some l)
    (hw : ∀ m ∈ h.refs l, h.coloring m ≠ some .white) (hrun : root x h = .ok () h₁) :
    ∃ h₂ spare, unroot x h₁ = .ok () h₂ ∧ h₂.tables.Sound ∧ h₂.view.count l = 0 ∧
      (∀ y, h₂.live y = h.live y) ∧ h₂.tables.zones = h.tables.zones.roundTrip i spare l := by
  have hlive := color_ne_none_of_live hx
  obtain ⟨tag, handle, rfl, hres⟩ := live_eq_ok_iff.1 hx
  have hzone : (h.tables.zones.zone i).color ≠ none := by
    rwa [← Tables.color?_of_slot hs.zones hi]
  obtain ⟨g, spare, hgrows, hb₁, hz₁⟩ := root_vacates hs hsafe hx hi hw hrun
  -- both halves keep what handles stand for
  have hlive' : g.color l ≠ none := by rwa [hgrows.color]
  have hres₁ : h₁.view.resolve = h.view.resolve := by
    rw [hb₁.view, ← hsafe.resolve_grows hgrows]
    exact View.resolve_paint hlive' .root
  have hcolor : h₁.view.color l = some .root := by
    rw [hb₁.view]
    exact Function.update_self ..
  have hcount : h₁.view.count l = 1 := by
    rw [hb₁.view]
    exact Function.update_self ..
  have hx₁ : h₁.live (.cons tag handle) = .ok l := by
    refine live_eq_ok_iff.2 ⟨tag, handle, rfl, ?_⟩
    rw [← resolve_view, hres₁, resolve_view, hres]
  have hroom : h₁.tables.zones.canExtendBlack := by
    rw [hz₁]
    exact Zones.canExtendBlack_without hs.zones.ordered hzone spare
  obtain ⟨h₂, hok, hb₂, hz₂⟩ := unroot_opens hb₁.sound hsafe₁ hx₁ hcolor hcount hroom
  have hres₂ : h₂.view.resolve = h.view.resolve := by
    have hlive₁ : h₁.view.color l ≠ none := by simp [hcolor]
    rw [hb₂.view, ← hres₁]
    exact View.resolve_paint hlive₁ .black
  refine ⟨h₂, spare, hok, hb₂.sound, ?_, ?_, ?_⟩
  · rw [hb₂.view]
    exact Function.update_self ..
  · have hresolve : h₂.resolve = h.resolve := by
      funext handle
      rw [← resolve_view, hres₂, resolve_view]
    intro y
    simp only [live, hresolve]
  · rw [hz₂, hz₁]
    rfl

section Beside

variable (hs : h.tables.Sound) (hi : h.tables.zones.slots[i]? = some l)
include hs hi

/-- A cell beside is in another slot, and its zone is live. -/
theorem Beside.elsewhere (hy : h.Beside l y c k) : (h.tables.zones.zone k).color = some c ∧ k ≠ i := by
  obtain ⟨m, -, hne, hk, hcolor⟩ := (beside_iff hs).1 hy
  refine ⟨hcolor, ?_⟩
  rintro rfl
  exact hne (Option.some.inj (hk.symm.trans hi))

variable (hzone : (h.tables.zones.zone i).color ≠ none)
include hzone

/-- The cells beside one that made the round trip are in the slots that are known. -/
theorem Beside.returned (hs₂ : h₂.tables.Sound) {spare : Location} (hlive : ∀ y, h₂.live y = h.live y)
    (hz : h₂.tables.zones = h.tables.zones.roundTrip i spare l) (hy : h.Beside l y c k) :
    h₂.Beside l y c (h.tables.zones.returned i k) := by
  obtain ⟨hcolor, hki⟩ := hy.elsewhere hs hi
  obtain ⟨m, hm, hne, hk, -⟩ := (beside_iff hs).1 hy
  obtain ⟨hslot, hstays⟩ :=
    Zones.roundTrip_other hs.zones.ordered hzone (by simp [hcolor]) hki spare l
  refine (beside_iff hs₂).2 ⟨m, (hlive y).trans hm, hne, ?_, ?_⟩
  · rw [hz, hslot, hk]
  · rw [hz, hstays, hcolor]

/-- Cells beside of different colours keep their order. -/
theorem Beside.returned_lt_iff {y' : Value} {c' : Color} {j : Nat} (hy : h.Beside l y c j)
    (hy' : h.Beside l y' c' k) (hne : c ≠ c') :
    h.tables.zones.returned i j < h.tables.zones.returned i k ↔ j < k := by
  obtain ⟨hj, hji⟩ := hy.elsewhere hs hi
  obtain ⟨hk, hki⟩ := hy'.elsewhere hs hi
  refine Zones.returned_lt_iff hs.zones.ordered hzone (by simp [hj]) (by simp [hk]) hji hki ?_
  intro heq
  rw [heq] at hj
  exact hne (Option.some.inj (hj.symm.trans hk))

end Beside

/-- The cell that made the round trip is black. -/
theorem color_of_roundTrip (hord : h.tables.zones.Ordered) (hzone : (h.tables.zones.zone i).color ≠ none)
    (hs₂ : h₂.tables.Sound) {spare : Location} (hx : h₂.live x = .ok l)
    (hz : h₂.tables.zones = h.tables.zones.roundTrip i spare l) : h₂.color x = .ok .black := by
  obtain ⟨p, hp, hblack⟩ := Zones.roundTrip_self hord hzone spare l
  rw [← hz] at hp hblack
  obtain ⟨-, color, hcolor, hanswer⟩ := answers_of_slot hs₂ hx hp
  rw [hblack] at hcolor
  cases hcolor
  exact hanswer

/-- A cell that holds no handle refers to no cell. -/
theorem refs_of_no_handles {c : Cell} (hc : h.cell? l = some c) (hn : c.handles = []) : h.refs l = ∅ := by
  ext m
  constructor
  · rintro ⟨d, hd, handle, hmem, -⟩
    obtain rfl := Option.some.inj (hc.symm.trans hd)
    rw [hn] at hmem
    cases hmem
  · exact fun hm => absurd hm (Set.notMem_empty m)

end Heap

namespace Memory

/-- **After any run, a live cell that is no root and refers to no white cell can be taken back right after
it became a root. It is black then, and not counted. Every other live cell of the cons table has the
colour that it had, and the slot that `Zones.returned` says, which is another one only for cells at the
ends of zones. Cells of different colours, and cells that kept their slots, are in the order in which
they were.** -/
theorem unroot_undoes_root (id : UInt32) (sizing : Sizing) (ledger : Ledger) (moves : List Move) {x : Value}
    {l : Location} {r : Result} {m₁ : Memory} :
    let m := (start id sizing ledger).runs moves
    let z := m.heap.tables.zones
    m.heap.live x = .ok l → m.heap.coloring l ≠ some .root →
      (∀ k ∈ m.heap.refs l, m.heap.coloring k ≠ some .white) → (Operation.root x).run m = .ok r m₁ →
      ∃ i m₂, m.heap.slot x = .ok i ∧ (Operation.unroot x).run m₁ = .ok .done m₂ ∧
        m₂.heap.color x = .ok .black ∧ m₂.heap.rootCount x = .ok 0 ∧
        (∀ y c k, m.heap.Beside l y c k →
          m₂.heap.Beside l y c (z.returned i k) ∧ (z.returned i k = k ∨ z.IsEnd k)) ∧
        ∀ y₁ y₂ c₁ c₂ j k, m.heap.Beside l y₁ c₁ j → m.heap.Beside l y₂ c₂ k →
          (c₁ ≠ c₂ ∨ z.returned i j = j ∧ z.returned i k = k) →
          (z.returned i j < z.returned i k ↔ j < k) := by
  intro m z hx hunrooted hw hrun
  have hg : m.Good := good_runs id sizing ledger moves
  have hg₁ : m₁.Good := hg.of_run hrun
  have hlive := Heap.color_ne_none_of_live hx
  obtain ⟨tag, handle, rfl, -⟩ := Heap.live_eq_ok_iff.1 hx
  obtain ⟨c, hc⟩ := Tables.exists_cell hlive
  obtain ⟨hi, hzone, -⟩ := hg.sound.slot_of_live hc hlive hunrooted
  replace hzone : (z.zone c.slot).color ≠ none := by rwa [hzone]
  obtain ⟨⟨⟩, hact, -⟩ := exists_of_map_eq_ok hrun
  obtain ⟨h₁, hroot, rfl⟩ := exists_of_onHeap_eq_ok hact
  obtain ⟨h₂, spare, hok, hs₂, hcount, hlive₂, hz₂⟩ :=
    Heap.unroot_returns hg.sound hg.safe hg₁.safe hx hi hw hroot
  have hback : (Operation.unroot (.cons tag handle)).run ⟨h₁, m.ledger⟩ = .ok .done ⟨h₂, m.ledger⟩ :=
    map_ok (onHeap_ok hok)
  have hx₂ : h₂.live (.cons tag handle) = .ok l := (hlive₂ _).trans hx
  refine ⟨c.slot, ⟨h₂, m.ledger⟩, (Heap.answers_of_slot hg.sound hx hi).1, hback,
    Heap.color_of_roundTrip hg.sound.zones.ordered hzone hs₂ hx₂ hz₂, ?_, ?_, ?_⟩
  · obtain ⟨tag', handle', heq, hres₂⟩ := Heap.live_eq_ok_iff.1 hx₂
    cases heq
    rw [(hg₁.of_run hback).rootCount_eq tag hres₂, hcount]
  · intro y color k hy
    exact ⟨hy.returned hg.sound hi hzone hs₂ hlive₂ hz₂, z.returned_eq_or_isEnd c.slot k⟩
  · intro y₁ y₂ c₁ c₂ j k hy₁ hy₂ hkept
    rcases hkept with hcolors | ⟨hj, hk⟩
    · exact hy₁.returned_lt_iff hg.sound hi hzone hy₂ hcolors
    · rw [hj, hk]

/-- The moves that make three white cells without contents in a new heap. -/
def threeCells : List Move := List.replicate 3 (.operate (.cons .cons .nil .nil))

/-- One of these cells. -/
def cellOfThree (n : UInt32) : Value := .cons .cons ⟨0, ⟨0, n⟩, 1⟩

/-- When the first of three cells is grey, it makes room for the second, and the third stays behind it. -/
theorem grey_cell_makes_room :
    let m := (start 0 ⟨4, 2, none⟩ .empty).runs (threeCells ++ [.operate (.shade (cellOfThree 0))])
    ∃ r m₁ m₂, (Operation.root (cellOfThree 1)).run m = .ok r m₁ ∧
      (Operation.unroot (cellOfThree 1)).run m₁ = .ok .done m₂ ∧
      m₂.heap.color (cellOfThree 1) = .ok .black ∧
      m.heap.Beside ⟨0, 1⟩ (cellOfThree 0) .grey 0 ∧ m₂.heap.Beside ⟨0, 1⟩ (cellOfThree 0) .grey 1 ∧
      m.heap.Beside ⟨0, 1⟩ (cellOfThree 2) .white 2 ∧ m₂.heap.Beside ⟨0, 1⟩ (cellOfThree 2) .white 2 := by
  intro m
  have hx : m.heap.live (cellOfThree 1) = .ok ⟨0, 1⟩ := by decide +kernel
  have hunrooted : m.heap.coloring ⟨0, 1⟩ ≠ some .root := by decide +kernel
  have hw : ∀ k ∈ m.heap.refs ⟨0, 1⟩, m.heap.coloring k ≠ some .white := by
    have hhandles : (m.heap.cell? ⟨0, 1⟩).map Cell.handles = some [] := by decide +kernel
    obtain ⟨c, hc, hn⟩ := Option.map_eq_some_iff.1 hhandles
    rw [Heap.refs_of_no_handles hc hn]
    exact fun k hk => absurd hk (Set.notMem_empty k)
  have hfirst : m.heap.Beside ⟨0, 1⟩ (cellOfThree 0) .grey 0 :=
    ⟨by decide +kernel, by decide +kernel, by decide, by decide +kernel⟩
  have hthird : m.heap.Beside ⟨0, 1⟩ (cellOfThree 2) .white 2 :=
    ⟨by decide +kernel, by decide +kernel, by decide, by decide +kernel⟩
  have hanswers : Outcome.successes ((Operation.root (cellOfThree 1)).run m) = 1 := by decide +kernel
  cases hok : (Operation.root (cellOfThree 1)).run m with
  | error e m₁ =>
    rw [hok] at hanswers
    cases hanswers
  | ok r m₁ =>
    have hreturns := @unroot_undoes_root 0 ⟨4, 2, none⟩ .empty
      (threeCells ++ [.operate (.shade (cellOfThree 0))]) (cellOfThree 1) ⟨0, 1⟩ r m₁
    obtain ⟨i, m₂, hi, hback, hblack, -, hbeside, -⟩ := hreturns hx hunrooted hw hok
    have hslot : m.heap.slot (cellOfThree 1) = .ok 1 := by decide +kernel
    cases hi.symm.trans hslot
    have hone : m.heap.tables.zones.returned 1 0 = 1 := by decide +kernel
    have htwo : m.heap.tables.zones.returned 1 2 = 2 := by decide +kernel
    have hfirst₂ := (hbeside _ _ _ hfirst).1
    have hthird₂ := (hbeside _ _ _ hthird).1
    rw [hone] at hfirst₂
    rw [htwo] at hthird₂
    exact ⟨r, m₁, m₂, rfl, hback, hblack, hfirst, hfirst₂, hthird, hthird₂⟩

/-- The last of three white cells fills the place of the second, and the first makes room for it. So the
third is before the first in the end. -/
theorem white_cells_change_their_order :
    let m := (start 0 ⟨4, 2, none⟩ .empty).runs threeCells
    let r := (Operation.root (cellOfThree 1)).run m
    let u := (Operation.unroot (cellOfThree 1)).run (Outcome.state r)
    let m₂ := Outcome.state u
    m.heap.live (cellOfThree 1) = .ok ⟨0, 1⟩ ∧ m.heap.coloring ⟨0, 1⟩ = some .white ∧
      m.heap.refs ⟨0, 1⟩ = ∅ ∧ Outcome.successes r = 1 ∧ Outcome.successes u = 1 ∧
      m.heap.Beside ⟨0, 1⟩ (cellOfThree 0) .white 0 ∧ m.heap.Beside ⟨0, 1⟩ (cellOfThree 2) .white 2 ∧
      m₂.heap.Beside ⟨0, 1⟩ (cellOfThree 0) .white 2 ∧ m₂.heap.Beside ⟨0, 1⟩ (cellOfThree 2) .white 1 := by
  intro m r u m₂
  have hhandles : (m.heap.cell? ⟨0, 1⟩).map Cell.handles = some [] := by decide +kernel
  obtain ⟨c, hc, hn⟩ := Option.map_eq_some_iff.1 hhandles
  refine ⟨by decide +kernel, by decide +kernel, Heap.refs_of_no_handles hc hn, by decide +kernel,
    by decide +kernel, ⟨?_, ?_, ?_, ?_⟩, ⟨?_, ?_, ?_, ?_⟩, ⟨?_, ?_, ?_, ?_⟩, ⟨?_, ?_, ?_, ?_⟩⟩
  all_goals decide +kernel

end Memory

end ConsHeap
