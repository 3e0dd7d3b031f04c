import ConsHeap.Heap.Cycle
import ConsHeap.Proofs.Alike.Moves

/-!
# Heaps that differ in size

Two heaps are alike when their tables are. They answer the same to whatever does not ask for a size, and what changes
no size does the same to both.

* `Heap.Alike`: the relation.
* `Heap.Alike.resolve`, `Heap.Alike.liveCell`, `Heap.Alike.accepts`: handles that go together.
* `Heap.Alike.child`, `Heap.Alike.color`, `Heap.Alike.slot`, `Heap.Alike.rootCount`, `Heap.Alike.occupancy`: what can
  be asked.
* `Heap.Alike.shadeContents`, `Heap.Alike.scan`, `Heap.Alike.sweep`, `Heap.Alike.collect`: **the collection cycle goes
  the same way.**
-/

namespace ConsHeap

variable {M N : Renaming} {n : UInt32} {α β : Type}

/-- The same numbers of cells in all zones but the free tail, and the same number of roots. -/
structure Occupancy.Alike (o p : Occupancy) : Prop where
  black : o.black = p.black
  gap : o.gap = p.gap
  grey : o.grey = p.grey
  white : o.white = p.white
  roots : o.roots = p.roots

namespace Heap

/-- The heap of identity `n` in two hosts. -/
structure Alike (M : Renaming) (n : UInt32) (h g : Heap) : Prop where
  id : h.id = n
  id' : g.id = n
  kinds : h.kinds = g.kinds
  tables : h.tables.Alike M n g.tables

/-- Two actions on heap `n` agree: the heaps stay alike, and `Q` holds of the answers. -/
abbrev Agrees (M : Renaming) (n : UInt32) (Q : α → β → Prop) (r : EStateM.Result (Failure HeapError) Heap α)
    (r' : EStateM.Result (Failure HeapError) Heap β) : Prop :=
  Agree HeapError.Starved (Heap.Alike M n) (fun a h b g => h.Alike M n g ∧ Q a b) r r'

namespace Alike

variable {h g : Heap} {k k' : Handle} {l m : Location} {v w : Value}

theorem symm (hh : h.Alike M n g) : g.Alike M.flip n h := ⟨hh.id', hh.id, hh.kinds.symm, hh.tables.symm⟩

/-- Heaps in which nothing is allocated are alike. -/
theorem new (hnone : ∀ l m, ¬ M n l m) (sizing sizing' : Sizing) :
    (Heap.new n sizing).Alike M n (Heap.new n sizing') where
  id := rfl
  id' := rfl
  kinds := rfl
  tables :=
    { level := ⟨rfl, rfl, rfl, rfl⟩
      live := rfl
      live_le := Nat.le_refl 0
      live_le' := Nat.le_refl 0
      unique := fun hM => absurd hM (hnone _ _)
      cell := fun hM => absurd hM (hnone _ _)
      slot := fun hl => absurd hl (by simp [Heap.new, Tables.ofLimit, Zones.empty])
      entry := fun he => absurd he (by simp [Heap.new, Tables.ofLimit, Roots.empty])
      left := ⟨fun _ hl => absurd hl (by simp [Heap.new, Tables.ofLimit, Zones.empty]),
        fun _ he => absurd he (by simp [Heap.new, Tables.ofLimit, Roots.empty])⟩
      right := ⟨fun _ hl => absurd hl (by simp [Heap.new, Tables.ofLimit, Zones.empty]),
        fun _ he => absurd he (by simp [Heap.new, Tables.ofLimit, Roots.empty])⟩ }

/-- More cells may go together in other heaps. -/
theorem mono (hh : h.Alike M n g) (hle : M.Le N) (hsame : N n = M n) : h.Alike N n g :=
  ⟨hh.id, hh.id', hh.kinds, hh.tables.mono hle hsame⟩

/-- What memory the system gives does not matter. -/
theorem supplied (hh : h.Alike M n g) (supply supply' : Paging.Supply) :
    (h.supplied supply).Alike M n (g.supplied supply') := by
  obtain ⟨hid, hid', hkinds, ht⟩ := hh
  exact ⟨hid, hid', hkinds, ht.level, ht.live, ht.live_le, ht.live_le', ht.unique, ht.cell, ht.slot, ht.entry,
    ⟨fun hi hl => ⟨(ht.left.slots hi hl).contents, (ht.left.slots hi hl).alone⟩,
      fun hi he => ⟨(ht.left.entries hi he).contents, (ht.left.entries hi he).alone⟩⟩,
    ⟨fun hi hl => ⟨(ht.right.slots hi hl).contents, (ht.right.slots hi hl).alone⟩,
      fun hi he => ⟨(ht.right.entries hi he).contents, (ht.right.entries hi he).alone⟩⟩⟩

/-! ## Handles -/

/-- Handles that go together resolve to cells that do, or neither resolves. -/
theorem resolve (hh : h.Alike M n g) (hk : k.Alike M k') :
    (h.resolve k = none ∧ g.resolve k' = none) ∨
      ∃ l m, h.resolve k = some l ∧ g.resolve k' = some m ∧ M n l m := by
  obtain ⟨hheap, hgen, hloc⟩ := hk
  by_cases hid : k.heap = n
  · rw [hid] at hloc
    obtain ⟨c, d, hc, hd, hcd⟩ := hh.tables.cell hloc
    have hcolor := hh.tables.color? hloc
    simp only [Heap.resolve, Heap.cell?, hc, hd, ← hheap, hh.id, hh.id', hid, hcd.generation, hgen, hcolor]
    split
    · exact .inr ⟨_, _, rfl, rfl, hloc⟩
    · exact .inl ⟨rfl, rfl⟩
  · have hnone : ∀ (f : Heap) (j : Handle), j.heap ≠ f.id → f.resolve j = none := by
      intro f j hj
      cases hr : f.resolve j with
      | none => rfl
      | some l => exact absurd (resolve_eq_some_iff.1 hr).1 hj
    exact .inl ⟨hnone h k (by rw [hh.id]; exact hid), hnone g k' (by rw [hh.id', ← hheap]; exact hid)⟩

theorem accepts (hh : h.Alike M n g) (hv : v.Alike M w) : h.accepts v = g.accepts w := by
  have hall : ∀ {ks ks' : List Handle}, List.Forall₂ (Handle.Alike M) ks ks' →
      ks.all (fun k => (h.resolve k).isSome) = ks'.all (fun k => (g.resolve k).isSome) := by
    intro ks ks' hks
    induction hks with
    | nil => rfl
    | cons hk _ ih =>
      rw [List.all_cons, List.all_cons, ih]
      rcases hh.resolve hk with ⟨hr, hr'⟩ | ⟨l, m, hr, hr', -⟩
      · rw [hr, hr']
      · rw [hr, hr', Option.isSome, Option.isSome]
  exact hall hv.handles

theorem live (hh : h.Alike M n g) (hv : v.Alike M w) : Answers (M n) (h.live v) (g.live w) := by
  rcases hv.cases with ⟨rfl, hatom⟩ | ⟨header, b, c, rfl, rfl, -⟩ | ⟨tag, k, k', rfl, rfl, hk⟩
  · cases v with
    | cons tag k => cases hatom
    | _ => exact .error _
  · exact .error _
  · simp only [Heap.live, Value.handle?]
    rcases hh.resolve hk with ⟨hr, hr'⟩ | ⟨l, m, hr, hr', hlm⟩ <;> rw [hr, hr']
    · exact .error _
    · exact .ok hlm

theorem liveCell (hh : h.Alike M n g) (hv : v.Alike M w) :
    Answers (fun p q => M n p.1 q.1 ∧ p.2.Alike M q.2) (h.liveCell v) (g.liveCell w) := by
  refine (hh.live hv).bind fun l m hlm => ?_
  obtain ⟨c, d, hc, hd, hcd⟩ := hh.tables.cell hlm
  simp only [Heap.cell?, hc, hd]
  exact .ok ⟨hlm, hcd⟩

/-! ## Questions -/

theorem child (hh : h.Alike M n g) (hv : v.Alike M w) (side : Side) :
    Answers (Value.Alike M) (h.child side v) (g.child side w) :=
  (hh.liveCell hv).bind fun _ _ hcd => .ok (hcd.2.child side)

theorem slot (hh : h.Alike M n g) (hv : v.Alike M w) : Answers Eq (h.slot v) (g.slot w) :=
  (hh.liveCell hv).bind fun _ _ hcd => .ok hcd.2.slot

theorem color (hh : h.Alike M n g) (hv : v.Alike M w) : Answers Eq (h.color v) (g.color w) := by
  refine (hh.live hv).bind fun l m hlm => ?_
  rw [hh.tables.color? hlm]
  cases g.tables.color? m with
  | none => exact .error _
  | some c => exact .ok rfl

theorem rootCount (hh : h.Alike M n g) (hv : v.Alike M w) : UnlessFault Eq (h.rootCount v) (g.rootCount w) := by
  have hcell := hh.liveCell hv
  simp only [Heap.rootCount]
  cases hl : h.liveCell v with
  | error e =>
    rw [hl] at hcell
    generalize g.liveCell w = y at hcell ⊢
    cases hcell
    exact rfl
  | ok p =>
    rw [hl] at hcell
    generalize g.liveCell w = y at hcell ⊢
    cases hcell with
    | @ok _ q hpq =>
      obtain ⟨l, c⟩ := p
      obtain ⟨m, d⟩ := q
      obtain ⟨-, hcd⟩ := hpq
      simp only [hcd.isRoot, hcd.slot]
      split
      · cases he : h.tables.roots.entries[d.slot]? with
        | none => exact trivial
        | some e =>
          cases hf : g.tables.roots.entries[d.slot]? with
          | none => exact trivial
          | some f => exact (hh.tables.entry he hf).2
      · exact rfl

theorem occupancy (hh : h.Alike M n g) : UnlessFault Occupancy.Alike h.occupancy g.occupancy := by
  obtain ⟨hblack, hbegin, hgrey, hwhite⟩ := hh.tables.level
  simp only [Heap.occupancy, hblack, hbegin, hgrey, hwhite]
  refine (UnlessFault.refl _).bind ?_
  rintro gap _ rfl
  refine (UnlessFault.refl _).bind ?_
  rintro grey _ rfl
  refine (UnlessFault.refl _).bind ?_
  rintro white _ rfl
  -- the free tails may differ
  refine (UnlessFault.any _ _).bind ?_
  rintro free free' -
  exact ⟨rfl, rfl, rfl, rfl, hh.tables.live⟩

theorem isScanned (hh : h.Alike M n g) : h.isScanned = g.isScanned := by
  rw [Heap.isScanned, Heap.isScanned, hh.tables.level.hasGrey]

/-! ## Actions -/

theorem onTables {Q : α → β → Prop} {act : TablesM α} {act' : TablesM β} (hh : h.Alike M n g)
    (hact : Tables.Agrees M n Q (act h.tables) (act' g.tables)) :
    Heap.Agrees M n Q (Heap.onTables act h) (Heap.onTables act' g) := by
  obtain ⟨id, sizing, kinds, t⟩ := h
  obtain ⟨id', sizing', kinds', u⟩ := g
  obtain ⟨hid, hid', hkinds, -⟩ := hh
  simp only at hact
  simp only [Heap.onTables]
  cases ht : act t <;> cases hu : act' u <;> rw [ht, hu] at hact
  · exact ⟨⟨hid, hid', hkinds, hact.1⟩, hact.2⟩
  · exact hact
  · exact hact
  · exact hact.imp_right fun hr => hr.imp_right fun ⟨heq, hs⟩ => ⟨heq, hid, hid', hkinds, hs⟩

theorem cellAt (hh : h.Alike M n g) (hlm : M n l m) :
    Heap.Agrees M n (Cell.Alike M) (Heap.onTables (Tables.cellAt l) h) (Heap.onTables (Tables.cellAt m) g) := by
  refine hh.onTables ((hh.tables.cellAt hlm).mono ?_)
  rintro c _ d _ ⟨⟨rfl, rfl⟩, hcd⟩
  exact ⟨hh.tables, hcd⟩

theorem slotAt (hh : h.Alike M n g) (i : Nat) :
    Heap.Agrees M n (M n) (Heap.onTables (Tables.slotAt i) h) (Heap.onTables (Tables.slotAt i) g) := by
  refine hh.onTables ((hh.tables.slotAt i).mono ?_)
  rintro l _ m _ ⟨⟨rfl, rfl⟩, hlm, -⟩
  exact ⟨hh.tables, hlm⟩

/-- Entries are read at the same place, or not at all on one side. -/
theorem entryAt {S : Heap → Heap → Prop} (hh : h.Alike M n g) (i : Nat) :
    Agree HeapError.Starved S (fun e h' f g' => (h' = h ∧ g' = g) ∧ e.count = f.count)
      (Heap.onTables (Tables.entryAt i) h) (Heap.onTables (Tables.entryAt i) g) := by
  obtain ⟨id, sizing, kinds, t⟩ := h
  obtain ⟨id', sizing', kinds', u⟩ := g
  simp only [Heap.onTables, Tables.entryAt, bind_get]
  cases he : t.roots.entries[i]? with
  | none => exact .fault_left ..
  | some e =>
    cases hf : u.roots.entries[i]? with
    | none => exact .fault_right ..
    | some f => exact ⟨⟨rfl, rfl⟩, (hh.tables.entry he hf).2⟩

theorem place (hh : h.Alike M n g) (hlm : M n l m) (i : Nat) (isRoot : Bool) :
    Heap.Agrees M n Eq (Heap.onTables (Tables.place l i isRoot) h) (Heap.onTables (Tables.place m i isRoot) g) :=
  hh.onTables ((hh.tables.place hlm i isRoot).mono fun _ _ _ _ ht => ⟨ht.1, rfl⟩)

/-- Kinds are registered in the same way. -/
theorem register (hh : h.Alike M n g) (tag : Tag) (kind : Kind) :
    Heap.Agrees M n Eq (Heap.register tag kind h) (Heap.register tag kind g) := by
  simp only [Heap.register, bind_get, hh.kinds]
  refine ((Answers.refl _).agree hh).bind ?_
  rintro kinds _ _ _ ⟨⟨rfl, rfl⟩, rfl⟩
  exact ⟨⟨hh.id, hh.id', rfl, hh.tables⟩, rfl⟩

/-! ## Shading -/

theorem shade (hh : h.Alike M n g) (hlm : M n l m) : Heap.Agrees M n Eq (Heap.shade l h) (Heap.shade m g) := by
  simp only [Heap.shade, bind_get, hh.tables.color? hlm]
  split
  · refine (hh.cellAt hlm).bind ?_
    rintro c h' d g' ⟨hh', hcd⟩
    rw [hcd.slot]
    exact hh'.onTables (hh'.tables.shade _)
  · exact ⟨hh, rfl⟩

theorem shadeHandles {ks ks' : List Handle} (hh : h.Alike M n g) (hks : List.Forall₂ (Handle.Alike M) ks ks') :
    Heap.Agrees M n Eq (Heap.shadeHandles ks h) (Heap.shadeHandles ks' g) := by
  refine (Agree.forM (I := Heap.Alike M n) (fun k k' h g hk hh => ?_) hks hh).mono fun _ _ _ _ hh' => ⟨hh', rfl⟩
  simp only [bind_get]
  rcases hh.resolve hk with ⟨hr, hr'⟩ | ⟨l, m, hr, hr', hlm⟩ <;> rw [hr, hr']
  · exact hh
  · exact (hh.shade hlm).mono fun _ _ _ _ hh' => hh'.1

theorem shadeContents (hh : h.Alike M n g) (hlm : M n l m) :
    Heap.Agrees M n Eq (Heap.shadeContents l h) (Heap.shadeContents m g) := by
  refine (hh.cellAt hlm).bind ?_
  rintro c h' d g' ⟨hh', hcd⟩
  exact hh'.shadeHandles hcd.handles

theorem barrier (hh : h.Alike M n g) (hlm : M n l m) (hv : v.Alike M w) :
    Heap.Agrees M n Eq (Heap.barrier l v h) (Heap.barrier m w g) := by
  simp only [Heap.barrier, bind_get, hh.tables.color? hlm]
  cases g.tables.color? m with
  | none => exact ⟨hh, rfl⟩
  | some c =>
    cases c with
    | root | black => exact hh.shadeHandles hv.handles
    | grey | white => exact ⟨hh, rfl⟩

theorem shadeValue (hh : h.Alike M n g) (hv : v.Alike M w) :
    Heap.Agrees M n Eq (Heap.shadeValue v h) (Heap.shadeValue w g) := by
  simp only [Heap.shadeValue, bind_get]
  refine ((hh.live hv).agree hh).bind ?_
  rintro l _ m _ ⟨⟨rfl, rfl⟩, hlm⟩
  exact hh.shade hlm

/-! ## The cycle -/

theorem scanFrom (budget : Nat) : ∀ {h g : Heap} (done : Nat), h.Alike M n g →
    Heap.Agrees M n Eq (Heap.scanFrom done budget h) (Heap.scanFrom done budget g) := by
  induction budget with
  | zero => exact fun done hh => ⟨hh, rfl⟩
  | succ budget ih =>
    intro h g done hh
    refine (hh.onTables hh.tables.blacken).bind ?_
    rintro a h' b g' ⟨hh', hab⟩
    cases hab with
    | none => exact ⟨hh', rfl⟩
    | some hlm =>
      refine (hh'.shadeContents hlm).bind ?_
      rintro _ h'' _ g'' ⟨hh'', -⟩
      exact ih (done + 1) hh''

theorem scan (hh : h.Alike M n g) (budget : Nat) : Heap.Agrees M n Eq (Heap.scan budget h) (Heap.scan budget g) :=
  scanFrom budget 0 hh

/-- Both heaps have their roots at the same places. -/
theorem roots (hh : h.Alike M n g) :
    List.Forall₂ (M n) h.tables.roots.locations g.tables.roots.locations := by
  have hlength : ∀ {t : Tables}, t.roots.live ≤ t.roots.capacity → t.roots.locations.length = t.roots.live := by
    intro t hle
    rw [Roots.locations, List.length_map, List.length_take, Array.length_toList]
    exact Nat.min_eq_left hle
  rw [List.forall₂_iff_get]
  refine ⟨?_, fun i hi hi' => ?_⟩
  · rw [hlength hh.tables.live_le, hlength hh.tables.live_le', hh.tables.live]
  · simp only [Roots.locations, List.get_eq_getElem, List.getElem_map, List.getElem_take, Array.getElem_toList]
    exact (hh.tables.entry (Array.getElem?_eq_getElem _) (Array.getElem?_eq_getElem _)).1

theorem startCycle (hh : h.Alike M n g) : Heap.Agrees M n Eq (Heap.startCycle h) (Heap.startCycle g) := by
  simp only [Heap.startCycle, bind_get]
  refine (Agree.forM (I := Heap.Alike M n) (fun l m h g hlm hh => ?_) hh.roots hh).mono fun _ _ _ _ hh' => ⟨hh', rfl⟩
  exact (hh.shadeContents hlm).mono fun _ _ _ _ hh' => hh'.1

theorem sweep (hh : h.Alike M n g) : Heap.Agrees M n Eq (Heap.sweep h) (Heap.sweep g) := by
  simp only [Heap.sweep, bind_get, hh.isScanned]
  split
  · refine (hh.onTables hh.tables.reclaim).bind ?_
    rintro count h₁ _ g₁ ⟨hh₁, rfl⟩
    refine (hh₁.onTables hh₁.tables.whiten).bind ?_
    rintro _ h₂ _ g₂ ⟨hh₂, -⟩
    refine hh₂.startCycle.bind ?_
    rintro _ h₃ _ g₃ ⟨hh₃, -⟩
    exact ⟨hh₃, rfl⟩
  · exact (Agree.refuse _ hh).bind (P := fun _ _ _ _ => False) fun _ _ _ _ hf => hf.elim

theorem collect (hh : h.Alike M n g) : Heap.Agrees M n Eq (Heap.collect h) (Heap.collect g) := by
  refine (hh.scan wholeHeap).bind ?_
  rintro _ h' _ g' ⟨hh', -⟩
  exact hh'.sweep

end Alike

end Heap

end ConsHeap
