import ConsHeap.Proofs.Alike.Tables
import ConsHeap.Proofs.Tables.Growth

/-!
# Growth of one of two tables

One of two alike tables grows. Each new cell has a position. If the other tables have a cell there already, it was
never used, and the two go together from now on.

* `Renaming.joined`: a renaming under which more locations of one heap go together.
* `Tables.Meets`: a new cell and the one that the other tables have at its position.
* `Tables.Alike.grown`: **tables stay alike when one of them grows.**
-/

namespace ConsHeap

variable {M : Renaming} {n : UInt32}

/-- More locations of heap `n` go together. -/
def Renaming.joined (M : Renaming) (n : UInt32) (R : Location → Location → Prop) : Renaming :=
  fun k l m => M k l m ∨ k = n ∧ R l m

theorem Renaming.grows_joined (M : Renaming) (n : UInt32) (R : Location → Location → Prop) :
    Renaming.Grows n M (M.joined n R) := by
  refine ⟨fun _ _ _ h => .inl h, fun k hk => ?_⟩
  funext l m
  simp [joined, hk]

namespace Tables

/-- Tables `t` get the cells of further slots and entries. A new cell meets the one that tables `w` have at its
position. -/
inductive Meets (t w : Tables) (slots : List Location) (entries : List RootEntry) : Location → Location → Prop where
  | slot {i : Nat} {l m : Location} : slots[i]? = some l → w.zones.slots[t.zones.capacity + i]? = some m →
    Meets t w slots entries l m
  | entry {i j k : Nat} {l m : Location} : entries[i]? = some ⟨l, j⟩ →
    w.roots.entries[t.roots.capacity + i]? = some ⟨m, k⟩ → Meets t w slots entries l m

variable {t u w : Tables} {slots : List Location} {entries : List RootEntry} {l m l' m' : Location}

namespace Meets

theorem untouched (hR : Meets t w slots entries l m) (h : t.Alike M n w) : w.storage.Untouched M.flip n m := by
  cases hR with
  | slot _ hm => exact h.right.slots (Nat.le_add_right _ _) hm
  | entry _ hf => exact h.right.entries (Nat.le_add_right _ _) hf

variable (hg : Grown t u slots entries)
include hg

theorem new (hR : Meets t w slots entries l m) : t.storage.get? l = none := by
  cases hR with
  | slot hl _ => exact (hg.new_slot hl).1
  | entry he _ => exact (hg.new_entry he).2.1

/-- A cell is met once, from either side. -/
theorem unique (hw : w.Sound) (hR : Meets t w slots entries l m) (hR' : Meets t w slots entries l' m') :
    l = l' ↔ m = m' := by
  cases hR with
  | @slot i l m hl hm =>
    cases hR' with
    | @slot j l' m' hl' hm' =>
      constructor
      · rintro rfl
        have hij : i = j := by
          have := ((hg.new_slot hl).2.unique (hg.new_slot hl').2).1
          omega
        subst hij
        exact Option.some.inj (hm.symm.trans hm')
      · rintro rfl
        have hij : i = j := by
          have := hw.zones.injective hm hm'
          omega
        subst hij
        exact Option.some.inj (hl.symm.trans hl')
    | entry he' =>
      -- only one of the two tables grows at a time
      rcases hg.apart with rfl | rfl
      · cases hl
      · cases he'
  | @entry i _ _ l m he hf =>
    cases hR' with
    | slot hl' =>
      rcases hg.apart with rfl | rfl
      · cases hl'
      · cases he
    | @entry j _ _ l' m' he' hf' =>
      constructor
      · rintro rfl
        have hij : i = j := by
          have := ((hg.new_entry he).2.2.unique (hg.new_entry he').2.2).1
          omega
        subst hij
        exact congrArg RootEntry.location (Option.some.inj (hf.symm.trans hf'))
      · rintro rfl
        have hij : i = j := by
          have := hw.roots.injective hf hf' rfl
          omega
        subst hij
        exact congrArg RootEntry.location (Option.some.inj (he.symm.trans he'))

/-- Both cells are as if they had just come in. -/
theorem alike (h : t.Alike M n w) (hw : w.Sound) (hR : Meets t w slots entries l m) (N : Renaming) :
    ∃ c d, u.storage.get? l = some c ∧ w.storage.get? m = some d ∧ c.Alike N d := by
  obtain ⟨hcontents, -⟩ := hR.untouched h
  obtain ⟨d, hd, hdcontents⟩ := Option.map_eq_some_iff.1 hcontents
  have hnew := hR.new hg
  obtain ⟨c, hc, hslot, hroot⟩ : ∃ c, u.storage.get? l = some c ∧ c.slot = d.slot ∧ c.isRoot = d.isRoot := by
    cases hR with
    | slot hl hm =>
      obtain ⟨c, hc, hslot, hroot⟩ := (hg.new_slot hl).2
      obtain ⟨d', hd', hslot', hroot'⟩ := hw.zones.records hm
      cases hd.symm.trans hd'
      exact ⟨c, hc, hslot.trans hslot'.symm, hroot.trans hroot'.symm⟩
    | entry he hf =>
      obtain ⟨c, hc, hslot, hroot⟩ := (hg.new_entry he).2.2
      obtain ⟨d', hd', hslot', hroot'⟩ := hw.roots.records hf
      cases hd.symm.trans hd'
      refine ⟨c, hc, hslot.trans hslot'.symm, hroot.trans ?_⟩
      -- both have as many live entries, so that this one is not live on the other side either
      rw [hroot', eq_comm, decide_eq_false_iff_not, ← h.live]
      have := h.live_le
      omega
  exact ⟨c, d, hc, hd, .unused (hg.named hnew hc).2 hdcontents hslot hroot⟩

end Meets

namespace Alike

/-- What goes together was there before the growth. -/
theorem ne_of_new (h : t.Alike M n w) (hnew : t.storage.get? l = none) (m : Location) : ¬ M n l m := by
  intro hM
  obtain ⟨c, -, hc, -⟩ := h.cell hM
  rw [hnew] at hc
  cases hc

/-- A cell that came in past the end of the other tables is met by none. -/
theorem grown_left (h : t.Alike M n w) (hg : Grown t u slots entries) :
    u.Past (M.joined n (Meets t w slots entries)) n w := by
  have hkept : ∀ {l}, t.storage.Untouched M n l → u.storage.Untouched (M.joined n (Meets t w slots entries)) n l := by
    intro l hl
    obtain ⟨hcontents, halone⟩ := hl
    obtain ⟨c, hc, hcc⟩ := Option.map_eq_some_iff.1 hcontents
    refine ⟨Option.map_eq_some_iff.2 ⟨c, hg.kept hc, hcc⟩, fun m hN => ?_⟩
    rcases hN with hM | ⟨-, hR⟩
    · exact halone m hM
    · rw [hR.new hg] at hc
      cases hc
  have hspare : ∀ {l i}, t.storage.get? l = none → u.storage.Records l i false →
      u.storage.contents? l = some (Cell.spare 0).contents := by
    rintro l i hnew ⟨c, hc, -⟩
    exact Option.map_eq_some_iff.2 ⟨c, hc, (hg.named hnew hc).2⟩
  constructor
  · intro k l hk hl
    rcases hg.slot_cases hl with hold | ⟨i, hi, rfl⟩
    · exact hkept (h.left.slots hk hold)
    · obtain ⟨hnew, hrec⟩ := hg.new_slot hi
      refine ⟨hspare hnew hrec, fun m hN => ?_⟩
      rcases hN with hM | ⟨-, hR⟩
      · exact h.ne_of_new hnew m hM
      · cases hR with
        | @slot j _ _ hl' hm =>
          have := (hrec.unique (hg.new_slot hl').2).1
          have := Zones.lt_capacity hm
          omega
        | entry he =>
          rcases hg.apart with rfl | rfl
          · cases hi
          · cases he
  · rintro k ⟨l, _⟩ hk he
    rcases hg.entry_cases he with hold | ⟨i, hi, rfl⟩
    · exact hkept (h.left.entries hk hold)
    · obtain ⟨-, hnew, hrec⟩ := hg.new_entry hi
      refine ⟨hspare hnew hrec, fun m hN => ?_⟩
      rcases hN with hM | ⟨-, hR⟩
      · exact h.ne_of_new hnew m hM
      · cases hR with
        | slot hl =>
          rcases hg.apart with rfl | rfl
          · cases hl
          · cases hi
        | @entry j _ _ _ _ he' hf =>
          have hij := (hrec.unique (hg.new_entry he').2.2).1
          have hlt : t.roots.capacity + j < w.roots.capacity := (Array.getElem?_eq_some_iff.1 hf).1
          omega

/-- A cell past the end of the tables that have grown is met by none, either. -/
theorem grown_right (h : t.Alike M n w) (hg : Grown t u slots entries) (hw : w.Sound) :
    w.Past (M.joined n (Meets t w slots entries)).flip n u := by
  constructor
  · intro k m hk hm
    rw [hg.capacity] at hk
    obtain ⟨hcontents, halone⟩ := h.right.slots (Nat.le_of_add_right_le hk) hm
    refine ⟨hcontents, fun l hN => ?_⟩
    rcases hN with hM | ⟨-, hR⟩
    · exact halone l hM
    · cases hR with
      | @slot i _ _ hl hm' =>
        have hki := hw.zones.injective hm hm'
        have hlt := (List.getElem?_eq_some_iff.1 hl).1
        omega
      | entry _ hf => exact hw.apart hf (Array.mem_iff_getElem?.2 ⟨k, hm⟩)
  · rintro k ⟨m, _⟩ hk hf
    rw [hg.roots_capacity] at hk
    obtain ⟨hcontents, halone⟩ := h.right.entries (Nat.le_of_add_right_le hk) hf
    refine ⟨hcontents, fun l hN => ?_⟩
    rcases hN with hM | ⟨-, hR⟩
    · exact halone l hM
    · cases hR with
      | slot _ hm => exact hw.apart hf (Array.mem_iff_getElem?.2 ⟨_, hm⟩)
      | @entry i _ _ _ _ he hf' =>
        have hki := hw.roots.injective hf hf' rfl
        have hlt := (List.getElem?_eq_some_iff.1 he).1
        omega

/-- Tables stay alike when one of them grows. -/
theorem grown (h : t.Alike M n w) (hg : Grown t u slots entries) (ht : t.Sound) (hw : w.Sound) :
    ∃ N, Renaming.Grows n M N ∧ u.Alike N n w := by
  refine ⟨M.joined n (Meets t w slots entries), Renaming.grows_joined M n _, ?_⟩
  have hle := (Renaming.grows_joined M n (Meets t w slots entries)).le
  refine ⟨?_, hg.live.trans h.live, (hg.sound ht).roots.live_le, h.live_le', ?_, ?_, ?_, ?_, h.grown_left hg,
    h.grown_right hg hw⟩
  · obtain ⟨hblack, hbegin, hgrey, hwhite⟩ := h.level
    rw [hg.zones]
    exact ⟨hblack, hbegin, hgrey, hwhite⟩
  · -- a new cell is none of those that went together before, on either side
    intro l m l' m' hN hN'
    rcases hN with hM | ⟨-, hR⟩
    · rcases hN' with hM' | ⟨-, hR'⟩
      · exact h.unique hM hM'
      · refine iff_of_false ?_ ?_
        · rintro rfl
          exact h.ne_of_new (hR'.new hg) _ hM
        · rintro rfl
          exact (hR'.untouched h).alone _ hM
    · rcases hN' with hM' | ⟨-, hR'⟩
      · refine iff_of_false ?_ ?_
        · rintro rfl
          exact h.ne_of_new (hR.new hg) _ hM'
        · rintro rfl
          exact (hR.untouched h).alone _ hM'
      · exact hR.unique hg hw hR'
  · intro l m hN
    rcases hN with hM | ⟨-, hR⟩
    · obtain ⟨c, d, hc, hd, hcd⟩ := h.cell hM
      exact ⟨c, d, hg.kept hc, hd, hcd.mono hle⟩
    · exact hR.alike hg h hw _
  · intro k l m hl hm
    rcases hg.slot_cases hl with hl | ⟨i, hi, rfl⟩
    · exact .inl (h.slot hl hm)
    · exact .inr ⟨rfl, .slot hi hm⟩
  · rintro k ⟨l, j⟩ ⟨m, j'⟩ he hf
    rcases hg.entry_cases he with he | ⟨i, hi, rfl⟩
    · obtain ⟨hM, hcount⟩ := h.entry he hf
      exact ⟨.inl hM, hcount⟩
    · refine ⟨.inr ⟨rfl, .entry hi hf⟩, ?_⟩
      -- neither entry is live
      have hnew := (hg.new_entry hi).1
      have hcounted := hw.roots.counted hf
      have hlive := h.live
      have hle := h.live_le
      simp only at hnew hcounted ⊢
      omega

end Alike

end Tables

end ConsHeap
