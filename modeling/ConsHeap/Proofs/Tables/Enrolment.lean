import ConsHeap.Proofs.Tables.Transfer

/-!
# Roots that come and go

A cell comes into the root table for a spare cell, and leaves it for one. Nothing here is about the
heap around the table: the live entries are counted, every entry names a cell that records it, and that
is all. Spare entries may have any count, and the cells that the table does not name may record anything.

* `Roots.Names`, `Roots.Counts`, `Roots.Replaced`: the cells that occur in the table, those that are roots
  with their counts, and one cell in the place of another.
* `Tables.RootsIndexed`: the condition.
* `Tables.Displaced`: every entry but one has gone to another index, with its cell and its count.
* `Tables.Displaced.write`, `Tables.Displaced.indexed`: the one entry is written, and the table is indexed.
* `Tables.enrol_replaces`: a cell comes in.
* `Tables.decrease_to_zero`, `Tables.Dismissed`, `Tables.park_replaces`: a root is counted down, leaves the live
  entries, and then the table. In between it is still marked as a root, in a spare entry.
* `Tables.increase_counts`: a root gets one count more.
* `Tables.exchanges_keep_other_roots`: **each exchange succeeds, leaves the table indexed, adds or removes
  its subject and no other root, lets all others keep their counts, and hands back the cell that no longer
  occurs in the table.**
-/

namespace ConsHeap

namespace Roots

/-- An entry names the cell. -/
def Names (r : Roots) (l : Location) : Prop := ∃ (i n : Nat), r.entries[i]? = some ⟨l, n⟩

/-- A live entry names the cell, with this count. -/
def Counts (r : Roots) (l : Location) (n : Nat) : Prop := ∃ i : Nat, i < r.live ∧ r.entries[i]? = some ⟨l, n⟩

/-- Of all cells only `outgoing` occurs no longer, and only `incoming` did not occur before. -/
structure Replaced (r r' : Roots) (outgoing incoming : Location) : Prop where
  gone : ∀ x, r.Names x ∧ ¬r'.Names x ↔ x = outgoing
  new : ∀ x, r'.Names x ∧ ¬r.Names x ↔ x = incoming

end Roots

namespace Tables

variable {t u w : Tables} {i j k n : Nat} {l m x : Location} {e : RootEntry} {goes : Equiv.Perm Nat}

/-- Every live index has a counted entry, and every entry names a cell that records it, as a root just
if it is live. -/
structure RootsIndexed (t : Tables) : Prop where
  counted : ∀ {i : Nat}, i < t.roots.live → ∃ e, t.roots.entries[i]? = some e ∧ 0 < e.count
  records : ∀ {i : Nat} {e : RootEntry}, t.roots.entries[i]? = some e →
    t.storage.Records e.location i (decide (i < t.roots.live))

namespace RootsIndexed

/-- No cell is named by two entries. -/
theorem injective {d : RootEntry} (h : t.RootsIndexed) (hi : t.roots.entries[i]? = some e)
    (hj : t.roots.entries[j]? = some d) (hl : e.location = d.location) : i = j :=
  ((h.records hi).unique (hl ▸ h.records hj)).1

theorem live_le (h : t.RootsIndexed) : t.roots.live ≤ t.roots.entries.size := by
  by_contra hlt
  obtain ⟨e, he, -⟩ := h.counted (Nat.lt_of_not_le hlt)
  exact Nat.lt_irrefl _ (Array.getElem?_eq_some_iff.1 he).1

/-- A table that is not full has a spare entry after the live ones. -/
theorem exists_spare (h : t.RootsIndexed) (hfull : t.roots.isFull = false) :
    ∃ e, t.roots.entries[t.roots.live]? = some e := by
  have hle := h.live_le
  simp only [Roots.isFull, Roots.capacity, beq_eq_false_iff_ne] at hfull
  exact ⟨_, Array.getElem?_eq_getElem (Nat.lt_of_le_of_ne hle hfull)⟩

/-- A spare cell is not counted. -/
theorem ne_of_counts (h : t.RootsIndexed) (hi : t.roots.entries[i]? = some e) (hspare : t.roots.live ≤ i)
    (hx : t.roots.Counts x n) : x ≠ e.location := by
  obtain ⟨j, hj, hjx⟩ := hx
  intro heq
  exact absurd (h.injective hjx hi heq) (Nat.ne_of_lt (Nat.lt_of_lt_of_le hj hspare))

end RootsIndexed

/-! ## All entries but one -/

/-- The entries other than `k` have gone where `goes` says, each with its cell and its count, and their
cells record it. -/
structure Displaced (t u : Tables) (goes : Equiv.Perm Nat) (k : Nat) : Prop where
  entries : ∀ j : Nat, j ≠ k → u.roots.entries[goes j]? = t.roots.entries[j]?
  live : ∀ j : Nat, j ≠ k → (goes j < u.roots.live ↔ j < t.roots.live)
  records : ∀ {j : Nat} {e : RootEntry}, j ≠ k → t.roots.entries[j]? = some e →
    u.storage.Records e.location (goes j) (decide (j < t.roots.live))

theorem RootsIndexed.displaced (h : t.RootsIndexed) (k : Nat) : Displaced t t (Equiv.refl Nat) k :=
  ⟨fun _ _ => rfl, fun _ _ => Iff.rfl, fun _ he => h.records he⟩

namespace Displaced

variable (hd : Displaced t u goes k)
include hd

/-- Another entry is written in the place of the one, and the cells of the others are left alone. -/
theorem write (hu : w.roots.entries = u.roots.entries.setIfInBounds (goes k) e)
    (hlive : ∀ j : Nat, j ≠ goes k → (j < w.roots.live ↔ j < u.roots.live))
    (hcells : ∀ {j : Nat} {d : RootEntry}, j ≠ k → t.roots.entries[j]? = some d →
      w.storage.get? d.location = u.storage.get? d.location) : Displaced t w goes k where
  entries := by
    intro j hj
    rw [hu, Array.getElem?_setIfInBounds, if_neg (goes.injective.ne hj.symm), hd.entries j hj]
  live := by
    intro j hj
    rw [hlive _ (goes.injective.ne hj), hd.live j hj]
  records := by
    intro j d hj hjd
    exact (hd.records hj hjd).congr (hcells hj hjd)

/-- The table is indexed again when the one entry is in order. -/
theorem indexed (h : t.RootsIndexed) (he : u.roots.entries[goes k]? = some e)
    (hrec : u.storage.Records e.location (goes k) (decide (goes k < u.roots.live)))
    (hcount : goes k < u.roots.live → 0 < e.count) : u.RootsIndexed := by
  constructor
  · intro p hp
    obtain ⟨j, rfl⟩ := goes.surjective p
    rcases eq_or_ne j k with rfl | hj
    · exact ⟨e, he, hcount hp⟩
    · rw [hd.entries j hj]
      exact h.counted ((hd.live j hj).1 hp)
  · intro p d hp
    obtain ⟨j, rfl⟩ := goes.surjective p
    rcases eq_or_ne j k with rfl | hj
    · obtain rfl := Option.some.inj (he.symm.trans hp)
      exact hrec
    · rw [decide_eq_decide.2 (hd.live j hj)]
      exact hd.records hj ((hd.entries j hj).symm.trans hp)

/-- The cells that occur are those that did, but for what the one entry names. -/
theorem names_iff (h : t.RootsIndexed) (hk : t.roots.entries[k]? = some e)
    (he : u.roots.entries[goes k]? = some ⟨m, n⟩) :
    u.roots.Names x ↔ x = m ∨ x ≠ e.location ∧ t.roots.Names x := by
  constructor
  · rintro ⟨p, c, hp⟩
    obtain ⟨j, rfl⟩ := goes.surjective p
    rcases eq_or_ne j k with rfl | hj
    · exact .inl (congrArg RootEntry.location (Option.some.inj (hp.symm.trans he)))
    · have hj' := (hd.entries j hj).symm.trans hp
      exact .inr ⟨fun heq => hj (h.injective hj' hk heq), j, c, hj'⟩
  · rintro (rfl | ⟨hne, j, c, hj⟩)
    · exact ⟨goes k, n, he⟩
    · have hjk : j ≠ k := by
        rintro rfl
        exact hne (congrArg RootEntry.location (Option.some.inj (hj.symm.trans hk)))
      exact ⟨goes j, c, (hd.entries j hjk).trans hj⟩

/-- The roots and their counts are what they were, but for what the one entry counts. -/
theorem counts_iff (h : t.RootsIndexed) (hk : t.roots.entries[k]? = some e)
    (he : u.roots.entries[goes k]? = some ⟨m, n⟩) {c : Nat} :
    u.roots.Counts x c ↔
      (x = m ∧ c = n) ∧ goes k < u.roots.live ∨ x ≠ e.location ∧ t.roots.Counts x c := by
  constructor
  · rintro ⟨p, hlive, hp⟩
    obtain ⟨j, rfl⟩ := goes.surjective p
    rcases eq_or_ne j k with rfl | hj
    · obtain ⟨rfl, rfl⟩ := RootEntry.mk.inj (Option.some.inj (hp.symm.trans he))
      exact .inl ⟨⟨rfl, rfl⟩, hlive⟩
    · have hj' := (hd.entries j hj).symm.trans hp
      exact .inr ⟨fun heq => hj (h.injective hj' hk heq), j, (hd.live j hj).1 hlive, hj'⟩
  · rintro (⟨⟨rfl, rfl⟩, hlive⟩ | ⟨hne, j, hlive, hj⟩)
    · exact ⟨goes k, hlive, he⟩
    · have hjk : j ≠ k := by
        rintro rfl
        exact hne (congrArg RootEntry.location (Option.some.inj (hj.symm.trans hk)))
      exact ⟨goes j, (hd.live j hjk).2 hlive, (hd.entries j hjk).trans hj⟩

/-- A cell from outside has come for the cell that the one entry named. -/
theorem replaced (h : t.RootsIndexed) (hk : t.roots.entries[k]? = some e)
    (he : u.roots.entries[goes k]? = some ⟨m, n⟩) (hm : ¬t.roots.Names m) :
    t.roots.Replaced u.roots e.location m := by
  have hnames : t.roots.Names e.location := ⟨k, e.count, hk⟩
  have hne : e.location ≠ m := by
    rintro rfl
    exact hm hnames
  constructor
  · intro x
    rw [hd.names_iff h hk he]
    constructor
    · rintro ⟨hx, hgone⟩
      by_contra hxe
      exact hgone (.inr ⟨hxe, hx⟩)
    · rintro rfl
      exact ⟨hnames, fun hx => hx.elim hne fun hx => hx.1 rfl⟩
  · intro x
    rw [hd.names_iff h hk he]
    constructor
    · rintro ⟨rfl | hx, hnew⟩
      · rfl
      · exact absurd hx.2 hnew
    · rintro rfl
      exact ⟨.inl rfl, hm⟩

end Displaced

/-! ## Into the table -/

/-- A cell from outside becomes a root, and the spare cell whose entry it takes is handed back. -/
theorem enrol_replaces (h : t.RootsIndexed) (hfull : t.roots.isFull = false) (hl : t.storage.contains l)
    (hout : ¬t.roots.Names l) :
    ∃ spare u, enrol l t = .ok spare u ∧ u.RootsIndexed ∧ t.roots.Replaced u.roots spare l ∧
      ∀ x c, u.roots.Counts x c ↔ x = l ∧ c = 1 ∨ t.roots.Counts x c := by
  obtain ⟨e, he⟩ := h.exists_spare hfull
  obtain ⟨c, hc⟩ := Option.isSome_iff_exists.1 hl
  have hmax := (h.records he).le_maxSlot
  have hspare : ∀ {x n}, t.roots.Counts x n → x ≠ e.location := h.ne_of_counts he (Nat.le_refl _)
  obtain ⟨s, z, r⟩ := t
  simp only at he hc
  have hentry : (r.entries.setIfInBounds r.live ⟨l, 1⟩)[r.live]? = some ⟨l, 1⟩ :=
    getElem?_written he _
  have hlive : ∀ j : Nat, j ≠ r.live → (j < r.live + 1 ↔ j < r.live) := by
    intro j hj
    omega
  have hcells : ∀ {j : Nat} {d : RootEntry}, j ≠ r.live → r.entries[j]? = some d →
      (s.set l (c.place r.live true)).get? d.location = s.get? d.location := by
    intro j d _ hjd
    refine Storage.get?_set_of_ne ?_ _
    rintro rfl
    exact hout ⟨j, d.count, hjd⟩
  have hd := (h.displaced r.live).write
    (w := ⟨s.set l (c.place r.live true), z, ⟨r.entries.setIfInBounds r.live ⟨l, 1⟩, r.live + 1⟩⟩) rfl hlive hcells
  refine ⟨e.location, _, enrol_ok hfull he hc hmax, ?_, hd.replaced h he hentry hout, ?_⟩
  · refine hd.indexed h hentry ?_ fun _ => Nat.one_pos
    simp only [Equiv.refl_apply, Nat.lt_succ_self, decide_true]
    exact Storage.records_set_place hc hmax
  · intro x n
    exact (hd.counts_iff h he hentry).trans
      (or_congr (and_iff_left (Nat.lt_succ_self r.live)) (and_iff_right_of_imp hspare))

/-! ## Out of the table -/

/-- A root is counted down to zero, one by one. -/
theorem decrease_to_zero {s : Storage} {z : Zones} {r : Roots} (hi : i < r.live)
    (he : r.entries[i]? = some ⟨l, n⟩) :
    (List.replicate n i).mapM decrease ⟨s, z, r⟩ = .ok (List.range n).reverse
      ⟨s, z, { r with entries := r.entries.setIfInBounds i ⟨l, 0⟩ }⟩ := by
  induction n generalizing r with
  | zero =>
    -- the entry is what is to be written there
    obtain ⟨hlt, heq⟩ := Array.getElem?_eq_some_iff.1 he
    rw [Array.setIfInBounds_def, dif_pos hlt, ← heq, Array.set_getElem_self]
    rfl
  | succ n ih =>
    have hstep : decrease i ⟨s, z, r⟩ =
        .ok n ⟨s, z, { r with entries := r.entries.setIfInBounds i ⟨l, n⟩ }⟩ :=
      decrease_ok hi he (Nat.succ_pos n)
    have he' : (r.entries.setIfInBounds i ⟨l, n⟩)[i]? = some ⟨l, n⟩ :=
      getElem?_written he _
    have hrest := ih (r := { r with entries := r.entries.setIfInBounds i ⟨l, n⟩ }) hi he'
    rw [Array.setIfInBounds_setIfInBounds] at hrest
    rw [List.replicate_succ, List.mapM_cons, bind_ok hstep, bind_ok hrest, List.range_succ,
      List.reverse_append]
    rfl

/-- The root `l` of entry `i` has lost its count and is left in entry `k`, the first after the live ones. The
last root has come to its entry. -/
structure Dismissed (t u : Tables) (i k : Nat) (l : Location) : Prop where
  live_before : t.roots.live = k + 1
  live_after : u.roots.live = k
  entry : u.roots.entries[k]? = some ⟨l, 0⟩
  displaced : Displaced t u (Equiv.swap i k) i
  shape : t.storage.SameShape u.storage

/-- A root that was counted down leaves the live entries. -/
theorem dismiss_displaced (h : t.RootsIndexed) (hi : i < t.roots.live)
    (he : t.roots.entries[i]? = some ⟨l, n⟩) :
    ∃ k u, dismiss i ⟨t.storage, t.zones, { t.roots with
        entries := t.roots.entries.setIfInBounds i ⟨l, 0⟩ }⟩ = .ok k u ∧ Dismissed t u i k l := by
  obtain ⟨k, hlive⟩ : ∃ k, t.roots.live = k + 1 := ⟨t.roots.live - 1, by omega⟩
  have hzero : (t.roots.entries.setIfInBounds i ⟨l, 0⟩)[i]? = some ⟨l, 0⟩ :=
    getElem?_written he _
  rcases Nat.eq_or_lt_of_le (show i ≤ k by omega) with rfl | hik
  · -- the root is the last one, and stays where it is
    refine ⟨i, _, dismiss_last_ok hlive hzero, hlive, rfl, hzero, ?_, .refl _⟩
    rw [Equiv.swap_self]
    have hbefore : ∀ j : Nat, j ≠ i → (j < i ↔ j < t.roots.live) := by
      intro j hj
      omega
    exact (h.displaced i).write rfl hbefore fun _ _ => rfl
  have hki : k ≠ i := Nat.ne_of_gt hik
  have hlast : k < t.roots.live := by omega
  obtain ⟨d, hdk, -⟩ := h.counted hlast
  obtain ⟨c, hc, hcslot, -⟩ := h.records he
  obtain ⟨b, hb, hbslot, -⟩ := h.records hdk
  have hne : l ≠ d.location := fun heq => hki (h.injective he hdk heq).symm
  have hdk' : (t.roots.entries.setIfInBounds i ⟨l, 0⟩)[k]? = some d := by
    rw [Array.getElem?_setIfInBounds_ne hki.symm, hdk]
  have hp := Storage.placed_set_set hne hb hc (h.records he).le_maxSlot (h.records hdk).le_maxSlot
    b.isRoot c.isRoot
  have hentries := getElem?_exchange hzero hdk'
  refine ⟨k, _, dismiss_inner_ok hik hlive hzero hdk' hne hc hb (h.records hdk).le_maxSlot, hlive, rfl, ?_, ?_,
    hp.shape⟩
  · have hself := hentries i
    rw [Equiv.swap_apply_left] at hself
    exact hself.trans hzero
  constructor
  · intro j hj
    rw [hentries, Array.getElem?_setIfInBounds_ne hj.symm]
  · intro j hj
    simp only
    rcases eq_or_ne j k with rfl | hjk
    · rw [Equiv.swap_apply_right]
      exact iff_of_true hik hlast
    · rw [Equiv.swap_apply_of_ne_of_ne hj hjk]
      omega
  · intro j x _ hx
    exact records_exchange he hdk hx ⟨c, hc, hcslot, rfl⟩ ⟨b, hb, hbslot, rfl⟩ (h.records hx) hp

/-- The root table is as it was, and so are the cells that it names, but for `l`. -/
structure Aside (t u : Tables) (l : Location) : Prop where
  roots : u.roots = t.roots
  cells : ∀ x, t.roots.Names x → x ≠ l → u.storage.get? x = t.storage.get? x
  shape : t.storage.SameShape u.storage

/-- A spare cell comes from outside for a root that was dismissed. -/
theorem park_replaces (h : t.RootsIndexed) (he : t.roots.entries[i]? = some ⟨l, n⟩) (hd : Dismissed t u i k l)
    (hw : u.Aside w l) (hm : t.storage.contains m) (hout : ¬t.roots.Names m) :
    ∃ v, park k m w = .ok l v ∧ v.RootsIndexed ∧ t.roots.Replaced v.roots l m ∧
      ∀ x c, v.roots.Counts x c ↔ x ≠ l ∧ t.roots.Counts x c := by
  obtain ⟨c, hc⟩ : ∃ c, w.storage.get? m = some c := by
    rw [← Option.isSome_iff_exists, Storage.isSome_get?_iff, hw.shape.sizes, hd.shape.sizes,
      ← Storage.isSome_get?_iff]
    exact hm
  have hk : Equiv.swap i k i = k := Equiv.swap_apply_left i k
  have hdead : ¬k < u.roots.live := Nat.not_lt_of_le (Nat.le_of_eq hd.live_after)
  have hmax : k ≤ Placement.maxSlot := by
    obtain ⟨d, hdk, -⟩ := h.counted (show k < t.roots.live by have := hd.live_before; omega)
    exact (h.records hdk).le_maxSlot
  -- the cells of the other entries are what they were when the root was dismissed
  have hcells : ∀ {j : Nat} {d : RootEntry}, j ≠ i → t.roots.entries[j]? = some d →
      (w.storage.set m (c.place k false)).get? d.location = u.storage.get? d.location := by
    intro j d hj hjd
    rw [Storage.get?_set_of_ne]
    · refine hw.cells _ ⟨_, d.count, (hd.displaced.entries j hj).trans hjd⟩ ?_
      exact fun heq => hj (h.injective hjd he heq)
    · rintro rfl
      exact hout ⟨j, d.count, hjd⟩
  obtain ⟨s, z, r⟩ := w
  obtain rfl : r = u.roots := hw.roots
  have hentry : (u.roots.entries.setIfInBounds k ⟨m, 0⟩)[Equiv.swap i k i]? = some ⟨m, 0⟩ := by
    rw [hk]
    exact getElem?_written hd.entry _
  have hdis := hd.displaced.write
    (w := ⟨s.set m (c.place k false), z, { u.roots with entries := u.roots.entries.setIfInBounds k ⟨m, 0⟩ }⟩)
    (by rw [hk]) (fun _ _ => Iff.rfl) hcells
  refine ⟨_, park_ok (Nat.le_of_eq hd.live_after) hd.entry hc hmax, ?_, hdis.replaced h he hentry hout, ?_⟩
  · refine hdis.indexed h hentry ?_ ?_
    · rw [hk, decide_eq_false hdead]
      exact Storage.records_set_place hc hmax
    · rw [hk]
      exact fun hlt => absurd hlt hdead
  · intro x n
    refine (hdis.counts_iff h he hentry).trans (or_iff_right ?_)
    rw [hk]
    exact fun hx => hdead hx.2

/-! ## Counts -/

/-- A root gets one count more, and nothing else happens. -/
theorem increase_counts (h : t.RootsIndexed) (hi : i < t.roots.live) (he : t.roots.entries[i]? = some ⟨l, n⟩) :
    ∃ u, increase i t = .ok (n + 1) u ∧ u.RootsIndexed ∧ (∀ x, u.roots.Names x ↔ t.roots.Names x) ∧
      ∀ x c, u.roots.Counts x c ↔ x = l ∧ c = n + 1 ∨ x ≠ l ∧ t.roots.Counts x c := by
  have hentry : (t.roots.entries.setIfInBounds i ⟨l, n + 1⟩)[i]? = some ⟨l, n + 1⟩ :=
    getElem?_written he _
  have hd := (h.displaced i).write
    (w := ⟨t.storage, t.zones, { t.roots with entries := t.roots.entries.setIfInBounds i ⟨l, n + 1⟩ }⟩) rfl
    (fun _ _ => Iff.rfl) (fun _ _ => rfl)
  have hrec : t.storage.Records l i (decide (i < t.roots.live)) := h.records he
  refine ⟨_, increase_ok hi he, hd.indexed h hentry hrec fun _ => Nat.succ_pos n, ?_, ?_⟩
  · intro x
    refine (hd.names_iff h he hentry).trans ?_
    constructor
    · rintro (rfl | hx)
      · exact ⟨i, n, he⟩
      · exact hx.2
    · intro hx
      exact (eq_or_ne x l).imp_right fun hne => ⟨hne, hx⟩
  · intro x c
    exact (hd.counts_iff h he hentry).trans (or_congr_left (and_iff_left hi))

/-- **Each exchange succeeds, leaves the table indexed and hands back the cell that no longer occurs in
it.** A cell that is enrolled is a root with a count of one, and a root that is counted down, dismissed and
parked is one no more, whatever is done meanwhile with it and with cells outside the table. No other cell
becomes a root or ceases to be one, and all others keep their counts. -/
theorem exchanges_keep_other_roots (h : t.RootsIndexed) :
    (∀ l, t.roots.isFull = false → t.storage.contains l → ¬t.roots.Names l →
      ∃ spare u, enrol l t = .ok spare u ∧ u.RootsIndexed ∧ t.roots.Replaced u.roots spare l ∧
        ∀ x c, u.roots.Counts x c ↔ x = l ∧ c = 1 ∨ t.roots.Counts x c) ∧
    (∀ i, i < t.roots.live → ∃ l n u k v, t.roots.entries[i]? = some ⟨l, n⟩ ∧
      (List.replicate n i).mapM decrease t = .ok (List.range n).reverse u ∧ dismiss i u = .ok k v ∧
        ∀ m w, t.storage.contains m → ¬t.roots.Names m → v.Aside w l →
          ∃ y, park k m w = .ok l y ∧ y.RootsIndexed ∧ t.roots.Replaced y.roots l m ∧
            ∀ x c, y.roots.Counts x c ↔ x ≠ l ∧ t.roots.Counts x c) ∧
    (∀ i, i < t.roots.live → ∃ l n u, t.roots.entries[i]? = some ⟨l, n⟩ ∧ increase i t = .ok (n + 1) u ∧
      u.RootsIndexed ∧ (∀ x, u.roots.Names x ↔ t.roots.Names x) ∧
        ∀ x c, u.roots.Counts x c ↔ x = l ∧ c = n + 1 ∨ x ≠ l ∧ t.roots.Counts x c) := by
  refine ⟨?_, ?_, ?_⟩
  · intro l hfull hl hout
    exact enrol_replaces h hfull hl hout
  · intro i hi
    obtain ⟨⟨l, n⟩, he, -⟩ := h.counted hi
    obtain ⟨k, v, hv, hd⟩ := dismiss_displaced h hi he
    refine ⟨l, n, _, k, v, he, decrease_to_zero hi he, hv, ?_⟩
    intro m w hm hout hw
    exact park_replaces h he hd hw hm hout
  · intro i hi
    obtain ⟨⟨l, n⟩, he, -⟩ := h.counted hi
    obtain ⟨u, hu⟩ := increase_counts h hi he
    exact ⟨l, n, u, he, hu⟩

/-- Two roots, a spare entry that has kept a count, and two cells outside the table, of which one is marked
as a root. -/
def twoRoots : Tables where
  storage := ⟨#[⟨default, #[(Cell.spare 0).place 0 true, (Cell.spare 1).place 1 true, .spare 2, .spare 0,
    (Cell.spare 0).place 1 true]⟩], .ofLimit none, 5⟩
  zones := .empty
  roots := ⟨#[⟨⟨0, 0⟩, 2⟩, ⟨⟨0, 1⟩, 3⟩, ⟨⟨0, 2⟩, 7⟩], 2⟩

theorem rootsIndexed_twoRoots : twoRoots.RootsIndexed := by
  constructor
  · intro i hi
    match i, hi with
    | 0, _ | 1, _ => exact ⟨_, rfl, by decide⟩
  · intro i e hi
    have hlt : i < 3 := (Array.getElem?_eq_some_iff.1 hi).1
    match i, hi with
    | 0, hi | 1, hi | 2, hi =>
      obtain rfl := Option.some.inj hi
      exact ⟨_, rfl, Placement.slot_ofSlot_of_le (by decide), Placement.isRoot_ofSlot _ _⟩

theorem not_names_twoRoots (hl : 3 ≤ l.offset.toNat) : ¬twoRoots.roots.Names l := by
  rintro ⟨i, n, hi⟩
  have hlt : i < 3 := (Array.getElem?_eq_some_iff.1 hi).1
  match i, hi with
  | 0, hi | 1, hi | 2, hi =>
    obtain ⟨rfl, -⟩ := RootEntry.mk.inj (Option.some.inj hi)
    exact absurd hl (by decide)

/-- A cell comes in, the first root goes, and the second root gets a count more. -/
theorem exchanges_of_two_roots :
    (∃ spare u, enrol ⟨0, 4⟩ twoRoots = .ok spare u ∧ u.roots.Counts ⟨0, 4⟩ 1 ∧ u.roots.Counts ⟨0, 1⟩ 3) ∧
    (∃ u k v w, [0, 0].mapM decrease twoRoots = .ok [1, 0] u ∧ dismiss 0 u = .ok k v ∧
      park k ⟨0, 3⟩ v = .ok ⟨0, 0⟩ w ∧ w.roots.Counts ⟨0, 1⟩ 3 ∧ ¬w.roots.Names ⟨0, 0⟩) ∧
    ∃ u, increase 1 twoRoots = .ok 4 u ∧ u.roots.Counts ⟨0, 0⟩ 2 := by
  have hfirst : twoRoots.roots.Counts ⟨0, 0⟩ 2 := ⟨0, by decide, rfl⟩
  have hsecond : twoRoots.roots.Counts ⟨0, 1⟩ 3 := ⟨1, by decide, rfl⟩
  obtain ⟨hin, hout, hmore⟩ := exchanges_keep_other_roots rootsIndexed_twoRoots
  refine ⟨?_, ?_, ?_⟩
  · obtain ⟨spare, u, hu, -, -, hcounts⟩ := hin ⟨0, 4⟩ rfl rfl (not_names_twoRoots (by decide))
    exact ⟨spare, u, hu, (hcounts _ _).2 (.inl ⟨rfl, rfl⟩), (hcounts _ _).2 (.inr hsecond)⟩
  · obtain ⟨l, n, u, k, v, hl, hu, hv, hpark⟩ := hout 0 (by decide)
    obtain ⟨rfl, rfl⟩ := RootEntry.mk.inj (Option.some.inj hl)
    obtain ⟨w, hw, -, hreplaced, hcounts⟩ := hpark ⟨0, 3⟩ v rfl (not_names_twoRoots (by decide))
      ⟨rfl, fun _ _ _ => rfl, .refl _⟩
    exact ⟨u, k, v, w, hu, hv, hw, (hcounts _ _).2 ⟨by decide, hsecond⟩, ((hreplaced.gone _).2 rfl).2⟩
  · obtain ⟨l, n, u, hl, hu, -, -, hcounts⟩ := hmore 1 (by decide)
    obtain ⟨rfl, rfl⟩ := RootEntry.mk.inj (Option.some.inj hl)
    exact ⟨u, hu, (hcounts _ _).2 (.inr ⟨by decide, hfirst⟩)⟩

end Tables

end ConsHeap
