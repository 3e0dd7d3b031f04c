import ConsHeap.Heap.Audit
import ConsHeap.Proofs.Tables.Sound

/-!
# The verdict of an audit

An audit is put together from steps. Each step passes or reports a violation, and which of the two it does is
decided by a property of the heap. No step faults when the tables name stored cells only.

* `Heap.Decides`: a step passes just if a property holds. One lemma for each way to put steps together.
* `Heap.Passes`: what the audit looks at.
* `Heap.auditRoot`, `Heap.auditEntry_eq`: what is looked at in an entry before the slot of the same number is.
* `Heap.decides_audit`: **the audit passes just if all of that is as it should be.**
-/

namespace ConsHeap.Heap

/-! ## Steps of an audit -/

/-- The step passes if the property holds, and reports a violation if not. -/
def Decides (x : Finding Unit) (P : Prop) : Prop := x = .ok () ∧ P ∨ ∃ v, x = .error (.error v) ∧ ¬ P

namespace Decides

variable {α : Type} {x : Finding Unit} {f : Unit → Finding Unit} {P Q : Prop} {v : Violation}

theorem congr (hx : Decides x P) (h : P ↔ Q) : Decides x Q := by
  rwa [← propext h]

theorem ok_iff (hx : Decides x P) : x = .ok () ↔ P := by
  rcases hx with ⟨rfl, hP⟩ | ⟨v, rfl, hP⟩
  · exact iff_of_true rfl hP
  · exact iff_of_false (by simp) hP

/-- A step that does not pass reports a violation. -/
theorem exists_violation (hx : Decides x P) (hP : ¬ P) : ∃ v, x = .error (.error v) := by
  rcases hx with ⟨-, h⟩ | ⟨v, hv, -⟩
  · exact absurd h hP
  · exact ⟨v, hv⟩

/-- The next step is made when the first one passes. -/
theorem bind (hx : Decides x P) (hf : P → Decides (f ()) Q) : Decides (x >>= f) (P ∧ Q) := by
  rcases hx with ⟨rfl, hP⟩ | ⟨v, rfl, hP⟩
  · exact (hf hP).congr (by simp [hP])
  · exact .inr ⟨v, rfl, fun h => hP h.1⟩

/-- In a bad case a violation is reported, and otherwise the audit goes on. -/
theorem refute (bad : Prop) [Decidable bad] (hf : ¬ bad → Decides (f ()) Q) :
    Decides (if bad then found v >>= f else f ()) (¬ bad ∧ Q) := by
  by_cases hbad : bad
  · rw [if_pos hbad]
    exact .inr ⟨v, rfl, fun h => h.1 hbad⟩
  · rw [if_neg hbad]
    exact (hf hbad).congr (by simp [hbad])

/-- In a good case the audit goes on, and otherwise a violation is reported. -/
theorem require (good : Prop) [Decidable good] (hf : good → Decides (f ()) Q) :
    Decides (if good then f () else found v >>= f) (good ∧ Q) := by
  by_cases hgood : good
  · rw [if_pos hgood]
    exact (hf hgood).congr (by simp [hgood])
  · rw [if_neg hgood]
    exact .inr ⟨v, rfl, fun h => hgood h.1⟩

/-- The last thing to look at is a bad case. -/
theorem refute_last (bad : Prop) [Decidable bad] : Decides (if bad then found v else .ok ()) (¬ bad) := by
  by_cases hbad : bad
  · rw [if_pos hbad]
    exact .inr ⟨v, rfl, fun h => h hbad⟩
  · rw [if_neg hbad]
    exact .inl ⟨rfl, hbad⟩

/-- A traversal passes just if it passes at every member. -/
theorem forM {g : α → Finding Unit} {R : α → Prop} {as : List α}
    (hg : ∀ a ∈ as, Decides (g a) (R a)) : Decides (as.forM g) (∀ a ∈ as, R a) := by
  induction as with
  | nil => exact .inl ⟨rfl, by simp⟩
  | cons a as ih =>
    have hrest : Decides (as.forM g) (∀ b ∈ as, R b) := ih fun b hb => hg b (List.mem_cons_of_mem a hb)
    have hall : Decides (g a >>= fun _ => as.forM g) (R a ∧ ∀ b ∈ as, R b) :=
      (hg a List.mem_cons_self).bind fun _ => hrest
    exact hall.congr (by simp)

end Decides

/-! ## What the audit looks at -/

variable {h : Heap} {l : Location} {c : Cell} {e : RootEntry} {i : Nat} {handle : Handle}

/-- The cells whose references the audit looks at: those in the black zone, and the live roots. -/
def Scanned (h : Heap) (l : Location) : Prop :=
  (∃ i < h.tables.zones.blackTop, h.tables.zones.slots[i]? = some l) ∨
    ∃ i < h.tables.roots.live, ∃ e, h.tables.roots.entries[i]? = some e ∧ e.location = l

/-- The handle resolves to a cell that is not white. -/
def Safely (h : Heap) (handle : Handle) : Prop :=
  ∃ m, h.resolve handle = some m ∧ h.tables.color? m ≠ some .white

/-- All that the audit looks at is as it should be. -/
structure Passes (h : Heap) : Prop where
  ordered : h.tables.zones.Ordered
  slots : ∀ (i : Nat) l, h.tables.zones.slots[i]? = some l → h.tables.storage.Records l i false
  entries : ∀ (i : Nat) e, h.tables.roots.entries[i]? = some e →
    h.tables.storage.Records e.location i (decide (i < h.tables.roots.live)) ∧
      (i < h.tables.roots.live → 0 < e.count)
  apart : ∀ (i : Nat) e, h.tables.roots.entries[i]? = some e →
    h.tables.zones.slots[i]? ≠ some e.location
  counted : h.tables.zones.capacity + h.tables.roots.capacity = h.tables.storage.cells
  references : ∀ l c handle, h.Scanned l → h.cell? l = some c → handle ∈ c.handles → h.Safely handle

theorem isOrdered_iff {z : Zones} : z.isOrdered = true ↔ z.Ordered := by
  simp only [Zones.isOrdered, Bool.and_eq_true, decide_eq_true_eq]
  constructor
  · rintro ⟨⟨⟨hgap, hgrey⟩, hwhite⟩, hfree⟩
    exact ⟨hgap, hgrey, hwhite, hfree⟩
  · rintro ⟨hgap, hgrey, hwhite, hfree⟩
    exact ⟨⟨⟨hgap, hgrey⟩, hwhite⟩, hfree⟩

/-- A stored cell is found. -/
theorem auditedCell_bind (hc : h.cell? l = some c) (f : Cell → Finding Unit) :
    (h.auditedCell l >>= f) = f c := by
  rw [auditedCell, hc]
  rfl

/-- A stored cell records what it records. -/
theorem records_iff (hc : h.cell? l = some c) {isRoot : Bool} :
    h.tables.storage.Records l i isRoot ↔ c.slot = i ∧ c.isRoot = isRoot := by
  constructor
  · rintro ⟨c', hc', hrec⟩
    obtain rfl := Option.some.inj (hc.symm.trans hc')
    exact hrec
  · exact fun hrec => ⟨c, hc, hrec⟩

theorem decides_auditSlot (hc : h.cell? l = some c) (i : Nat) :
    Decides (h.auditSlot l i) (h.tables.storage.Records l i false) := by
  rw [auditSlot, auditedCell_bind hc]
  refine (Decides.refute_last (c.slot ≠ i ∨ c.isRoot = true)).congr ?_
  rw [records_iff hc, not_or, not_not, Bool.not_eq_true]

/-- An entry of the root table names a cell that records it, and is counted when it is live. -/
def auditRoot (h : Heap) (entry : RootEntry) (i : Nat) : Finding Unit := do
  let l := entry.location
  let cell ← h.auditedCell l
  let isLive := decide (i < h.tables.roots.live)
  if cell.slot ≠ i ∨ cell.isRoot ≠ isLive then found (.strayRoot i l cell.slot cell.isRoot)
  if isLive ∧ entry.count = 0 then found (.uncounted l)

/-- The last thing that is looked at in an entry is whether a slot names its cell. -/
theorem auditEntry_eq (h : Heap) (e : RootEntry) (i : Nat) :
    h.auditEntry e i = (do
      h.auditRoot e i
      if h.tables.zones.slots[i]? = some e.location then found (.repeated e.location)) := by
  rw [auditEntry, auditRoot]
  cases h.auditedCell e.location with
  | error f => rfl
  | ok c =>
    simp only [bind, Except.bind]
    by_cases hplace : c.slot ≠ i ∨ c.isRoot ≠ decide (i < h.tables.roots.live)
    · simp only [if_pos hplace, found]
    · simp only [if_neg hplace]
      by_cases hcount : decide (i < h.tables.roots.live) = true ∧ e.count = 0
      · simp only [if_pos hcount, found]
      · simp only [if_neg hcount]
        rfl

theorem decides_auditRoot (hc : h.cell? e.location = some c) (i : Nat) :
    Decides (h.auditRoot e i)
      (h.tables.storage.Records e.location i (decide (i < h.tables.roots.live)) ∧
        (i < h.tables.roots.live → 0 < e.count)) := by
  have hsteps : Decides (h.auditRoot e i)
      (¬ (c.slot ≠ i ∨ c.isRoot ≠ decide (i < h.tables.roots.live)) ∧
        ¬ (decide (i < h.tables.roots.live) = true ∧ e.count = 0)) := by
    rw [auditRoot, auditedCell_bind hc]
    refine .refute (c.slot ≠ i ∨ c.isRoot ≠ decide (i < h.tables.roots.live)) fun _ => ?_
    exact .refute_last (decide (i < h.tables.roots.live) = true ∧ e.count = 0)
  refine hsteps.congr ?_
  rw [records_iff hc, not_or, not_not, not_not]
  simp only [decide_eq_true_eq, not_and, Nat.pos_iff_ne_zero]

theorem decides_auditEntry (hc : h.cell? e.location = some c) (i : Nat) :
    Decides (h.auditEntry e i)
      ((h.tables.storage.Records e.location i (decide (i < h.tables.roots.live)) ∧
          (i < h.tables.roots.live → 0 < e.count)) ∧
        h.tables.zones.slots[i]? ≠ some e.location) := by
  rw [auditEntry_eq]
  exact (decides_auditRoot hc i).bind fun _ => .refute_last _

theorem decides_auditReference (l : Location) (handle : Handle) :
    Decides (h.auditReference l handle) (h.Safely handle) := by
  rw [auditReference]
  cases hres : h.resolve handle with
  | none =>
    refine .inr ⟨_, rfl, ?_⟩
    rintro ⟨m, hm, -⟩
    rw [hres] at hm
    cases hm
  | some m =>
    refine (Decides.refute_last (h.tables.color? m = some .white)).congr ?_
    simp [Safely, hres]

theorem mem_scannedCells_iff : l ∈ h.scannedCells ↔ h.Scanned l := by
  rw [scannedCells, List.mem_append, Roots.locations, List.mem_map, Scanned]
  refine or_congr ?_ ?_
  · rw [List.mem_iff_getElem?]
    refine exists_congr fun i => ?_
    rw [List.getElem?_take, Array.getElem?_toList]
    split <;> simp_all
  · constructor
    · rintro ⟨e, he, rfl⟩
      obtain ⟨i, hi⟩ := List.mem_iff_getElem?.1 he
      rw [List.getElem?_take, Array.getElem?_toList] at hi
      split at hi
      · next hlt => exact ⟨i, hlt, e, hi, rfl⟩
      · cases hi
    · rintro ⟨i, hlt, e, hi, rfl⟩
      refine ⟨e, List.mem_iff_getElem?.2 ⟨i, ?_⟩, rfl⟩
      rw [List.getElem?_take, if_pos hlt, Array.getElem?_toList, hi]

/-- The members of an array with their places. -/
theorem forall_mem_zipIdx {α : Type} {xs : Array α} {P : Nat → α → Prop} :
    (∀ p ∈ xs.toList.zipIdx, P p.2 p.1) ↔ ∀ (i : Nat) a, xs[i]? = some a → P i a := by
  simp only [Prod.forall, List.mk_mem_zipIdx_iff_getElem?, Array.getElem?_toList]
  exact forall_comm

/-- **When the tables name stored cells only, the audit passes just if all that it looks at is as it should be,
and reports a violation if not.** -/
theorem decides_audit
    (hslots : ∀ (i : Nat) l, h.tables.zones.slots[i]? = some l → ∃ c, h.cell? l = some c)
    (hentries : ∀ (i : Nat) e, h.tables.roots.entries[i]? = some e → ∃ c, h.cell? e.location = some c) :
    Decides h.audit h.Passes := by
  have hstored : ∀ l ∈ h.scannedCells, ∃ c, h.cell? l = some c := by
    intro l hl
    rcases mem_scannedCells_iff.1 hl with ⟨i, -, hi⟩ | ⟨i, -, e, he, rfl⟩
    · exact hslots i l hi
    · exact hentries i e he
  have hslot : Decides (h.tables.zones.slots.toList.zipIdx.forM fun p => h.auditSlot p.1 p.2)
      (∀ p ∈ h.tables.zones.slots.toList.zipIdx, h.tables.storage.Records p.1 p.2 false) := by
    refine .forM ?_
    rintro ⟨l, i⟩ hmem
    rw [List.mk_mem_zipIdx_iff_getElem?, Array.getElem?_toList] at hmem
    obtain ⟨c, hc⟩ := hslots i l hmem
    exact decides_auditSlot hc i
  have hentry : Decides (h.tables.roots.entries.toList.zipIdx.forM fun p => h.auditEntry p.1 p.2)
      (∀ p ∈ h.tables.roots.entries.toList.zipIdx,
        (h.tables.storage.Records p.1.location p.2 (decide (p.2 < h.tables.roots.live)) ∧
            (p.2 < h.tables.roots.live → 0 < p.1.count)) ∧
          h.tables.zones.slots[p.2]? ≠ some p.1.location) := by
    refine .forM ?_
    rintro ⟨e, i⟩ hmem
    rw [List.mk_mem_zipIdx_iff_getElem?, Array.getElem?_toList] at hmem
    obtain ⟨c, hc⟩ := hentries i e hmem
    exact decides_auditEntry hc i
  have hreference : Decides
      (h.scannedCells.forM fun l => do
        let cell ← h.auditedCell l
        cell.handles.forM (h.auditReference l))
      (∀ l ∈ h.scannedCells, ∀ c, h.cell? l = some c → ∀ handle ∈ c.handles, h.Safely handle) := by
    refine .forM fun l hl => ?_
    obtain ⟨c, hc⟩ := hstored l hl
    rw [auditedCell_bind hc]
    refine (Decides.forM fun handle _ => decides_auditReference l handle).congr ?_
    simp [hc]
  -- the steps, in their order
  have hsteps : Decides h.audit
      (h.tables.zones.isOrdered = true ∧
        (∀ p ∈ h.tables.zones.slots.toList.zipIdx, h.tables.storage.Records p.1 p.2 false) ∧
        (∀ p ∈ h.tables.roots.entries.toList.zipIdx,
          (h.tables.storage.Records p.1.location p.2 (decide (p.2 < h.tables.roots.live)) ∧
              (p.2 < h.tables.roots.live → 0 < p.1.count)) ∧
            h.tables.zones.slots[p.2]? ≠ some p.1.location) ∧
        ¬ h.tables.zones.capacity + h.tables.roots.capacity ≠ h.tables.storage.cells ∧
        ∀ l ∈ h.scannedCells, ∀ c, h.cell? l = some c → ∀ handle ∈ c.handles, h.Safely handle) := by
    rw [audit]
    refine .require _ fun _ => ?_
    refine hslot.bind fun _ => ?_
    refine hentry.bind fun _ => ?_
    exact .refute _ fun _ => hreference
  refine hsteps.congr ?_
  rw [isOrdered_iff, not_not,
    forall_mem_zipIdx (P := fun i l => h.tables.storage.Records l i false),
    forall_mem_zipIdx (P := fun i e =>
      (h.tables.storage.Records (RootEntry.location e) i (decide (i < h.tables.roots.live)) ∧
          (i < h.tables.roots.live → 0 < RootEntry.count e)) ∧
        h.tables.zones.slots[i]? ≠ some (RootEntry.location e))]
  constructor
  · rintro ⟨hordered, hslots, hentries, hcounted, href⟩
    exact ⟨hordered, hslots, fun i e he => (hentries i e he).1, fun i e he => (hentries i e he).2, hcounted,
      fun l c handle hl hc hmem => href l (mem_scannedCells_iff.2 hl) c hc handle hmem⟩
  · rintro ⟨hordered, hslots, hentries, hapart, hcounted, href⟩
    exact ⟨hordered, hslots, fun i e he => ⟨hentries i e he, hapart i e he⟩, hcounted,
      fun l hl c hc handle hmem => href l c handle (mem_scannedCells_iff.1 hl) hc hmem⟩

end ConsHeap.Heap
