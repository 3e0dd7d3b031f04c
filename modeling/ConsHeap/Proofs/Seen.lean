import ConsHeap.Proofs.Verdict

/-!
# Cells that an audit has seen

An audit could keep a set of the cells that it has seen at a position, and look up every further one in it.
All of these record their positions by then. So a slot cannot name a cell that was seen, and an entry can do
so in one way only, which is the one that `Heap.auditEntry` looks for.

* `Heap.see`, `Heap.auditSeen`: the audit with a set of the cells that have been seen.
* `Heap.foldlM_see`: a traversal with such a set against one without it.
* `Heap.foldlM_slots`, `Heap.foldlM_entries`: the two traversals of the audit.
* `Heap.audit_eq_auditSeen`: **the set makes no difference.**
-/

namespace ConsHeap.Heap

variable {h : Heap} {l : Location} {e : RootEntry} {i : Nat}

/-- A further cell, which must not have been seen. -/
def see (l : Location) (seen : List Location) : Except (Failure Violation) (List Location) :=
  if l ∈ seen then .error (.error (.repeated l)) else .ok (l :: seen)

/-- The audit with a set of the cells that have been seen. The number of these is compared in the end. -/
def auditSeen (h : Heap) : Finding Unit := do
  let t := h.tables
  unless t.zones.isOrdered do found (.disorder t.zones)
  let inSlots ← t.zones.slots.toList.zipIdx.foldlM
    (fun seen (l, i) => do h.auditSlot l i; see l seen) []
  let seen ← t.roots.entries.toList.zipIdx.foldlM
    (fun seen (entry, i) => do h.auditRoot entry i; see entry.location seen) inSlots
  if seen.length ≠ t.storage.cells then found (.unnamed t.storage.cells seen.length)
  h.scannedCells.forM fun parent => do
    let cell ← h.auditedCell parent
    cell.handles.forM (h.auditReference parent)

section Seen

variable {α : Type} (visit check : α → Nat → Finding Unit) (location : α → Location)
  (Inv : Nat → List Location → Prop)

/-- A traversal with a set of seen cells does what one without it does, if every step does. -/
theorem foldlM_see
    (hstep : ∀ a i seen, Inv i seen →
      (do visit a i; see (location a) seen) = (do check a i; return location a :: seen))
    (hnext : ∀ a i seen, Inv i seen → check a i = .ok () → Inv (i + 1) (location a :: seen))
    (as : List α) (i : Nat) (seen : List Location) (hinv : Inv i seen) :
    (as.zipIdx i).foldlM (fun seen (a, i) => do visit a i; see (location a) seen) seen =
      (do
        (as.zipIdx i).forM fun (a, i) => check a i
        return (as.map location).reverse ++ seen) := by
  induction as generalizing i seen with
  | nil => rfl
  | cons a as ih =>
    rw [List.zipIdx_cons, List.foldlM_cons]
    simp only
    rw [hstep a i seen hinv]
    cases hcheck : check a i with
    | error e =>
      have hall : ((a, i) :: as.zipIdx (i + 1)).forM (fun (a, i) => check a i) = .error e := by
        show (check a i >>= fun _ => _) = _
        rw [hcheck]
        rfl
      rw [hall]
      rfl
    | ok u =>
      have hall : ((a, i) :: as.zipIdx (i + 1)).forM (fun (a, i) => check a i) =
          (as.zipIdx (i + 1)).forM fun (a, i) => check a i := by
        show (check a i >>= fun _ => _) = _
        rw [hcheck]
        rfl
      have hrest := ih (i + 1) (location a :: seen) (hnext a i seen hinv hcheck)
      rw [hall, List.map_cons, List.reverse_cons, List.append_assoc, List.singleton_append]
      exact hrest

end Seen

/-- A cell that was not seen before is one of those seen from now on. -/
theorem see_of_not_mem {seen : List Location} (hl : l ∉ seen) : see l seen = .ok (l :: seen) := if_neg hl

theorem records_of_auditSlot (hok : h.auditSlot l i = .ok ()) : h.tables.storage.Records l i false := by
  cases hc : h.cell? l with
  | none =>
    rw [auditSlot, auditedCell, hc] at hok
    cases hok
  | some c => exact (decides_auditSlot hc i).ok_iff.1 hok

theorem records_of_auditRoot (hok : h.auditRoot e i = .ok ()) :
    h.tables.storage.Records e.location i (decide (i < h.tables.roots.live)) := by
  cases hc : h.cell? e.location with
  | none =>
    rw [auditRoot, auditedCell, hc] at hok
    cases hok
  | some c => exact ((decides_auditRoot hc i).ok_iff.1 hok).1

/-- An entry that passes the audit passes its first part. -/
theorem auditRoot_of_auditEntry (hok : h.auditEntry e i = .ok ()) : h.auditRoot e i = .ok () := by
  rw [auditEntry_eq] at hok
  cases hroot : h.auditRoot e i with
  | error f =>
    rw [hroot] at hok
    cases hok
  | ok u => rfl

/-- The slots are looked up in vain. -/
theorem foldlM_slots (h : Heap) :
    h.tables.zones.slots.toList.zipIdx.foldlM (fun seen (l, i) => do h.auditSlot l i; see l seen) [] =
      (do
        h.tables.zones.slots.toList.zipIdx.forM fun (l, i) => h.auditSlot l i
        return h.tables.zones.slots.toList.reverse) := by
  let Inv : Nat → List Location → Prop :=
    fun i seen => ∀ m ∈ seen, ∃ j < i, h.tables.storage.Records m j false
  have hstart : Inv 0 [] := by simp [Inv]
  have hfold := foldlM_see h.auditSlot h.auditSlot (fun l => l) Inv ?_ ?_ h.tables.zones.slots.toList 0 []
    hstart
  · rw [List.map_id', List.append_nil] at hfold
    exact hfold
  · intro l i seen hinv
    cases hcheck : h.auditSlot l i with
    | error f => rfl
    | ok u =>
      have hnew : l ∉ seen := by
        intro hmem
        obtain ⟨j, hlt, hj⟩ := hinv l hmem
        have := ((records_of_auditSlot hcheck).unique hj).1
        omega
      exact see_of_not_mem hnew
  · intro l i seen hinv hcheck m hm
    rcases List.mem_cons.1 hm with rfl | hm
    · exact ⟨i, Nat.lt_succ_self i, records_of_auditSlot hcheck⟩
    · obtain ⟨j, hlt, hj⟩ := hinv m hm
      exact ⟨j, Nat.lt_succ_of_lt hlt, hj⟩

/-- The entries are looked up, and the slot of the same number is the only one that could have been seen. -/
theorem foldlM_entries
    (hslots : ∀ (i : Nat) l, h.tables.zones.slots[i]? = some l → h.tables.storage.Records l i false) :
    h.tables.roots.entries.toList.zipIdx.foldlM
        (fun seen (e, i) => do h.auditRoot e i; see (RootEntry.location e) seen)
        h.tables.zones.slots.toList.reverse =
      (do
        h.tables.roots.entries.toList.zipIdx.forM fun (e, i) => h.auditEntry e i
        return (h.tables.roots.entries.toList.map RootEntry.location).reverse ++
          h.tables.zones.slots.toList.reverse) := by
  let Inv : Nat → List Location → Prop := fun i seen =>
    (∀ m ∈ seen, (∃ j < i, ∃ b, h.tables.storage.Records m j b) ∨ m ∈ h.tables.zones.slots) ∧
      ∀ m ∈ h.tables.zones.slots, m ∈ seen
  refine foldlM_see h.auditRoot h.auditEntry RootEntry.location Inv ?_ ?_ h.tables.roots.entries.toList
    0 _ ⟨?_, ?_⟩
  · intro e i seen hinv
    rw [auditEntry_eq]
    cases hcheck : h.auditRoot e i with
    | error f => rfl
    | ok u =>
      have hrec := records_of_auditRoot hcheck
      have hseen : e.location ∈ seen ↔ h.tables.zones.slots[i]? = some e.location := by
        constructor
        · intro hmem
          rcases hinv.1 _ hmem with ⟨j, hlt, b, hj⟩ | hslot
          · have := (hrec.unique hj).1
            omega
          · obtain ⟨j, hj⟩ := Array.mem_iff_getElem?.1 hslot
            rw [(hrec.unique (hslots j _ hj)).1]
            exact hj
        · exact fun hi => hinv.2 _ (Array.mem_iff_getElem?.2 ⟨i, hi⟩)
      simp only [bind, Except.bind, see, hseen]
      split <;> rfl
  · intro e i seen hinv hcheck
    refine ⟨fun m hm => ?_, fun m hm => List.mem_cons_of_mem _ (hinv.2 m hm)⟩
    rcases List.mem_cons.1 hm with rfl | hm
    · exact .inl ⟨i, Nat.lt_succ_self i, _, records_of_auditRoot (auditRoot_of_auditEntry hcheck)⟩
    · refine (hinv.1 m hm).imp_left ?_
      rintro ⟨j, hlt, b, hj⟩
      exact ⟨j, Nat.lt_succ_of_lt hlt, b, hj⟩
  · intro m hm
    exact .inr (Array.mem_toList_iff.1 (List.mem_reverse.1 hm))
  · intro m hm
    exact List.mem_reverse.2 (Array.mem_toList_iff.2 hm)

/-- A traversal that passes does so at every member. -/
theorem of_forM_eq_ok {α : Type} {f : α → Finding Unit} {as : List α} (hok : as.forM f = .ok ()) :
    ∀ a ∈ as, f a = .ok () := by
  induction as with
  | nil => simp
  | cons a as ih =>
    have hboth : (f a >>= fun _ => as.forM f) = .ok () := hok
    cases ha : f a with
    | error e =>
      rw [ha] at hboth
      cases hboth
    | ok u =>
      rw [ha] at hboth
      intro b hb
      rcases List.mem_cons.1 hb with rfl | hb
      · exact ha
      · exact ih hboth b hb

/-- **The audit does what one with a set of seen cells does.** -/
theorem audit_eq_auditSeen (h : Heap) : h.audit = h.auditSeen := by
  rw [audit, auditSeen]
  split
  swap
  · rfl
  simp only
  rw [foldlM_slots]
  cases hslots : h.tables.zones.slots.toList.zipIdx.forM fun (l, i) => h.auditSlot l i with
  | error f => rfl
  | ok u =>
    have hrecords : ∀ (i : Nat) l, h.tables.zones.slots[i]? = some l →
        h.tables.storage.Records l i false := by
      intro i l hi
      rw [← Array.getElem?_toList, ← List.mk_mem_zipIdx_iff_getElem?] at hi
      exact records_of_auditSlot (of_forM_eq_ok hslots _ hi)
    have hentries := foldlM_entries hrecords
    simp only [bind, Except.bind, pure, Except.pure] at hentries ⊢
    rw [hentries]
    cases h.tables.roots.entries.toList.zipIdx.forM fun (e, i) => h.auditEntry e i with
    | error f => rfl
    | ok u =>
      -- as many cells have been seen as there are positions
      have hseen : ((h.tables.roots.entries.toList.map RootEntry.location).reverse ++
          h.tables.zones.slots.toList.reverse).length = h.tables.zones.capacity + h.tables.roots.capacity := by
        simp [Zones.capacity, Roots.capacity, Nat.add_comm]
      simp only [hseen]

end ConsHeap.Heap
