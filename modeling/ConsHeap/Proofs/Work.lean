import ConsHeap.Proofs.Census
import ConsHeap.Proofs.Colors

/-!
# The work of a cycle

From one sweep to the next a cell that is black or a root is finished, whatever else happens. Scanning only
takes cells that are not, so each cell is scanned once at most, and the cells that were grey or white when
the cycle began and those that are made in it bound the work.

* `Coloring.finished`, `Coloring.unfinished`: the black cells and the roots, and the grey and white cells.
* `Heap.scanned`: the cells that a scan takes, one after the other.
* `Heap.Recolors.finished_subset`: only a sweep or a collection takes back that a cell is finished.
* `Memory.scannedIn`: the cells that are scanned along a run.
* `Memory.Good.work_after`, `Memory.Good.work_runs`: what one move, and what a run scans, is paid for by
  the unfinished cells and by new ones.
* `Memory.cells_are_scanned_once`: **between two sweeps no finished cell becomes grey or white, no cell is
  scanned twice, and the number of scanned cells is bounded by the cells that were grey or white at first
  and those that were made.**
-/

namespace ConsHeap

/-! ## Finished cells -/

namespace Coloring

variable {c c' : Coloring} {l m : Location} {color : Color} {S : Set Location} {n : Nat}

/-- The cells that a cycle has finished: the black ones and the roots. -/
def finished (c : Coloring) : Set Location := {l | c l = some .black ∨ c l = some .root}

/-- The cells that a cycle has not finished: the grey and the white ones. -/
def unfinished (c : Coloring) : Set Location := {l | c l = some .grey ∨ c l = some .white}

theorem not_mem_finished (hl : l ∈ c.unfinished) : l ∉ c.finished := by
  rintro (hf | hf) <;> rcases hl with hu | hu <;> (rw [hf] at hu; cases hu)

/-- Every live cell is finished or not. -/
theorem population_eq_add (c : Coloring) : c.population = c.finished.ncard + c.unfinished.ncard := by
  have hunion : {l | c l ≠ none} = c.finished ∪ c.unfinished := by
    ext l
    simp only [Set.mem_ofPred_eq, Set.mem_union, finished, unfinished]
    cases c l with
    | none => simp
    | some color => cases color <;> simp
  have hdisjoint : Disjoint c.finished c.unfinished :=
    Set.disjoint_right.2 fun l hl => not_mem_finished hl
  rw [population, hunion, Set.ncard_union_eq hdisjoint (Set.toFinite _) (Set.toFinite _)]

/-- Shading changes no finished cell. -/
theorem shade_of_finished (hl : l ∈ c.finished) : c.shade S l = c l := by
  refine if_neg fun hw => ?_
  rcases hl with hl | hl <;> (rw [hl] at hw; cases hw.1)

theorem finished_subset_shade (c : Coloring) (S : Set Location) : c.finished ⊆ (c.shade S).finished := by
  intro l hl
  have hkept : c.shade S l = c l := shade_of_finished hl
  rw [finished, Set.mem_ofPred_eq, hkept]
  exact hl

/-- A cell may become black or a root, and a spare one may come to life. -/
theorem finished_subset_paint (h : c l = none ∨ color = .black ∨ color = .root) :
    c.finished ⊆ (c.paint l color).finished := by
  intro m hm
  rw [finished, Set.mem_ofPred_eq]
  by_cases hml : m = l
  · subst hml
    rw [paint_self]
    rcases h with h | rfl | rfl
    · rcases hm with hm | hm <;> (rw [h] at hm; cases hm)
    · exact .inl rfl
    · exact .inr rfl
  · rw [paint_of_ne hml]
    exact hm

theorem Gains.finished_subset (h : c.Gains n c') : c.finished ⊆ c'.finished := by
  obtain ⟨new, -, -, hspare, hnew⟩ := h
  intro l hl
  have hold : l ∉ new := by
    intro hmem
    rcases hl with hl | hl <;> (rw [hspare l hmem] at hl; cases hl)
  rw [finished, Set.mem_ofPred_eq, hnew l, if_neg hold]
  exact hl

/-! ### One cell is scanned -/

/-- The cells that were finished before have the colours that they had. -/
theorem mark_of_finished (hl : c l = some .grey) (hm : m ∈ c.finished) :
    (c.paint l .black).shade S m = c m := by
  have hml : m ≠ l := by
    rintro rfl
    exact not_mem_finished (.inl hl) hm
  have hpaint : c.paint l .black m = c m := paint_of_ne hml c .black
  rw [shade_of_finished, hpaint]
  rw [finished, Set.mem_ofPred_eq, hpaint]
  exact hm

theorem mark_self (c : Coloring) (l : Location) (S : Set Location) :
    (c.paint l .black).shade S l = some .black := by
  rw [shade_paint (by simp), paint_self]

/-- The cells that are left are some of those that were. -/
theorem unfinished_of_mark (hm : m ∈ ((c.paint l .black).shade S).unfinished) : m ∈ c.unfinished := by
  have hml : m ≠ l := by
    rintro rfl
    rw [unfinished, Set.mem_ofPred_eq, mark_self] at hm
    simp at hm
  have hpaint : c.paint l .black m = c m := paint_of_ne hml c .black
  rw [unfinished, Set.mem_ofPred_eq, shade, hpaint] at hm
  split at hm
  · next hw => exact .inr hw.1
  · exact hm

theorem Marks.finished_subset {refs : Location → Set Location} (h : Marks refs n c c') :
    c.finished ⊆ c'.finished := by
  induction h with
  | done => exact fun _ hm => hm
  | @next n c c' l hl _ ih =>
    intro m hm
    refine ih ?_
    rw [finished, Set.mem_ofPred_eq, mark_of_finished hl hm]
    exact hm

end Coloring

namespace Heap

variable {h : Heap} {op : Operation Value} {r : Except HeapError Result} {c : Coloring}

/-- **Only a sweep or a collection takes back that a cell is finished.** -/
theorem Recolors.finished_subset (he : h.Recolors op r c)
    (hop : op = .sweep ∨ op = .collect → ∃ e, r = .error e) : h.coloring.finished ⊆ c.finished := by
  cases he with
  | refused | rootAgain | unrootOne | setOther | startCycle => exact fun _ hl => hl
  | cons hspare => exact Coloring.finished_subset_paint (.inl hspare)
  | rootedCons | rootFirst =>
    exact (Coloring.finished_subset_shade _ _).trans (Coloring.finished_subset_paint (.inr (.inr rfl)))
  | list hgains | listRefused hgains => exact hgains.finished_subset
  | unrootLast => exact Coloring.finished_subset_paint (.inr (.inl rfl))
  | setGuarded | shade => exact Coloring.finished_subset_shade _ _
  | scan hmarks => exact hmarks.finished_subset
  | sweep =>
    obtain ⟨e, he⟩ := hop (.inl rfl)
    cases he
  | collect =>
    obtain ⟨e, he⟩ := hop (.inr rfl)
    cases he

/-! ## The cells that a scan takes -/

/-- The cells that a scan takes, in that order. -/
def scanned : Nat → Heap → List Location
  | 0, _ => []
  | budget + 1, h =>
    match onTables Tables.blacken h with
    | .ok (some l) h₁ => l :: scanned budget (Outcome.state (shadeContents l h₁))
    | _ => []

/-- A scan returns the number of the cells that it takes. Each of them was unfinished, is taken once, and is
black afterwards. Finished cells keep their colour. -/
theorem scanned_ok (budget : Nat) : ∀ {h : Heap} (done : Nat), h.tables.Sound →
    ∃ h', scanFrom done budget h = .ok (done + (scanned budget h).length) h' ∧
      (∀ l ∈ h.coloring.finished, h'.coloring l = h.coloring l) ∧ (scanned budget h).Nodup ∧
      ∀ l ∈ scanned budget h, l ∈ h.coloring.unfinished ∧ h'.coloring l = some .black := by
  induction budget with
  | zero => exact fun {h} _ _ => ⟨h, rfl, fun _ _ => rfl, List.nodup_nil, fun _ hl => absurd hl List.not_mem_nil⟩
  | succ budget ih =>
    intro h done hs
    rcases blacken_cases hs with ⟨hok, -⟩ | ⟨h₁, h₂, l, hok₁, hok₂, hl, hb⟩
    · have hnil : scanned (budget + 1) h = [] := by rw [scanned, hok]
      rw [hnil]
      refine ⟨h, ?_, fun _ _ => rfl, List.nodup_nil, fun _ hl => absurd hl List.not_mem_nil⟩
      rw [scanFrom, bind_ok hok]
      rfl
    · obtain ⟨h', hok, hkept, hnodup, hmem⟩ := ih (done + 1) hb.sound
      have hcons : scanned (budget + 1) h = l :: scanned budget h₂ := by
        simp only [scanned, hok₁, hok₂, Outcome.state]
      have hl : h.coloring l = some .grey := hl
      -- the colours after one turn of the loop
      have hcolor : h₂.coloring = (h.coloring.paint l .black).shade ((h.view.paint l (some .black)).refs l) :=
        congrArg View.color hb.view
      have hself : h₂.coloring l = some .black := by rw [hcolor, Coloring.mark_self]
      rw [hcons]
      refine ⟨h', ?_, ?_, List.nodup_cons.2 ⟨fun hl' => ?_, hnodup⟩, ?_⟩
      · rw [scanFrom, bind_ok hok₁]
        simp only
        rw [bind_ok hok₂, hok, List.length_cons, show ∀ n, done + 1 + n = done + (n + 1) by omega]
      · intro m hm
        have hfirst : h₂.coloring m = h.coloring m := by rw [hcolor, Coloring.mark_of_finished hl hm]
        rw [hkept m, hfirst]
        rw [Coloring.finished, Set.mem_ofPred_eq, hfirst]
        exact hm
      · exact Coloring.not_mem_finished (hmem l hl').1 (.inl hself)
      · intro m hm
        rcases List.mem_cons.1 hm with rfl | hm
        · exact ⟨.inl hl, by rw [hkept m (.inl hself), hself]⟩
        · obtain ⟨hleft, hblack⟩ := hmem m hm
          rw [hcolor] at hleft
          exact ⟨Coloring.unfinished_of_mark hleft, hblack⟩

end Heap

/-! ## The work of a move -/

/-- What has no success has failed. -/
theorem Outcome.exists_error {ε σ α : Type} {x : EStateM.Result ε σ α} (hx : successes x = 0) :
    ∃ e s, x = .error e s := by
  cases x with
  | ok a s => cases hx
  | error e s => exact ⟨e, s, rfl⟩

namespace Operation

/-- The cells that an operation scans. A collection scans before it sweeps. -/
def scanned (m : Memory) : Operation Value → List Location
  | scan budget => Heap.scanned budget m.heap
  | collect => Heap.scanned Heap.wholeHeap m.heap
  | _ => []

/-- The number of cells that the scan of an operation returns. -/
def marked (m : Memory) : Operation Value → Nat
  | scan budget => Outcome.number (Memory.onHeap (Heap.scan budget) m)
  | collect => Outcome.number (Memory.onHeap (Heap.scan Heap.wholeHeap) m)
  | _ => 0

/-- One for an operation that ends a cycle: a sweep or a collection that is not refused. -/
def sweeps (m : Memory) : Operation Value → Nat
  | sweep => Outcome.successes (Memory.onHeap Heap.sweep m)
  | collect => Outcome.successes (Memory.onHeap Heap.collect m)
  | _ => 0

end Operation

/-- The cells that are scanned in a move. -/
def Move.scanned (m : Memory) : Move → List Location
  | operate op => op.scanned m
  | _ => []

namespace Memory

variable {m : Memory} {mv : Move} {moves : List Move} {l : Location}

/-- The cells that are scanned in a run, in that order. -/
def scannedIn : Memory → List Move → List Location
  | _, [] => []
  | m, mv :: moves => mv.scanned m ++ scannedIn (mv.after m) moves

/-- The cells that a scan on the heap takes are as many as it returns. -/
theorem Good.number_scan (hg : m.Good) (budget : Nat) :
    Outcome.number (onHeap (Heap.scan budget) m) = (Heap.scanned budget m.heap).length := by
  obtain ⟨h', hok, -⟩ := Heap.scanned_ok budget 0 hg.sound
  rw [Nat.zero_add] at hok
  have hrun : onHeap (Heap.scan budget) m = .ok _ ⟨h', m.ledger⟩ := onHeap_ok hok
  rw [hrun, Outcome.number]

/-- The cells that a move scans are as many as are returned, each is taken once, and was unfinished. -/
theorem Good.scanned_spec (hg : m.Good) (mv : Move) :
    (mv.scanned m).length = mv.counted Operation.marked m ∧ (mv.scanned m).Nodup ∧
      ∀ l ∈ mv.scanned m, l ∈ m.heap.coloring.unfinished := by
  have hscan : ∀ budget, (Heap.scanned budget m.heap).Nodup ∧
      ∀ l ∈ Heap.scanned budget m.heap, l ∈ m.heap.coloring.unfinished := by
    intro budget
    obtain ⟨h', -, -, hnodup, hmem⟩ := Heap.scanned_ok budget 0 hg.sound
    exact ⟨hnodup, fun l hl => (hmem l hl).1⟩
  have hnone : ([] : List Location).length = 0 ∧ ([] : List Location).Nodup ∧
      ∀ l ∈ ([] : List Location), l ∈ m.heap.coloring.unfinished :=
    ⟨rfl, List.nodup_nil, fun _ hl => absurd hl List.not_mem_nil⟩
  cases mv with
  | operate op =>
    cases op with
    | scan budget => exact ⟨(hg.number_scan budget).symm, hscan budget⟩
    | collect => exact ⟨(hg.number_scan Heap.wholeHeap).symm, hscan Heap.wholeHeap⟩
    | _ => exact hnone
  | _ => exact hnone

/-- A move that does not end the cycle has no sweep that answers. -/
theorem Good.refused_of_sweeps (hg : m.Good) {op : Operation Value} (hnone : op.sweeps m = 0) :
    op ≠ .collect ∧ (op = .sweep → ∃ e m', onHeap Heap.sweep m = .error e m') := by
  constructor
  · rintro rfl
    -- a collection is never refused
    obtain ⟨h', n, -, hok, -⟩ := Heap.collect_ok hg.sound
    obtain ⟨e, m', herr⟩ := Outcome.exists_error hnone
    have hrun : onHeap Heap.collect m = .ok n ⟨h', m.ledger⟩ := onHeap_ok hok
    rw [hrun] at herr
    cases herr
  · rintro rfl
    exact Outcome.exists_error hnone

/-- In a move that does not end the cycle, what is finished stays so, and what is scanned becomes so. -/
theorem Good.finished_after (hg : m.Good) (hnone : mv.counted Operation.sweeps m = 0) :
    m.heap.coloring.finished ⊆ (mv.after m).heap.coloring.finished ∧
      ∀ l ∈ mv.scanned m, l ∈ (mv.after m).heap.coloring.finished := by
  by_cases hmv : ∃ op, mv = .operate op
  · obtain ⟨op, rfl⟩ := hmv
    obtain ⟨hcollect, hsweep⟩ := hg.refused_of_sweeps hnone
    obtain ⟨r, w, hb, he, hanswer⟩ := after_operate hg.sound op
    have hcolor : ((Move.operate op).after m).heap.coloring = w.color := congrArg View.color hb.view
    refine ⟨?_, ?_⟩
    · rw [hcolor]
      refine (hg.recolors he).finished_subset ?_
      rintro (rfl | rfl)
      · obtain ⟨e, m', herr⟩ := hsweep rfl
        rw [Operation.run, map_error herr] at hanswer
        cases r with
        | ok a => cases hanswer
        | error e => exact ⟨e, rfl⟩
      · exact absurd rfl hcollect
    · cases op with
      | scan budget =>
        intro l hl
        obtain ⟨h', hok, -, -, hmem⟩ := Heap.scanned_ok budget 0 hg.sound
        have hrun : onHeap (Heap.scan budget) m = .ok _ ⟨h', m.ledger⟩ := onHeap_ok hok
        rw [Move.operate_after, Operation.run, Outcome.state_map, hrun]
        exact .inl (hmem l hl).2
      | collect => exact absurd rfl hcollect
      | _ => exact fun _ hl => absurd hl List.not_mem_nil
  · obtain ⟨-, hview⟩ := after_of_ne_operate hg.sound (not_exists.1 hmv)
    have hcolor : (mv.after m).heap.coloring = m.heap.coloring := congrArg View.color hview
    refine ⟨by rw [hcolor], ?_⟩
    cases mv with
    | operate op => exact absurd ⟨op, rfl⟩ hmv
    | _ => exact fun _ hl => absurd hl List.not_mem_nil

/-- A move that does not end the cycle reclaims nothing. -/
theorem Good.reclaimed_of_sweeps (hg : m.Good) (hnone : mv.counted Operation.sweeps m = 0) :
    mv.counted Operation.reclaimed m = 0 := by
  cases mv with
  | operate op =>
    have hnone : op.sweeps m = 0 := hnone
    obtain ⟨hcollect, hsweep⟩ := hg.refused_of_sweeps hnone
    cases op with
    | sweep =>
      obtain ⟨e, m', herr⟩ := hsweep rfl
      rw [Move.counted, Operation.reclaimed, herr, Outcome.number]
    | collect => exact absurd rfl hcollect
    | _ => rfl
  | _ => rfl

/-- What a move scans was unfinished. -/
theorem Good.marked_le (hg : m.Good) (mv : Move) :
    mv.counted Operation.marked m ≤ m.heap.coloring.unfinished.ncard := by
  obtain ⟨hlen, hnodup, hmem⟩ := hg.scanned_spec mv
  rw [← hlen, ← ncard_eq_length (S := {l | l ∈ mv.scanned m}) hnodup fun _ => Iff.rfl]
  exact Set.ncard_le_ncard hmem (Set.toFinite _)

/-- What a move scans that does not end the cycle is finished more than before. -/
theorem Good.ncard_finished_after (hg : m.Good) (hnone : mv.counted Operation.sweeps m = 0) :
    m.heap.coloring.finished.ncard + mv.counted Operation.marked m ≤
      (mv.after m).heap.coloring.finished.ncard := by
  obtain ⟨hlen, hnodup, hmem⟩ := hg.scanned_spec mv
  obtain ⟨hkept, hnew⟩ := hg.finished_after hnone
  have hdisjoint : Disjoint m.heap.coloring.finished {l | l ∈ mv.scanned m} :=
    Set.disjoint_right.2 fun l hl => Coloring.not_mem_finished (hmem l hl)
  rw [← hlen, ← ncard_eq_length (S := {l | l ∈ mv.scanned m}) hnodup fun _ => Iff.rfl,
    ← Set.ncard_union_eq hdisjoint (Set.toFinite _) (Set.toFinite _)]
  exact Set.ncard_le_ncard (Set.union_subset hkept hnew) (Set.toFinite _)

/-- The unfinished cells and the new ones pay for what a move scans that does not end the cycle. -/
theorem Good.work_after (hg : m.Good) (hnone : mv.counted Operation.sweeps m = 0) :
    (mv.after m).heap.coloring.unfinished.ncard + mv.counted Operation.marked m ≤
      m.heap.coloring.unfinished.ncard + mv.counted Operation.created m := by
  have hcensus := hg.census_after mv
  have hfinished := hg.ncard_finished_after hnone
  have hbefore : m.population = _ := Coloring.population_eq_add m.heap.coloring
  have hafter : (mv.after m).population = _ := Coloring.population_eq_add (mv.after m).heap.coloring
  rw [hg.reclaimed_of_sweeps hnone] at hcensus
  omega

/-! ## The work of a run -/

theorem runs_append (m : Memory) (first rest : List Move) : m.runs (first ++ rest) = (m.runs first).runs rest :=
  List.foldl_append

theorem total_append (f : Memory → Operation Value → Nat) (first rest : List Move) :
    ∀ m, total f m (first ++ rest) = total f m first + total f (m.runs first) rest := by
  induction first with
  | nil =>
    intro m
    rw [List.nil_append, total, Nat.zero_add]
    rfl
  | cons mv first ih =>
    intro m
    rw [List.cons_append, total, total, ih, Nat.add_assoc]
    rfl

/-- In a run within a cycle, what is finished stays so. -/
theorem Good.finished_runs (hg : m.Good) (hnone : total Operation.sweeps m moves = 0) :
    m.heap.coloring.finished ⊆ (m.runs moves).heap.coloring.finished := by
  induction moves generalizing m with
  | nil => exact fun _ hl => hl
  | cons mv moves ih =>
    obtain ⟨hfirst, hrest⟩ := Nat.add_eq_zero_iff.1 hnone
    exact (hg.finished_after hfirst).1.trans (ih (hg.after mv) hrest)

section Cycle

variable (last : Move)

/-- The scans of a cycle return as many cells as they take. -/
theorem Good.length_scannedIn (hg : m.Good) (moves : List Move) :
    (scannedIn m moves).length = total Operation.marked m moves := by
  induction moves generalizing m with
  | nil => rfl
  | cons mv moves ih => rw [scannedIn, total, List.length_append, (hg.scanned_spec mv).1, ih (hg.after mv)]

/-- No cell is scanned in a cycle that was finished when it began. -/
theorem Good.not_finished_of_scannedIn (hg : m.Good) (hnone : total Operation.sweeps m moves = 0) :
    ∀ l ∈ scannedIn m (moves ++ [last]), l ∉ m.heap.coloring.finished := by
  induction moves generalizing m with
  | nil =>
    intro l hl
    rw [List.nil_append, scannedIn, scannedIn, List.append_nil] at hl
    exact Coloring.not_mem_finished ((hg.scanned_spec last).2.2 l hl)
  | cons mv moves ih =>
    obtain ⟨hfirst, hrest⟩ := Nat.add_eq_zero_iff.1 hnone
    intro l hl
    rcases List.mem_append.1 hl with hl | hl
    · exact Coloring.not_mem_finished ((hg.scanned_spec mv).2.2 l hl)
    · exact fun hf => ih (hg.after mv) hrest l hl ((hg.finished_after hfirst).1 hf)

/-- No cell is scanned twice in a cycle. -/
theorem Good.nodup_scannedIn (hg : m.Good) (hnone : total Operation.sweeps m moves = 0) :
    (scannedIn m (moves ++ [last])).Nodup := by
  induction moves generalizing m with
  | nil =>
    rw [List.nil_append, scannedIn, scannedIn, List.append_nil]
    exact (hg.scanned_spec last).2.1
  | cons mv moves ih =>
    obtain ⟨hfirst, hrest⟩ := Nat.add_eq_zero_iff.1 hnone
    have hg' := hg.after mv
    rw [List.cons_append, scannedIn]
    -- what the first move scans is finished when the others begin
    refine (hg.scanned_spec mv).2.1.append (ih hg' hrest) fun l hl hl' => ?_
    exact hg'.not_finished_of_scannedIn last hrest l hl' ((hg.finished_after hfirst).2 l hl)

/-- The unfinished cells and the new ones pay for what is scanned in a cycle. -/
theorem Good.work_runs (hg : m.Good) (hnone : total Operation.sweeps m moves = 0) :
    total Operation.marked m (moves ++ [last]) ≤
      m.heap.coloring.unfinished.ncard + total Operation.created m (moves ++ [last]) := by
  induction moves generalizing m with
  | nil =>
    have hlast := hg.marked_le last
    rw [List.nil_append, total, total, total, total]
    omega
  | cons mv moves ih =>
    obtain ⟨hfirst, hrest⟩ := Nat.add_eq_zero_iff.1 hnone
    have hmove := hg.work_after hfirst
    have hmoves := ih (hg.after mv) hrest
    rw [List.cons_append, total, total]
    omega

end Cycle

/-- The unfinished cells are those of the grey and the white zone. -/
theorem Good.ncard_unfinished {o : Occupancy} (hg : m.Good) (ho : m.heap.occupancy = .ok o) :
    m.heap.coloring.unfinished.ncard = o.grey + o.white := by
  obtain ⟨greys, hng, hlg, hgreys⟩ := hg.sound.exists_greys
  obtain ⟨whites, hnw, hlw, hwhites⟩ := hg.sound.exists_whites
  have hapart : greys.Disjoint whites := by
    intro l hl hl'
    have hboth := ((hgreys l).1 hl).symm.trans ((hwhites l).1 hl')
    cases hboth
  rw [hg.occupancy_eq] at ho
  cases ho
  simp only
  rw [ncard_eq_length (hng.append hnw hapart), List.length_append, hlg, hlw]
  intro l
  rw [List.mem_append, hgreys, hwhites]
  rfl

/-- **After any run, let more moves follow, none of which is a sweep or a collection that answers, and one
last move, which may be one. A cell that is black or a root at some time stays one of both until the last
move. No cell is scanned twice. The scans, with that of a collection at the end, return as many as they
take, and that is at most the number of grey and white cells at first and of the cells made since then.** -/
theorem cells_are_scanned_once (id : UInt32) (sizing : Sizing) (ledger : Ledger) (before during : List Move)
    (last : Move)
    (hnone : total Operation.sweeps ((start id sizing ledger).runs before) during = 0) :
    let m := (start id sizing ledger).runs before
    let cycle := during ++ [last]
    (∀ first rest, during = first ++ rest →
      (m.runs first).heap.coloring.finished ⊆ (m.runs during).heap.coloring.finished) ∧
    (scannedIn m cycle).Nodup ∧ (scannedIn m cycle).length = total Operation.marked m cycle ∧
    ∃ o, m.heap.occupancy = .ok o ∧
      total Operation.marked m cycle ≤ o.grey + o.white + total Operation.created m cycle := by
  intro m cycle
  have hg : m.Good := good_runs id sizing ledger before
  obtain ⟨o, ho⟩ := hg.occupancy_ok
  refine ⟨?_, hg.nodup_scannedIn last hnone, hg.length_scannedIn cycle, o, ho, ?_⟩
  · rintro first rest rfl
    rw [total_append] at hnone
    rw [runs_append]
    exact (hg.runs first).finished_runs (Nat.add_eq_zero_iff.1 hnone).2
  · rw [← hg.ncard_unfinished ho]
    exact hg.work_runs last hnone

/-- A cell is grey while a root refers to it, so the sweep is refused. It is scanned, and neither the loss of
the root nor the collection at the end scans it again. -/
theorem grey_child_is_scanned_once :
    let m := (start 0 ⟨2, 1, none⟩ .empty).runs [.operate (.cons .cons .nil .nil)]
    let during : List Move :=
      [.operate (.rootedCons .cons (.cons .cons ⟨0, ⟨0, 0⟩, 1⟩) .nil), .operate .sweep,
        .operate (.scan 1), .operate (.unroot (.cons .cons ⟨0, ⟨0, 1⟩, 1⟩))]
    let cycle := during ++ [.operate .collect]
    total Operation.sweeps m during = 0 ∧ scannedIn m cycle = [⟨0, 0⟩] ∧
      (m.runs during).heap.tables.color? ⟨0, 1⟩ = some .black ∧
      ∃ o, m.heap.occupancy = .ok o ∧
        total Operation.marked m cycle ≤ o.grey + o.white + total Operation.created m cycle := by
  intro m during cycle
  have hnone : total Operation.sweeps m during = 0 := by decide +kernel
  obtain ⟨-, -, -, hbound⟩ := cells_are_scanned_once 0 ⟨2, 1, none⟩ .empty
    [.operate (.cons .cons .nil .nil)] during (.operate .collect) hnone
  exact ⟨hnone, by decide +kernel, by decide +kernel, hbound⟩

end Memory

end ConsHeap
