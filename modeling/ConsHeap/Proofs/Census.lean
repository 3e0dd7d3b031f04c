import ConsHeap.Proofs.Queries
import ConsHeap.Proofs.View.Population

/-!
# A census of cells

Every cell that was ever made is either live or has been reclaimed. Cells are counted as made by their
makers, and as reclaimed by the answers of sweeps and collections, so the balance does not refer to the
tables.

* `Operation.created`, `Operation.reclaimed`: the cells that an operation makes, and those that it reports
  as reclaimed.
* `Memory.total`: such numbers, summed up along a run.
* `Memory.list_listed`: a list makes the cells that it is said to make, also when it is refused.
* `Memory.Good.census`: what an operation makes and reclaims is the change of the population.
* `Memory.cells_are_conserved`: **after any run, the cells made are those reclaimed and those live, and the
  live ones are those in the zones and in the root table.**
-/

namespace ConsHeap

variable {ε σ α : Type}

/-- One for an answer, none for a failure. -/
def Outcome.successes : EStateM.Result ε σ α → Nat
  | .ok .. => 1
  | .error .. => 0

/-- The number that is answered, and zero for a failure. -/
def Outcome.number : EStateM.Result ε σ Nat → Nat
  | .ok n _ => n
  | .error .. => 0

namespace Memory

/-- The number of cells that a list makes. The cell for the first item is made when those for the others
are there. -/
def listed : List Value → Memory → Nat
  | [], _ => 0
  | item :: items, m => listed items m + Outcome.successes (list (item :: items) m)

/-- The number of live cells. -/
noncomputable def population (m : Memory) : Nat := Coloring.population m.heap.tables.color?

end Memory

namespace Operation

/-- The number of cells that an operation makes in a state. -/
def created (m : Memory) : Operation Value → Nat
  | cons tag car cdr => Outcome.successes (Memory.cons tag car cdr m)
  | rootedCons tag car cdr => Outcome.successes (Memory.rootedCons tag car cdr m)
  | list items => Memory.listed items m
  | _ => 0

/-- The number of cells that an operation reports as reclaimed. -/
def reclaimed (m : Memory) : Operation Value → Nat
  | sweep => Outcome.number (Memory.onHeap Heap.sweep m)
  | collect => Outcome.number (Memory.onHeap Heap.collect m)
  | _ => 0

/-- The other operations make no cell, and reclaim none. -/
theorem counts_of_keepsCells {op : Operation Value} (hop : op.keepsCells = true) (m : Memory) :
    op.created m = 0 ∧ op.reclaimed m = 0 := by
  cases op with
  | cons | rootedCons | list | sweep | collect => cases hop
  | _ => exact ⟨rfl, rfl⟩

end Operation

/-- What an operation counts, when the move is one. -/
def Move.counted (f : Memory → Operation Value → Nat) (m : Memory) : Move → Nat
  | operate op => f m op
  | _ => 0

namespace Memory

variable {m m' : Memory} {v w : View}

/-- What the operations of a run count, each in the state in which it is run. -/
def total (f : Memory → Operation Value → Nat) : Memory → List Move → Nat
  | _, [] => 0
  | m, mv :: moves => mv.counted f m + total f (mv.after m) moves

/-! ## Single operations -/

theorem population_eq (hb : m.heap.Becomes m'.heap w) : m'.population = Coloring.population w.color := by
  rw [← hb.view]
  rfl

/-- A new cell is one more. -/
theorem cons_population (hs : m.heap.tables.Sound) (tag : Tag) (car cdr : Value) :
    (Outcome.state (cons tag car cdr m)).population =
      m.population + Outcome.successes (cons tag car cdr m) := by
  rcases cons_cases hs tag car cdr with ⟨e, m', -, he, hintact⟩ | ⟨m', handle, w, hok, hb, -, -, hc, -⟩
  · rw [he, Outcome.state, population, hintact.heap]
    rfl
  · obtain ⟨hspare, hcolor⟩ := hc.color_eq
    rw [hok, Outcome.state, population_eq hb, hcolor, Coloring.population_paint_new hspare]
    rfl

/-- A new cell that is rooted is one more. -/
theorem rootedCons_population (hs : m.heap.tables.Sound) (tag : Tag) (car cdr : Value) :
    (Outcome.state (rootedCons tag car cdr m)).population =
      m.population + Outcome.successes (rootedCons tag car cdr m) := by
  rcases rootedCons_cases hs tag car cdr with ⟨e, m', -, he, hintact⟩ | ⟨m', handle, w, hok, hb, -, -, hc, -⟩
  · rw [he, Outcome.state, population, hintact.heap]
    rfl
  · obtain ⟨hspare, hcolor⟩ := hc.color_eq
    have hlive : w.color handle.location ≠ none := by
      rw [hcolor, Coloring.paint_self]
      simp
    rw [hok, Outcome.state, population_eq hb, Coloring.population_congr (View.isSome_color_root hlive), hcolor,
      Coloring.population_paint_new hspare]
    rfl

/-- A list makes the cells that it is said to make, also when it is refused on the way. -/
theorem list_population (items : List Value) : ∀ {m : Memory}, m.heap.tables.Sound →
    (Outcome.state (list items m)).population = m.population + listed items m := by
  induction items with
  | nil => exact fun _ => rfl
  | cons item items ih =>
    intro m hs
    have hrest := ih hs
    rw [listed, list_cons]
    rcases list_cases items hs with ⟨e, m', -, -, -, -, -, -, -, herr, -⟩ | ⟨m₁, x, w, hok, -, hb⟩
    · rw [herr] at hrest
      rw [bind_error herr]
      exact hrest
    · rw [hok, Outcome.state] at hrest
      rw [bind_ok hok, cons_population hb.sound, hrest, Nat.add_assoc]

/-- What an action on the heap answers as a number is what has died in it. -/
theorem onHeap_population {act : HeapM Nat} (op : Operation Value)
    (hop : op.run = Result.count <$> onHeap act) (hlist : ∀ items, op ≠ .list items)
    (hs : m.heap.tables.Sound)
    (hdead : ∀ {n w}, m.heap.view.Effect op (.ok (.count n)) w →
      Coloring.population w.color + n = m.population) :
    (Outcome.state (onHeap act m)).population + Outcome.number (onHeap act m) = m.population := by
  obtain ⟨h, ledger⟩ := m
  rcases Operation.heap_act_cases hop hlist hs with ⟨n, h', w, hok, hb, he⟩ | ⟨e, -, he⟩
  · have hpopulation : population ⟨h', ledger⟩ = Coloring.population w.color := population_eq hb
    rw [onHeap_ok hok, Outcome.state, hpopulation]
    exact hdead he
  · rw [onHeap_error he]
    rfl

/-- **The cells that an operation makes are added to those that are live, and those that it reclaims are
taken away.** -/
theorem Good.census (hg : m.Good) (op : Operation Value) :
    (Outcome.state (op.run m)).population + op.reclaimed m = m.population + op.created m := by
  have hs := hg.sound
  by_cases hop : op.keepsCells = true
  · obtain ⟨r, w, hb, he, -⟩ := after_operate hs op
    rw [Move.operate_after] at hb
    obtain ⟨hcreated, hreclaimed⟩ := Operation.counts_of_keepsCells hop m
    rw [hcreated, hreclaimed, population_eq hb, Coloring.population_congr (he.isSome_color hop)]
    rfl
  cases op with
  | cons tag car cdr =>
    rw [Operation.run, Outcome.state_map]
    exact cons_population hs tag car cdr
  | rootedCons tag car cdr =>
    rw [Operation.run, Outcome.state_map]
    exact rootedCons_population hs tag car cdr
  | list items =>
    rw [Operation.run, Outcome.state_map]
    exact list_population items hs
  | sweep =>
    rw [Operation.run, Outcome.state_map]
    refine onHeap_population .sweep rfl (by simp) hs fun he => ?_
    cases he with
    | sweep hend hnodup hls => exact View.population_sweep hend hnodup hls
  | collect =>
    rw [Operation.run, Outcome.state_map]
    refine onHeap_population .collect rfl (by simp) hs fun he => ?_
    cases he with
    | collect hc =>
      obtain ⟨hscans, hend, hnodup, hls⟩ := hc
      -- scanning only changes the colours of live cells
      rw [View.population_sweep hend hnodup hls, Coloring.population_congr hscans.recolored.live]
      rfl
  | _ => exact absurd rfl hop

/-! ## Runs -/

theorem Good.census_after (hg : m.Good) (mv : Move) :
    (mv.after m).population + mv.counted Operation.reclaimed m =
      m.population + mv.counted Operation.created m := by
  by_cases hmv : ∃ op, mv = .operate op
  · obtain ⟨op, rfl⟩ := hmv
    rw [Move.operate_after]
    exact hg.census op
  · obtain ⟨-, hview⟩ := after_of_ne_operate hg.sound (not_exists.1 hmv)
    have hkept : (mv.after m).population = m.population := by
      rw [population, ← Heap.view_color, hview]
      rfl
    rw [hkept]
    cases mv with
    | operate op => exact absurd ⟨op, rfl⟩ hmv
    | _ => rfl

/-- Along a run the population changes by what is made and what is reclaimed. -/
theorem Good.census_runs (hg : m.Good) (moves : List Move) :
    (m.runs moves).population + total Operation.reclaimed m moves =
      m.population + total Operation.created m moves := by
  induction moves generalizing m with
  | nil => rfl
  | cons mv moves ih =>
    have hfirst := hg.census_after mv
    have hrest := ih (hg.after mv)
    rw [total, total]
    show ((mv.after m).runs moves).population + _ = _
    omega

/-- In a new heap nothing is live. -/
theorem population_start (id : UInt32) (sizing : Sizing) (ledger : Ledger) :
    (start id sizing ledger).population = 0 := by
  rw [population, Coloring.population_eq_length List.nodup_nil]
  · rfl
  · intro l
    have hdead : (start id sizing ledger).heap.tables.color? l = none := color_start id sizing ledger l
    simp [hdead]

/-- **After any run from a new heap, the cells that were made are as many as those that sweeps and
collections reported as reclaimed and those that are live. The live ones are the black, the grey, the white
and the rooted cells, each at a location of its own, and the zones fill the cons table.** -/
theorem cells_are_conserved (id : UInt32) (sizing : Sizing) (ledger : Ledger) (moves : List Move) :
    let m := (start id sizing ledger).runs moves
    let made := total Operation.created (start id sizing ledger) moves
    let reclaimed := total Operation.reclaimed (start id sizing ledger) moves
    ∃ o, m.heap.occupancy = .ok o ∧ made = reclaimed + (o.black + o.grey + o.white + o.roots) ∧
      {l | m.heap.tables.color? l ≠ none}.ncard = o.black + o.grey + o.white + o.roots ∧
      o.black + o.gap + o.grey + o.white + o.free = o.capacity := by
  intro m made reclaimed
  have hg : m.Good := good_runs id sizing ledger moves
  have hruns : m.population + reclaimed = made := by
    have h := (good_start id sizing ledger).census_runs moves
    rw [population_start, Nat.zero_add] at h
    exact h
  have hzones := hg.sound.population
  obtain ⟨hgap, hgrey, hwhite, hfree⟩ := hg.sound.zones.ordered
  refine ⟨_, hg.occupancy_eq, ?_, hzones, ?_⟩
  · rw [← hruns, population, hzones, Nat.add_comm]
  · simp only
    omega

end Memory

end ConsHeap
