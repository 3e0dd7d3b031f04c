import ConsHeap.Proofs.Alike.Hosts
import ConsHeap.Proofs.Script.Heaps

/-!
# Sizes are only tuning

Two hosts are given the same commands. Their heaps differ in the sizes of pages and in the limits on them, and the
system may give other memory to each. As long as no command fails for want of memory on either side, all outcomes
are the same, up to a renaming of locations and up to the sizes of tables.

* `Deed.Resized`: the same deed with other sizes.
* `Outcome.isStarved`, `Host.history`: a step that failed for want of memory, and all steps of a run.
* `Outcome.Alike`, `Host.Matches`: the same outcome, and the same state.
* `Host.Alike.step`: what one deed keeps.
* `Host.sizes_are_tuning`: **all steps of both runs are the same.**
-/

namespace ConsHeap

variable {M N : Renaming} {id : UInt32}

namespace Heap

/-- Cells that go together and hold the same, in the same state. -/
def Pairs (M : Renaming) (id : UInt32) (h g : Heap) (l m : Location) : Prop :=
  M id l m ∧ ∃ c d, h.cell? l = some c ∧ g.cell? m = some d ∧ c.Alike M d

/-- The same boundaries and the same number of roots, and the same cells in the slots and entries of both tables, as
far as both have them. -/
structure Matches (M : Renaming) (id : UInt32) (h g : Heap) : Prop where
  level : h.tables.zones.Level g.tables.zones
  live : h.tables.roots.live = g.tables.roots.live
  slot : ∀ {i : Nat} {l m}, h.tables.zones.slots[i]? = some l → g.tables.zones.slots[i]? = some m → Pairs M id h g l m
  entry : ∀ {i : Nat} {e f : RootEntry}, h.tables.roots.entries[i]? = some e → g.tables.roots.entries[i]? = some f →
    Pairs M id h g e.location f.location ∧ e.count = f.count

variable {h g : Heap}

theorem Pairs.mono {l m : Location} (hlm : Pairs M id h g l m) (hle : M.Le N) : Pairs N id h g l m := by
  obtain ⟨hM, c, d, hc, hd, hcd⟩ := hlm
  exact ⟨hle _ _ _ hM, c, d, hc, hd, hcd.mono hle⟩

theorem Matches.mono (hhg : h.Matches M id g) (hle : M.Le N) : h.Matches N id g :=
  ⟨hhg.level, hhg.live, fun hl hm => (hhg.slot hl hm).mono hle, fun he hf => (hhg.entry he hf).imp_left (·.mono hle)⟩

theorem Alike.matches (hhg : h.Alike M id g) : h.Matches M id g where
  level := hhg.tables.level
  live := hhg.tables.live
  slot hl hm := ⟨hhg.tables.slot hl hm, hhg.tables.cell (hhg.tables.slot hl hm)⟩
  entry he hf := (hhg.tables.entry he hf).imp_left fun hM => ⟨hM, hhg.tables.cell hM⟩

end Heap

namespace Script

/-! ## Runs -/

/-- The same command, but for the sizes of a new heap. -/
inductive Command.Resized : Command → Command → Prop where
  | refl (c : Command) : Resized c c
  | newHeap (sizing sizing' : Sizing) : Resized (.newHeap sizing) (.newHeap sizing')

/-- The same deed, but for the sizes of a new heap and for the memory that the system gives. -/
inductive Deed.Resized : Deed → Deed → Prop where
  | command (n : Nat) (target : Option String) {c c' : { c : Command // c.Plain }} :
    c.1.Resized c'.1 → Resized (.command n target c) (.command n target c')
  | supply (n : Nat) (memory memory' : Paging.Supply) : Resized (.supply n memory) (.supply n memory')

namespace Host

/-- What comes of a deed. Memory is supplied without an answer. -/
def outcome (host : Host) : Deed → Outcome
  | .command n target c => (host.step (.once n target c.1)).1
  | .supply _ _ => ⟨.ok .done, []⟩

/-- Holds of the outcomes of steps that failed for want of memory. -/
def Outcome.isStarved (o : Outcome) : Bool :=
  match o.result with
  | .error (.error e) => e.isAllocation
  | _ => false

/-- The same answer or refusal, and the same notes of finalizers, in the same order. -/
structure Outcome.Alike (M : Renaming) (o p : Outcome) : Prop where
  result : Answers (Reply.Alike M) o.result p.result
  notes : o.notes = p.notes

theorem Outcome.Alike.mono {o p : Outcome} (h : o.Alike M p) (hle : M.Le N) : o.Alike N p :=
  ⟨h.result.mono fun _ _ hr => hr.mono hle, h.notes⟩

/-- The outcome of every deed of a run, with the host that it leaves. -/
def history (host : Host) : List Deed → List (Outcome × Host)
  | [] => []
  | d :: deeds => (host.outcome d, d.after host) :: history (d.after host) deeds

/-- The same state, up to a renaming and up to what was never used: the heaps match, the same names stand for
values that go together, all objects have the same counts, and they died in the same order. -/
structure Matches (M : Renaming) (host other : Host) : Prop where
  size : host.heaps.size = other.heaps.size
  heap : ∀ {n : Nat} {h g}, host.heaps[n]? = some h → other.heaps[n]? = some g →
    h.Matches M (UInt32.ofNat n) g
  bindings : host.bindings.Matched (Value.Alike M) other.bindings
  ledger : host.ledger.outline = other.ledger.outline

theorem Matches.mono {host other : Host} (h : host.Matches M other) (hle : M.Le N) : host.Matches N other :=
  ⟨h.size, fun hn hn' => (h.heap hn hn').mono hle, h.bindings.mono fun _ _ hv => hv.mono hle, h.ledger⟩

theorem Alike.matches {host other : Host} (hh : host.Alike M other) : host.Matches M other :=
  ⟨hh.size, fun hn hn' => (hh.heap hn hn').matches, hh.bindings, hh.ledger⟩

/-- Hosts with one new heap each are alike. -/
theorem alike_new (sizing sizing' : Sizing) : (Host.new sizing).Alike .none (Host.new sizing') where
  oneToOne := fun _ _ _ _ _ hl => hl.elim
  size := rfl
  size_le := show 1 ≤ UInt32.size by decide
  next := rfl
  next' := rfl
  fresh := fun _ hl => hl
  heap := by
    rintro (_ | n) h g hn hg
    · cases hn
      cases hg
      exact .new (fun _ _ hl => hl) sizing sizing'
    · cases hn
  bindings := .nil
  ledger := rfl

/-! ## One step -/

variable {host other : Host} {d d' : Deed}

/-- A step on a host answers or is refused as the command is, and takes the notes that were written meanwhile. -/
theorem outcome_command (host : Host) (n : Nat) (target : Option String) (c : { c : Command // c.Plain }) :
    host.outcome (.command n target c) =
      ⟨Outcome.answer (host.perform n target c.1),
        (Outcome.state (host.perform n target c.1)).ledger.notesFrom host.ledger.log.size⟩ := by
  rw [outcome, step, runStep]
  cases perform n target c.1 host <;> rfl

/-- A failure of a command that is neither a fault nor for want of memory counts. -/
theorem not_excused {r : EStateM.Result (Failure Error) Host Reply} {e : Failure Error} {notes : List String}
    (hproper : ∀ f, Outcome.answer r ≠ .error (.fault f)) (hfed : Outcome.isStarved ⟨Outcome.answer r, notes⟩ = false)
    (he : Outcome.answer r = .error e) : ¬ e.Excused Error.Starved := by
  cases e with
  | error e =>
    simp only [Outcome.isStarved, he] at hfed
    rw [Failure.Excused, Error.Starved, hfed]
    simp
  | fault f => exact absurd he (hproper f)

/-- The same command on both hosts, or a new heap with other sizes. -/
theorem Alike.command (hh : host.Alike M other) (hc : host.Counted []) (hc' : other.Counted []) (n : Nat)
    (target : Option String) {c c' : Command} (hplain : c.Plain) (hresized : c.Resized c')
    (hroom : (Outcome.state (host.perform n target c)).heaps.size ≤ UInt32.size) :
    Host.Agrees M n (fun N => Reply.Alike N) (host.perform n target c) (other.perform n target c') := by
  cases hresized with
  | refl => exact hh.perform hc hc' target hplain hroom
  | newHeap sizing sizing' =>
    have hfits : (host.addHeap sizing).heaps.size ≤ UInt32.size := hroom
    rw [size_addHeap] at hfits
    exact hh.newHeap hfits target sizing sizing'

/-- Deeds that differ in sizes go the same way, unless one of them fails for want of memory. -/
theorem Alike.step (hh : host.Alike M other) (hc : host.Counted []) (hc' : other.Counted []) (hd : d.Resized d')
    (hroom : (d.after host).heaps.size ≤ UInt32.size) (hfed : (host.outcome d).isStarved = false)
    (hfed' : (other.outcome d').isStarved = false) :
    ∃ N, M.Le N ∧ (host.outcome d).Alike N (other.outcome d') ∧ (d.after host).Alike N (d'.after other) := by
  cases hd with
  | supply n memory memory' => exact ⟨M, .refl M, ⟨.ok .done, rfl⟩, hh.supplied n memory memory'⟩
  | command n target hresized =>
    rename_i c c'
    rw [Deed.after, step_once] at hroom
    have hagree := hh.command hc hc' n target c.2 hresized hroom
    have hproper : ∀ f, Outcome.answer (host.perform n target c.1) ≠ .error (.fault f) := (hc.perform c.2).proper
    have hproper' : ∀ f, Outcome.answer (other.perform n target c'.1) ≠ .error (.fault f) := (hc'.perform c'.2).proper
    have hstart : host.ledger.log.size = other.ledger.log.size := by
      rw [← Ledger.size_log_outline, hh.ledger, Ledger.size_log_outline]
    rw [outcome_command] at hfed hfed'
    rw [outcome_command, outcome_command, Deed.after, Deed.after, step_once, step_once, hstart]
    have hnotes : ∀ {N} {t t' : Host}, t.Alike N t' →
        t.ledger.notesFrom other.ledger.log.size = t'.ledger.notesFrom other.ledger.log.size := by
      intro N t t' ht
      rw [← Ledger.notesFrom_outline, ht.ledger, Ledger.notesFrom_outline]
    -- a failure on one side alone would be a fault or for want of memory
    generalize host.perform n target c.1 = r at *
    generalize other.perform n target c'.1 = r' at *
    cases r with
    | ok reply t =>
      cases r' with
      | ok reply' t' =>
        obtain ⟨N, hMN, ht, hreply⟩ := hagree
        exact ⟨N, hMN.le, ⟨.ok hreply, hnotes ht⟩, ht⟩
      | error f t' => exact absurd hagree (not_excused hproper' hfed' rfl)
    | error e t =>
      cases r' with
      | ok reply' t' => exact absurd hagree (not_excused hproper hfed rfl)
      | error f t' =>
        rcases hagree with he | hf | ⟨rfl, N, hMN, ht⟩
        · exact absurd he (not_excused hproper hfed rfl)
        · exact absurd hf (not_excused hproper' hfed' rfl)
        · exact ⟨N, hMN.le, ⟨.error e, hnotes ht⟩, ht⟩

/-! ## Runs -/

/-- Runs from alike hosts go the same way. The renaming grows with every step, so that the last one serves for all. -/
theorem Alike.history {deeds deeds' : List Deed} (hh : host.Alike M other) (hc : host.Counted [])
    (hc' : other.Counted []) (hdeeds : List.Forall₂ Deed.Resized deeds deeds')
    (hroom : host.heaps.size + deeds.countP Deed.makesHeap ≤ UInt32.size)
    (hfed : ∀ x ∈ host.history deeds, x.1.isStarved = false)
    (hfed' : ∀ x ∈ other.history deeds', x.1.isStarved = false) :
    ∃ N, M.Le N ∧ N.OneToOne ∧
      List.Forall₂ (fun x y => x.1.Alike N y.1 ∧ x.2.Matches N y.2) (host.history deeds) (other.history deeds') := by
  induction hdeeds generalizing M host other with
  | nil => exact ⟨M, .refl M, hh.oneToOne, .nil⟩
  | @cons d _ deeds _ hd _ ih =>
    obtain ⟨hfirst, hrest⟩ := List.forall_mem_cons.1 hfed
    obtain ⟨hfirst', hrest'⟩ := List.forall_mem_cons.1 hfed'
    rw [List.countP_cons] at hroom
    have hsize := (host.changes d).size_le
    obtain ⟨N, hMN, houtcome, hnext⟩ := hh.step hc hc' hd (by omega) hfirst hfirst'
    obtain ⟨K, hNK, hone, hhistory⟩ := ih hnext (hc.deed _).1 (hc'.deed _).1 (by omega) hrest hrest'
    exact ⟨K, hMN.trans hNK, hone, .cons ⟨houtcome.mono hNK, hnext.matches.mono hNK⟩ hhistory⟩

/-- **Sizes are only tuning.** Two hosts start with heaps of any two sizings and are given the same commands. If no
command fails for want of memory in either of them, every command has the same outcome in both, and leaves the same
boundaries, root numbers, counts and deaths of objects, up to one renaming of locations for the whole run. Only the
sizes of tables may differ, and what depends on them when it is asked for. Further heaps may be made as well, as long
as there are identities for them: two heaps of one identity would answer for the same handles. -/
theorem sizes_are_tuning (sizing sizing' : Sizing) {deeds deeds' : List Deed}
    (hdeeds : List.Forall₂ Deed.Resized deeds deeds')
    (hheaps : deeds.countP Deed.makesHeap < UInt32.size)
    (hfed : ∀ x ∈ (Host.new sizing).history deeds, x.1.isStarved = false)
    (hfed' : ∀ x ∈ (Host.new sizing').history deeds', x.1.isStarved = false) :
    ∃ M : Renaming, M.OneToOne ∧ List.Forall₂ (fun x y => x.1.Alike M y.1 ∧ x.2.Matches M y.2)
      ((Host.new sizing).history deeds) ((Host.new sizing').history deeds') := by
  have hroom : (Host.new sizing).heaps.size + deeds.countP Deed.makesHeap ≤ UInt32.size := by
    rw [Nat.add_comm]
    exact hheaps
  obtain ⟨M, -, hone, hhistory⟩ :=
    (alike_new sizing sizing').history (counted_start 0 sizing) (counted_start 0 sizing') hdeeds hroom hfed hfed'
  exact ⟨M, hone, hhistory⟩

/-- A root that comes and goes, on a host that gets a second heap meanwhile. -/
def cameAndWent (sizing : Sizing) : List Deed :=
  [.command 0 (some "text") ⟨.text "ab", by simp [Command.operands], by simp⟩,
    .command 0 (some "tail") ⟨.act (.cons .cons (.named "text") (.literal .nil)),
      by simp [Command.operands, Operation.operands], by simp⟩,
    .command 0 (some "whole") ⟨.act (.rootedCons .cons (.named "text") (.named "tail")),
      by simp [Command.operands, Operation.operands], by simp⟩,
    .command 0 none ⟨.newHeap sizing, by simp [Command.operands], by simp⟩,
    .command 1 none ⟨.act (.list [.named "text", .named "text"]),
      by simp [Command.operands, Operation.operands], by simp⟩,
    .command 0 none ⟨.act (.unroot (.named "whole")), by simp [Command.operands, Operation.operands], by simp⟩,
    .command 0 none ⟨.act .collect, by simp [Command.operands, Operation.operands], by simp⟩,
    .command 0 none ⟨.color (.named "tail"), by simp [Command.operands], by simp⟩]

/-- The tables grow by one cell and one root on one side. On the other side they have room for all from the start. -/
theorem came_and_went_alike :
    List.Forall₂ Deed.Resized (cameAndWent ⟨1, 1, none⟩) (cameAndWent ⟨4, 2, some 9⟩) ∧
      (cameAndWent ⟨1, 1, none⟩).countP Deed.makesHeap < UInt32.size ∧
      (∀ x ∈ (Host.new ⟨1, 1, none⟩).history (cameAndWent ⟨1, 1, none⟩), x.1.isStarved = false) ∧
      (∀ x ∈ (Host.new ⟨4, 2, some 9⟩).history (cameAndWent ⟨4, 2, some 9⟩), x.1.isStarved = false) ∧
      ∃ M : Renaming, M.OneToOne ∧ List.Forall₂ (fun x y => x.1.Alike M y.1 ∧ x.2.Matches M y.2)
        ((Host.new ⟨1, 1, none⟩).history (cameAndWent ⟨1, 1, none⟩))
        ((Host.new ⟨4, 2, some 9⟩).history (cameAndWent ⟨4, 2, some 9⟩)) := by
  have hdeeds : List.Forall₂ Deed.Resized (cameAndWent ⟨1, 1, none⟩) (cameAndWent ⟨4, 2, some 9⟩) :=
    .cons (.command _ _ (.refl _)) (.cons (.command _ _ (.refl _)) (.cons (.command _ _ (.refl _))
      (.cons (.command _ _ (.newHeap _ _)) (.cons (.command _ _ (.refl _)) (.cons (.command _ _ (.refl _))
        (.cons (.command _ _ (.refl _)) (.cons (.command _ _ (.refl _)) .nil)))))))
  have hheaps : (cameAndWent ⟨1, 1, none⟩).countP Deed.makesHeap < UInt32.size := by decide
  have hfed : ∀ x ∈ (Host.new ⟨1, 1, none⟩).history (cameAndWent ⟨1, 1, none⟩), x.1.isStarved = false := by
    decide +kernel
  have hfed' : ∀ x ∈ (Host.new ⟨4, 2, some 9⟩).history (cameAndWent ⟨4, 2, some 9⟩), x.1.isStarved = false := by
    decide +kernel
  exact ⟨hdeeds, hheaps, hfed, hfed', sizes_are_tuning ⟨1, 1, none⟩ ⟨4, 2, some 9⟩ hdeeds hheaps hfed hfed'⟩

end Host

end Script

end ConsHeap
