import ConsHeap.Proofs.Alike.Ledgers
import ConsHeap.Proofs.Alike.Rooting
import ConsHeap.Proofs.Memory.Effects

/-!
# Operations on heaps that differ in size

The values that go in and out of the cells are the same but for locations, and so are the counts of objects.

* `Memory.Alike`: the heaps are alike, and the ledgers have the same outline.
* `Operation.Alike`, `Result.Alike`: the same operation on values that go together, and what it answers.
* `Memory.Alike.cons`, `Memory.Alike.list`, `Memory.Alike.setChild`: cells are made and changed in the same way.
* `Memory.Alike.run`: **every operation goes the same way.**
-/

namespace ConsHeap

variable {M N : Renaming} {n : UInt32} {α β γ δ : Type}

/-! ## Operations -/

/-- The same operation on values that go together. -/
inductive Operation.Alike (R : α → β → Prop) : Operation α → Operation β → Prop where
  | cons {a b : α} {a' b' : β} (tag : Tag) : R a a' → R b b' → Alike R (.cons tag a b) (.cons tag a' b')
  | rootedCons {a b : α} {a' b' : β} (tag : Tag) :
    R a a' → R b b' → Alike R (.rootedCons tag a b) (.rootedCons tag a' b')
  | list {items : List α} {items' : List β} : List.Forall₂ R items items' → Alike R (.list items) (.list items')
  | root {x : α} {x' : β} : R x x' → Alike R (.root x) (.root x')
  | unroot {x : α} {x' : β} : R x x' → Alike R (.unroot x) (.unroot x')
  | setChild {target x : α} {target' x' : β} (side : Side) :
    R target target' → R x x' → Alike R (.setChild side target x) (.setChild side target' x')
  | shade {x : α} {x' : β} : R x x' → Alike R (.shade x) (.shade x')
  | scan (budget : Nat) : Alike R (.scan budget) (.scan budget)
  | startCycle : Alike R .startCycle .startCycle
  | sweep : Alike R .sweep .sweep
  | collect : Alike R .collect .collect

theorem Operation.Alike.mono {R S : α → β → Prop} {op : Operation α} {op' : Operation β} (h : op.Alike R op')
    (hRS : ∀ a b, R a b → S a b) : op.Alike S op' := by
  cases h with
  | cons tag h h' => exact .cons tag (hRS _ _ h) (hRS _ _ h')
  | rootedCons tag h h' => exact .rootedCons tag (hRS _ _ h) (hRS _ _ h')
  | list h => exact .list (h.imp hRS)
  | root h => exact .root (hRS _ _ h)
  | unroot h => exact .unroot (hRS _ _ h)
  | setChild side h h' => exact .setChild side (hRS _ _ h) (hRS _ _ h')
  | shade h => exact .shade (hRS _ _ h)
  | scan budget => exact .scan budget
  | startCycle => exact .startCycle
  | sweep => exact .sweep
  | collect => exact .collect

/-- The same answer, up to a renaming. -/
inductive Result.Alike (M : Renaming) : Result → Result → Prop where
  | done : Alike M .done .done
  | value {v w : Value} : v.Alike M w → Alike M (.value v) (.value w)
  | count (k : Nat) : Alike M (.count k) (.count k)

namespace Memory

/-- Heap `n` and the ledger in two hosts. -/
structure Alike (M : Renaming) (n : UInt32) (m p : Memory) : Prop where
  heap : m.heap.Alike M n p.heap
  ledger : m.ledger.outline = p.ledger.outline

/-- Two actions on heap `n` and the ledger agree, with more locations going together than before. -/
abbrev Agrees (M : Renaming) (n : UInt32) (Q : Renaming → α → β → Prop)
    (r : EStateM.Result (Failure HeapError) Memory α) (r' : EStateM.Result (Failure HeapError) Memory β) : Prop :=
  Onward HeapError.Starved n (fun M => Memory.Alike M n) M Q r r'

namespace Alike

variable {m p : Memory} {v w car car' cdr cdr' : Value} {l l' : Location}

/-! ## Steps -/

theorem onHeap {Q : Renaming → α → β → Prop} {act : HeapM α} {act' : HeapM β} (hm : m.Alike M n p)
    (hact : Onward HeapError.Starved n (fun M => Heap.Alike M n) M Q (act m.heap) (act' p.heap)) :
    Memory.Agrees M n Q (Memory.onHeap act m) (Memory.onHeap act' p) := by
  obtain ⟨h, ledger⟩ := m
  obtain ⟨g, ledger'⟩ := p
  obtain ⟨-, hledger⟩ := hm
  simp only at hact
  simp only [Memory.onHeap]
  cases hh : act h <;> cases hg : act' g <;> rw [hh, hg] at hact
  · obtain ⟨N, hMN, hheap, hQ⟩ := hact
    exact ⟨N, hMN, ⟨hheap, hledger⟩, hQ⟩
  · exact hact
  · exact hact
  · rcases hact with he | hf | ⟨heq, N, hMN, hheap⟩
    · exact .inl he
    · exact .inr (.inl hf)
    · exact .inr (.inr ⟨heq, N, hMN, hheap, hledger⟩)

theorem retain (hm : m.Alike M n p) (hv : v.Alike M w) :
    Memory.Alike M n { m with ledger := m.ledger.retain v } { p with ledger := p.ledger.retain w } :=
  ⟨hm.heap, by rw [Ledger.outline_retain, Ledger.outline_retain, hm.ledger, hv.outline]⟩

theorem release (hm : m.Alike M n p) (hv : v.Alike M w) :
    Memory.Alike M n { m with ledger := m.ledger.release v } { p with ledger := p.ledger.release w } :=
  ⟨hm.heap, by rw [Ledger.outline_release, Ledger.outline_release, hm.ledger, hv.outline]⟩

/-! ## Objects -/

/-- The same object is made. -/
theorem create {b c : Body Value} (hm : m.Alike M n p) (tag : Tag) (finalizer : Option Finalizer) (hbc : b.Alike M c) :
    Memory.Agrees M n (fun N o o' => o.value.Alike N o'.value) (Memory.create tag finalizer b m)
      (Memory.create tag finalizer c p) := by
  have hsize : m.ledger.entries.size = p.ledger.entries.size := by
    rw [← Ledger.size_outline, hm.ledger, Ledger.size_outline]
  refine ⟨M, .refl n M, ⟨hm.heap, ?_⟩, ?_⟩
  · show (m.ledger.create tag finalizer b).2.outline = (p.ledger.create tag finalizer c).2.outline
    rw [(Ledger.outline_create ..).2, (Ledger.outline_create ..).2, hm.ledger, hbc.outline]
  · show (Value.object ⟨m.ledger.entries.size, tag, finalizer⟩ b).Alike M
      (.object ⟨p.ledger.entries.size, tag, finalizer⟩ c)
    rw [hsize]
    exact hbc.object _

theorem standard {b c : Body Value} (hm : m.Alike M n p) (tag : Tag) (hbc : b.Alike M c) :
    Memory.Agrees M n (fun N o o' => o.value.Alike N o'.value) (Memory.standard tag b m) (Memory.standard tag c p) := by
  simp only [Memory.standard, bind_get, hm.heap.kinds]
  exact hm.create tag _ hbc

theorem object {b c : Body Value} (hm : m.Alike M n p) (tag : Tag) (hbc : b.Alike M c) :
    Memory.Agrees M n (fun N o o' => o.value.Alike N o'.value) (Memory.object tag b m) (Memory.object tag c p) := by
  refine (Answers.refl tag.asObject).onward hm ?_
  rintro tag _ rfl
  simp only [bind_get, hm.heap.kinds]
  cases p.heap.kinds.find? tag with
  | none => exact .inr (.inr ⟨rfl, M, .refl n M, hm⟩)
  | some kind => exact hm.create tag _ hbc

/-! ## Cells -/

/-- Values that go together may be stored or are foreign on both sides. -/
theorem checkChild {S : Memory → Memory → Prop} (hm : m.Alike M n p) (hS : S m p) (hv : v.Alike M w) :
    Agree HeapError.Starved S (fun _ m' _ p' => m' = m ∧ p' = p)
      (Memory.onHeap (Heap.checkChild v) m) (Memory.onHeap (Heap.checkChild w) p) := by
  obtain ⟨h, ledger⟩ := m
  obtain ⟨g, ledger'⟩ := p
  have haccepts := hm.heap.accepts hv
  cases hw : g.accepts w with
  | true =>
    rw [onHeap_ok (Heap.checkChild_ok (haccepts.trans hw)), onHeap_ok (Heap.checkChild_ok hw)]
    exact ⟨rfl, rfl⟩
  | false =>
    rw [onHeap_error (Heap.checkChild_error (haccepts.trans hw)), onHeap_error (Heap.checkChild_error hw)]
    exact .inr (.inr ⟨rfl, hS⟩)

theorem checkCons {S : Memory → Memory → Prop} (hm : m.Alike M n p) (hS : S m p) (tag : Tag)
    (hcar : car.Alike M car') (hcdr : cdr.Alike M cdr') :
    Agree HeapError.Starved S (fun a m' b p' => (m' = m ∧ p' = p) ∧ a = b)
      (Memory.checkCons tag car cdr m) (Memory.checkCons tag car' cdr' p) := by
  refine ((Answers.refl tag.asCons).agree hS).bind ?_
  rintro tag _ _ _ ⟨⟨rfl, rfl⟩, rfl⟩
  refine (hm.checkChild hS hcar).bind ?_
  rintro _ _ _ _ ⟨rfl, rfl⟩
  refine (hm.checkChild hS hcdr).bind ?_
  rintro _ _ _ _ ⟨rfl, rfl⟩
  exact ⟨⟨rfl, rfl⟩, rfl⟩

/-- Values are held while both make room, and are given back when neither can. -/
theorem holding {act act' : HeapM Unit} (hm : m.Alike M n p) (hcar : car.Alike M car') (hcdr : cdr.Alike M cdr')
    (hact : Onward HeapError.Starved n (fun M => Heap.Alike M n) M (fun _ => Eq) (act m.heap)
      (act' p.heap)) :
    Memory.Agrees M n (fun _ => Eq) (Memory.holding car cdr (Memory.onHeap act) m)
      (Memory.holding car' cdr' (Memory.onHeap act') p) := by
  have hheld : Memory.Agrees M n (fun _ => Eq) (Memory.onHeap act ⟨m.heap, (m.ledger.retain car).retain cdr⟩)
      (Memory.onHeap act' ⟨p.heap, (p.ledger.retain car').retain cdr'⟩) := ((hm.retain hcar).retain hcdr).onHeap hact
  rw [Memory.holding, Memory.holding, bind_ok (retain_ok car), bind_ok (retain_ok cdr), bind_ok (retain_ok car'),
    bind_ok (retain_ok cdr')]
  cases hl : Memory.onHeap act ⟨m.heap, (m.ledger.retain car).retain cdr⟩ with
  | ok a m' =>
    rw [tryCatch_ok hl]
    cases hr : Memory.onHeap act' ⟨p.heap, (p.ledger.retain car').retain cdr'⟩ with
    | ok b p' =>
      rw [tryCatch_ok hr]
      rw [hl, hr] at hheld
      exact hheld
    | error f p' =>
      rw [tryCatch_error hr]
      rw [hl, hr] at hheld
      exact hheld
  | error e m' =>
    rw [tryCatch_error hl]
    cases hr : Memory.onHeap act' ⟨p.heap, (p.ledger.retain car').retain cdr'⟩ with
    | ok b p' =>
      rw [tryCatch_ok hr]
      rw [hl, hr] at hheld
      exact hheld
    | error f p' =>
      rw [tryCatch_error hr]
      rw [hl, hr] at hheld
      refine hheld.imp_right fun hrefused => hrefused.imp_right ?_
      rintro ⟨rfl, N, hMN, hm'⟩
      exact ⟨rfl, N, hMN, (hm'.release (hcdr.mono hMN.le)).release (hcar.mono hMN.le)⟩

/-- The same storage is filled, and what it held is released. -/
theorem fill (hm : m.Alike M n p) (tag : Tag) (hcar : car.Alike M car') (hcdr : cdr.Alike M cdr') :
    Memory.Agrees M n (fun N => N n) (Memory.fill tag car cdr m) (Memory.fill tag car' cdr' p) := by
  refine (hm.onHeap (hm.heap.fill tag hcar hcdr).onward).bind ?_
  rintro N ⟨l, c⟩ m' ⟨l', d⟩ p' hMN hm' ⟨hlm, hcd⟩
  have hcd' := hcd.mono hMN.le
  exact ⟨N, .refl n N, (hm'.release hcd'.car).release hcd'.cdr, hMN.le _ _ _ hlm⟩

/-- A new white cell. -/
theorem cons (hm : m.Alike M n p) (hs : m.heap.tables.Sound) (hs' : p.heap.tables.Sound) (tag : Tag)
    (hcar : car.Alike M car') (hcdr : cdr.Alike M cdr') :
    Memory.Agrees M n (fun N => Value.Alike N) (Memory.cons tag car cdr m) (Memory.cons tag car' cdr' p) := by
  refine Agree.bind (hm.checkCons ⟨M, .refl n M, hm⟩ tag hcar hcdr) ?_
  rintro tag _ _ _ ⟨⟨rfl, rfl⟩, rfl⟩
  refine (hm.holding hcar hcdr (hm.heap.room hs hs' (Heap.makesRoom_cell hs) (Heap.makesRoom_cell hs'))).bind ?_
  rintro N _ m₁ _ p₁ hMN hm₁ -
  refine (hm₁.fill tag (hcar.mono hMN.le) (hcdr.mono hMN.le)).bind ?_
  rintro K l m₂ l' p₂ - hm₂ hlm
  refine (hm₂.onHeap (hm₂.heap.issue hlm).onward).bind ?_
  rintro L k m₃ k' p₃ hKL hm₃ hk
  exact ⟨L, .refl n L, hm₃, .cons (hk.mono hKL.le) tag⟩

/-- A new cell that is rooted. -/
theorem rootedCons (hm : m.Alike M n p) (hs : m.heap.tables.Sound) (hs' : p.heap.tables.Sound) (tag : Tag)
    (hcar : car.Alike M car') (hcdr : cdr.Alike M cdr') :
    Memory.Agrees M n (fun N => Value.Alike N) (Memory.rootedCons tag car cdr m)
      (Memory.rootedCons tag car' cdr' p) := by
  refine Agree.bind (hm.checkCons ⟨M, .refl n M, hm⟩ tag hcar hcdr) ?_
  rintro tag _ _ _ ⟨⟨rfl, rfl⟩, rfl⟩
  refine (hm.holding hcar hcdr (hm.heap.room hs hs' (Heap.makesRoom_both hs) (Heap.makesRoom_both hs'))).bind ?_
  rintro N _ m₁ _ p₁ hMN hm₁ -
  refine (hm₁.fill tag (hcar.mono hMN.le) (hcdr.mono hMN.le)).bind ?_
  rintro K l m₂ l' p₂ - hm₂ hlm
  refine (hm₂.onHeap (hm₂.heap.toRoots hlm).onward).bind ?_
  rintro L _ m₃ _ p₃ hKL hm₃ -
  refine (hm₃.onHeap (hm₃.heap.issue (hKL.le _ _ _ hlm)).onward).bind ?_
  rintro O k m₄ k' p₄ hLO hm₄ hk
  exact ⟨O, .refl n O, hm₄, .cons (hk.mono hLO.le) tag⟩

theorem list_sound {items : List Value} {x : Value} {m' : Memory} (hs : m.heap.tables.Sound)
    (hl : Memory.list items m = .ok x m') : m'.heap.tables.Sound := by
  rcases list_cases items hs with ⟨e, m', _, _, _, _, _, _, -, herr, -⟩ | ⟨m', x, w, hok, -, hb⟩
  · rw [herr] at hl
    cases hl
  · rw [hok] at hl
    cases hl
    exact hb.sound

/-- A list of cells, each of which may come with a page on either side. -/
theorem list {items items' : List Value} (hm : m.Alike M n p) (hs : m.heap.tables.Sound)
    (hs' : p.heap.tables.Sound) (hitems : List.Forall₂ (Value.Alike M) items items') :
    Memory.Agrees M n (fun N => Value.Alike N) (Memory.list items m) (Memory.list items' p) := by
  induction hitems with
  | nil => exact ⟨M, .refl n M, hm, .atom trivial⟩
  | cons hitem _ ih =>
    rw [list_cons, list_cons]
    refine Agree.bind (ih.and (fun _ _ hl => list_sound hs hl) fun _ _ hr => list_sound hs' hr) ?_
    rintro tail m₁ tail' p₁ ⟨⟨N, hMN, hm₁, htail⟩, hs₁, hs₁'⟩
    exact (hm₁.cons hs₁ hs₁' .cons (hitem.mono hMN.le) htail).of_grows hMN

/-- Another value on one side of a cell. -/
theorem setChild {target target' : Value} (hm : m.Alike M n p) (side : Side) (htarget : target.Alike M target')
    (hv : v.Alike M w) :
    Memory.Agrees M n (fun _ => Eq) (Memory.setChild side target v m) (Memory.setChild side target' w p) := by
  simp only [Memory.setChild, bind_get]
  refine (hm.heap.liveCell htarget).onward hm ?_
  rintro ⟨l, c⟩ ⟨l', d⟩ ⟨hlm, hcd⟩
  refine Agree.bind (hm.checkChild ⟨M, .refl n M, hm⟩ hv) ?_
  rintro _ m _ p ⟨rfl, rfl⟩
  have hheld := hm.retain hv
  have hset := hheld.heap.onTables (hheld.heap.tables.updateCell hlm fun c d hcd => hcd.setChild hv side)
  refine (hheld.onHeap hset.onward).bind ?_
  rintro N _ m₁ _ p₁ hMN hm₁ -
  have hreleased := hm₁.release ((hcd.child side).mono hMN.le)
  exact hreleased.onHeap (hreleased.heap.barrier (hMN.le _ _ _ hlm) (hv.mono hMN.le)).onward

/-! ## Every operation -/

/-- Every operation goes the same way. -/
theorem run {op op' : Operation Value} (hm : m.Alike M n p) (hs : m.heap.tables.Sound) (hs' : p.heap.tables.Sound)
    (hop : op.Alike (Value.Alike M) op') : Memory.Agrees M n (fun N => Result.Alike N) (op.run m) (op'.run p) := by
  have hdone : ∀ {x y : MemoryM Unit}, Memory.Agrees M n (fun _ => Eq) (x m) (y p) →
      Memory.Agrees M n (fun N => Result.Alike N) (((fun _ => Result.done) <$> x) m)
        (((fun _ => Result.done) <$> y) p) :=
    fun h => h.map fun _ _ _ _ => .done
  have hcount : ∀ {act : HeapM Nat}, Heap.Agrees M n Eq (act m.heap) (act p.heap) →
      Memory.Agrees M n (fun N => Result.Alike N) ((Result.count <$> Memory.onHeap act) m)
        ((Result.count <$> Memory.onHeap act) p) := by
    intro act hact
    refine (hm.onHeap hact.onward).map ?_
    rintro N k _ rfl
    exact .count k
  cases hop with
  | cons tag hcar hcdr => exact (hm.cons hs hs' tag hcar hcdr).map fun _ _ _ => .value
  | rootedCons tag hcar hcdr => exact (hm.rootedCons hs hs' tag hcar hcdr).map fun _ _ _ => .value
  | list hitems => exact (hm.list hs hs' hitems).map fun _ _ _ => .value
  | root hx => exact hdone (hm.onHeap (hm.heap.root hs hs' hx))
  | unroot hx => exact hdone (hm.onHeap (hm.heap.unroot hs hs' hx))
  | setChild side htarget hx => exact hdone (hm.setChild side htarget hx)
  | shade hx => exact hdone (hm.onHeap (hm.heap.shadeValue hx).onward)
  | scan budget => exact hcount (hm.heap.scan budget)
  | startCycle => exact hdone (hm.onHeap hm.heap.startCycle.onward)
  | sweep => exact hcount hm.heap.sweep
  | collect => exact hcount hm.heap.collect

end Alike

end Memory

end ConsHeap
