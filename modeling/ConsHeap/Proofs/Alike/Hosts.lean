import ConsHeap.Proofs.Alike.Memories
import ConsHeap.Proofs.Alike.Printing
import ConsHeap.Proofs.Script.Runs

/-!
# Hosts whose heaps differ in size

Two hosts are alike when their heaps are, and their variables and ledgers are the same but for locations. A command
does the same to both, unless one of them runs out of memory.

* `Reply.Alike`: the same answer. Locations may differ, and so may sizes, if they are asked for.
* `Host.Alike`: the relation.
* `Host.Alike.onMemory`, `Host.Alike.eval`, `Host.Alike.deliver`: the parts of a command.
* `Host.Alike.perform`: **every command goes the same way.**
-/

namespace ConsHeap.Script

variable {M N : Renaming} {n : Nat} {α β γ δ : Type}

/-- Holds of the errors that freeing memory might cure. -/
def Error.isAllocation : Error → Bool
  | heap e => e.isAllocation
  | _ => false

/-- The errors that end a comparison. -/
abbrev Error.Starved (e : Error) : Prop := e.isAllocation = true

/-- The same answer, up to a renaming, and up to sizes where these are asked for. -/
inductive Reply.Alike (M : Renaming) : Reply → Reply → Prop where
  | done : Alike M .done .done
  | number (k : Nat) : Alike M (.number k) (.number k)
  | flag (b : Bool) : Alike M (.flag b) (.flag b)
  | string (s : String) : Alike M (.string s) (.string s)
  | value {v w : Value} : v.Alike M w → Alike M (.value v) (.value w)
  | inspection {v w : Value} : v.Alike M w → Alike M (.inspection v) (.inspection w)
  | holders (k : Option Nat) : Alike M (.holders k) (.holders k)
  | sizing (s s' : Sizing) : Alike M (.sizing s) (.sizing s')
  | kind (name : String) (registered : Option Kind) : Alike M (.kind name registered) (.kind name registered)
  | occupancy {o p : Occupancy} : o.Alike p → Alike M (.occupancy o) (.occupancy p)
  | bounds {z w : Zones} : z.Level w → Alike M (.bounds z) (.bounds w)

/-- An error of a heap is excused among the errors of a step when it is in the heap. -/
theorem excused_map {f : Failure HeapError} (hf : f.Excused HeapError.Starved) :
    (f.map Error.heap).Excused Error.Starved := by
  cases f with
  | error e => exact hf
  | fault f => exact trivial

theorem Reply.Alike.mono {r r' : Reply} (h : r.Alike M r') (hle : M.Le N) : r.Alike N r' := by
  cases h with
  | value hv => exact .value (hv.mono hle)
  | inspection hv => exact .inspection (hv.mono hle)
  | done => exact .done
  | number => exact .number _
  | flag => exact .flag _
  | string => exact .string _
  | holders => exact .holders _
  | sizing => exact .sizing _ _
  | kind => exact .kind _ _
  | occupancy ho => exact .occupancy ho
  | bounds hz => exact .bounds hz

namespace Host

/-- Two hosts that differ in the sizes of their heaps. No two heaps of a host have one identity. -/
structure Alike (M : Renaming) (host other : Host) : Prop where
  oneToOne : M.OneToOne
  size : host.heaps.size = other.heaps.size
  size_le : host.heaps.size ≤ UInt32.size
  next : host.nextId = UInt32.ofNat host.heaps.size
  next' : other.nextId = UInt32.ofNat host.heaps.size
  fresh : ∀ {i l m}, host.heaps.size ≤ i.toNat → ¬ M i l m
  heap : ∀ {n : Nat} {h g}, host.heaps[n]? = some h → other.heaps[n]? = some g → h.Alike M (UInt32.ofNat n) g
  bindings : host.bindings.Matched (Value.Alike M) other.bindings
  ledger : host.ledger.outline = other.ledger.outline

/-- Two actions that concern heap `n` agree, with more locations going together than before. -/
abbrev Agrees (M : Renaming) (n : Nat) (Q : Renaming → α → β → Prop) (r : EStateM.Result (Failure Error) Host α)
    (r' : EStateM.Result (Failure Error) Host β) : Prop :=
  Onward Error.Starved (UInt32.ofNat n) Host.Alike M Q r r'

namespace Alike

variable {host other : Host} {h g : Heap} {v w : Value} {S : Host → Host → Prop}

/-- Two hosts have the same heaps, by number. -/
theorem heap? (hh : host.Alike M other) (n : Nat) :
    (host.heaps[n]? = none ∧ other.heaps[n]? = none) ∨
      ∃ h g, host.heaps[n]? = some h ∧ other.heaps[n]? = some g ∧ h.Alike M (UInt32.ofNat n) g := by
  have hsize := hh.size
  cases hn : host.heaps[n]? with
  | none =>
    rw [Array.getElem?_eq_none_iff] at hn
    exact .inl ⟨rfl, Array.getElem?_eq_none_iff.2 (by omega)⟩
  | some h =>
    obtain ⟨hlt, -⟩ := Array.getElem?_eq_some_iff.1 hn
    have hn' := Array.getElem?_eq_getElem (show n < other.heaps.size by omega)
    exact .inr ⟨h, _, rfl, hn', hh.heap hn hn'⟩

/-- The identity of a heap is its number. -/
theorem toNat_id (hh : host.Alike M other) (hn : host.heaps[n]? = some h) : (UInt32.ofNat n).toNat = n :=
  UInt32.toNat_ofNat_of_lt' ((Array.getElem?_eq_some_iff.1 hn).1.trans_le hh.size_le)

/-- A heap and the ledger are put back in both hosts. -/
theorem put {m p : Memory} (hh : host.Alike M other) (hn : host.heaps[n]? = some h)
    (hMN : Renaming.Grows (UInt32.ofNat n) M N) (hm : m.Alike N (UInt32.ofNat n) p) :
    (host.put n m).Alike N (other.put n p) := by
  have hlt : n < host.heaps.size := (Array.getElem?_eq_some_iff.1 hn).1
  have hlt' : n < other.heaps.size := by
    rw [← hh.size]
    exact hlt
  have hsize : (host.put n m).heaps.size = host.heaps.size := Array.size_setIfInBounds
  refine ⟨?_, ?_, ?_, ?_, ?_, ?_, ?_, hh.bindings.mono fun _ _ hv => hv.mono hMN.le, hm.ledger⟩
  · intro i l l' m' m'' hl hl'
    by_cases hi : i = UInt32.ofNat n
    · subst hi
      exact hm.heap.tables.unique hl hl'
    · rw [hMN.same i hi] at hl hl'
      exact hh.oneToOne i l l' m' m'' hl hl'
  · rw [hsize, hh.size]
    exact Array.size_setIfInBounds.symm
  · rw [hsize]
    exact hh.size_le
  · rw [hsize]
    exact hh.next
  · rw [hsize]
    exact hh.next'
  · intro i l l' hi
    rw [hsize] at hi
    rw [hMN.same i ?_]
    · exact hh.fresh hi
    · rintro rfl
      rw [hh.toNat_id hn] at hi
      omega
  · intro k h' g' hh' hg'
    simp only [Host.put, Array.getElem?_setIfInBounds] at hh' hg'
    by_cases hk : n = k
    · subst hk
      simp only [hlt, hlt', if_true, Option.some.injEq] at hh' hg'
      rw [← hh', ← hg']
      exact hm.heap
    · simp only [hk, if_false] at hh' hg'
      refine (hh.heap hh' hg').mono hMN.le (hMN.same _ fun heq => hk ?_)
      rw [← hh.toNat_id hn, ← heq, hh.toNat_id hh']

/-! ## One of the heaps -/

/-- An action on one heap and the ledger. -/
theorem onMemory {Q : Renaming → α → β → Prop} {act : MemoryM α} {act' : MemoryM β} (hh : host.Alike M other)
    (hact : ∀ h g, host.heaps[n]? = some h → other.heaps[n]? = some g →
      Memory.Alike M (UInt32.ofNat n) ⟨h, host.ledger⟩ ⟨g, other.ledger⟩ →
      Memory.Agrees M (UInt32.ofNat n) Q (act ⟨h, host.ledger⟩) (act' ⟨g, other.ledger⟩)) :
    Host.Agrees M n Q (Host.onMemory n act host) (Host.onMemory n act' other) := by
  rcases hh.heap? n with ⟨hn, hn'⟩ | ⟨h, g, hn, hn', hhg⟩
  · rw [Counted.onMemory_none hn, Counted.onMemory_none hn']
    exact .inr (.inr ⟨rfl, M, .refl _ M, hh⟩)
  have hagree := hact h g hn hn' ⟨hhg, hh.ledger⟩
  rw [Counted.onMemory_eq act hn, Counted.onMemory_eq act' hn']
  cases hl : act ⟨h, host.ledger⟩ <;> cases hr : act' ⟨g, other.ledger⟩ <;> rw [hl, hr] at hagree
  · obtain ⟨N, hMN, hm, hQ⟩ := hagree
    exact ⟨N, hMN, hh.put hn hMN hm, hQ⟩
  · exact excused_map hagree
  · exact excused_map hagree
  · refine hagree.imp excused_map fun hrefused => hrefused.imp excused_map ?_
    rintro ⟨rfl, N, hMN, hm⟩
    exact ⟨rfl, N, hMN, hh.put hn hMN hm⟩

/-- The heap of a number, in both hosts. -/
theorem heapAt (hh : host.Alike M other) (hS : S host other) (n : Nat) :
    Agree Error.Starved S
      (fun h t g t' => (t = host ∧ t' = other) ∧ h.Alike M (UInt32.ofNat n) g ∧ host.heaps[n]? = some h ∧
        other.heaps[n]? = some g)
      (Host.heapAt n host) (Host.heapAt n other) := by
  simp only [Host.heapAt, bind_get]
  rcases hh.heap? n with ⟨hn, hn'⟩ | ⟨h, g, hn, hn', hhg⟩
  · rw [hn, hn']
    exact .refuse _ hS
  · rw [hn, hn']
    exact ⟨⟨rfl, rfl⟩, hhg, rfl, rfl⟩

/-- A question to one heap. -/
theorem ask {Q : α → β → Prop} {question : Heap → Except HeapError α} {question' : Heap → Except HeapError β}
    (hh : host.Alike M other) (hS : S host other)
    (hq : ∀ h g, h.Alike M (UInt32.ofNat n) g → Answers Q (question h) (question' g)) :
    Agree Error.Starved S (fun a t b t' => (t = host ∧ t' = other) ∧ Q a b)
      (Host.ask n question host) (Host.ask n question' other) := by
  refine (hh.heapAt hS n).bind ?_
  rintro h _ g _ ⟨⟨rfl, rfl⟩, hhg, -⟩
  have hanswers := hq h g hhg
  generalize question h = x at hanswers ⊢
  generalize question' g = y at hanswers ⊢
  cases hanswers with
  | ok hab => exact ⟨⟨rfl, rfl⟩, hab⟩
  | error e => exact .refuse _ hS

theorem askSound {Q : α → β → Prop} {question : Heap → Except Fault α} {question' : Heap → Except Fault β}
    (hh : host.Alike M other) (hS : S host other)
    (hq : ∀ h g, h.Alike M (UInt32.ofNat n) g → UnlessFault Q (question h) (question' g)) :
    Agree Error.Starved S (fun a t b t' => (t = host ∧ t' = other) ∧ Q a b)
      (Host.askSound n question host) (Host.askSound n question' other) := by
  refine (hh.heapAt hS n).bind ?_
  rintro h _ g _ ⟨⟨rfl, rfl⟩, hhg, -⟩
  have hanswers := hq h g hhg
  cases hx : question h with
  | error f => exact .fault_left ..
  | ok a =>
    cases hy : question' g with
    | error f => exact .fault_right ..
    | ok b =>
      rw [hx, hy] at hanswers
      exact ⟨⟨rfl, rfl⟩, hanswers⟩

/-! ## Values -/

/-- A plain operand stands for values that go together, or for none. -/
theorem eval (hh : host.Alike M other) (hS : S host other) {x : Operand} (hx : x.Plain) :
    Agree Error.Starved S (fun v t w t' => (t = host ∧ t' = other) ∧ v.Alike M w)
      (Host.eval x host) (Host.eval x other) := by
  simp only [Host.eval, bind_get]
  cases x with
  | literal v => exact ⟨⟨rfl, rfl⟩, .atom hx⟩
  | named name =>
    rcases hh.bindings.find? name with ⟨hfind, hfind'⟩ | ⟨v, w, hfind, hfind', hvw⟩
    · simp only [Operand.value?, hfind, hfind']
      exact .refuse _ hS
    · simp only [Operand.value?, hfind, hfind']
      exact ⟨⟨rfl, rfl⟩, hvw⟩

theorem evalAll (hh : host.Alike M other) (hS : S host other) {xs : List Operand} (hxs : ∀ x ∈ xs, x.Plain) :
    Agree Error.Starved S
      (fun vs t ws t' => (t = host ∧ t' = other) ∧ List.Forall₂ (Value.Alike M) vs ws)
      (xs.mapM Host.eval host) (xs.mapM Host.eval other) := by
  induction xs with
  | nil => exact ⟨⟨rfl, rfl⟩, .nil⟩
  | cons x xs ih =>
    rw [List.mapM_cons]
    refine (hh.eval hS (hxs x List.mem_cons_self)).bind ?_
    rintro v _ w _ ⟨⟨rfl, rfl⟩, hv⟩
    refine (ih fun y hy => hxs y (List.mem_cons_of_mem _ hy)).bind ?_
    rintro vs _ ws _ ⟨⟨rfl, rfl⟩, hvs⟩
    exact ⟨⟨rfl, rfl⟩, .cons hv hvs⟩

/-- The values of a body. -/
theorem evalBody (hh : host.Alike M other) (hS : S host other) {body : Body Operand}
    (hbody : ∀ x ∈ body.values, x.Plain) :
    Agree Error.Starved S (fun b t c t' => (t = host ∧ t' = other) ∧ b.Alike M c)
      (body.mapM Host.eval host) (body.mapM Host.eval other) := by
  cases body with
  | closure arity code captured =>
    refine (hh.evalAll hS hbody).map ?_
    rintro vs _ ws _ ⟨⟨rfl, rfl⟩, hvs⟩
    exact ⟨⟨rfl, rfl⟩, .closure arity code hvs⟩
  | text | symbol | bytes => exact ⟨⟨rfl, rfl⟩, .refl rfl⟩

/-- The values of an operation. -/
theorem evalOperation (hh : host.Alike M other) (hS : S host other) {op : Operation Operand}
    (hop : ∀ x ∈ op.operands, x.Plain) :
    Agree Error.Starved S
      (fun op t op' t' => (t = host ∧ t' = other) ∧ op.Alike (Value.Alike M) op')
      (op.mapM Host.eval host) (op.mapM Host.eval other) := by
  have hone : ∀ {x : Operand} {f : Value → Operation Value}, x.Plain →
      (∀ v w, v.Alike M w → (f v).Alike (Value.Alike M) (f w)) →
      Agree Error.Starved S
        (fun op t op' t' => (t = host ∧ t' = other) ∧ op.Alike (Value.Alike M) op')
        ((f <$> Host.eval x) host) ((f <$> Host.eval x) other) :=
    fun hx hf => (hh.eval hS hx).map fun v _ w _ hv => ⟨hv.1, hf v w hv.2⟩
  have htwo : ∀ {x y : Operand} {f : Value → Value → Operation Value}, x.Plain → y.Plain →
      (∀ v w v' w', v.Alike M v' → w.Alike M w' → (f v w).Alike (Value.Alike M) (f v' w')) →
      Agree Error.Starved S
        (fun op t op' t' => (t = host ∧ t' = other) ∧ op.Alike (Value.Alike M) op')
        ((f <$> Host.eval x <*> Host.eval y) host) ((f <$> Host.eval x <*> Host.eval y) other) := by
    intro x y f hx hy hf
    rw [seq_eq_bind_map]
    refine Agree.bind (P := fun k t k' t' => (t = host ∧ t' = other) ∧
      ∀ w w', w.Alike M w' → (k w).Alike (Value.Alike M) (k' w')) ((hh.eval hS hx).map ?_) ?_
    · rintro v _ v' _ ⟨⟨rfl, rfl⟩, hv⟩
      exact ⟨⟨rfl, rfl⟩, fun w w' hw => hf v w v' w' hv hw⟩
    · rintro k _ k' _ ⟨⟨rfl, rfl⟩, hk⟩
      exact (hh.eval hS hy).map fun w _ w' _ hw => ⟨hw.1, hk w w' hw.2⟩
  cases op with
  | cons tag car cdr =>
    exact htwo (hop car (by simp [Operation.operands])) (hop cdr (by simp [Operation.operands]))
      fun _ _ _ _ hv hw => .cons tag hv hw
  | rootedCons tag car cdr =>
    exact htwo (hop car (by simp [Operation.operands])) (hop cdr (by simp [Operation.operands]))
      fun _ _ _ _ hv hw => .rootedCons tag hv hw
  | setChild side target x =>
    exact htwo (hop target (by simp [Operation.operands])) (hop x (by simp [Operation.operands]))
      fun _ _ _ _ hv hw => .setChild side hv hw
  | list items => exact (hh.evalAll hS hop).map fun _ _ _ _ hvs => ⟨hvs.1, .list hvs.2⟩
  | root x => exact hone (hop x (by simp [Operation.operands])) fun _ _ => .root
  | unroot x => exact hone (hop x (by simp [Operation.operands])) fun _ _ => .unroot
  | shade x => exact hone (hop x (by simp [Operation.operands])) fun _ _ => .shade
  | scan budget => exact ⟨⟨rfl, rfl⟩, .scan budget⟩
  | startCycle => exact ⟨⟨rfl, rfl⟩, .startCycle⟩
  | sweep => exact ⟨⟨rfl, rfl⟩, .sweep⟩
  | collect => exact ⟨⟨rfl, rfl⟩, .collect⟩

/-! ## Delivery -/

theorem release (hh : host.Alike M other) (hv : v.Alike M w) :
    Alike M { host with ledger := host.ledger.release v } { other with ledger := other.ledger.release w } :=
  { hh with ledger := by rw [Ledger.outline_release, Ledger.outline_release, hh.ledger, hv.outline] }

theorem retain (hh : host.Alike M other) (hv : v.Alike M w) :
    Alike M { host with ledger := host.ledger.retain v } { other with ledger := other.ledger.retain w } :=
  { hh with ledger := by rw [Ledger.outline_retain, Ledger.outline_retain, hh.ledger, hv.outline] }

/-- A value goes to the same variable, and what was there is released. -/
theorem deliver (hh : host.Alike M other) (target : Option String) (hv : v.Alike M w) :
    Host.Agrees M n (fun N => Reply.Alike N) (Host.deliver target v host) (Host.deliver target w other) := by
  cases target with
  | none => exact ⟨M, .refl _ M, hh.release hv, .value hv⟩
  | some name =>
    have hinsert : Alike M { host with bindings := host.bindings.insert name v }
        { other with bindings := other.bindings.insert name w } :=
      { hh with bindings := hh.bindings.insert name hv }
    simp only [Host.deliver, bind_get, bind_modify]
    rcases hh.bindings.find? name with ⟨hfind, hfind'⟩ | ⟨old, old', hfind, hfind', hold⟩
    · rw [hfind, hfind']
      exact ⟨M, .refl _ M, hinsert, .value hv⟩
    · rw [hfind, hfind']
      exact ⟨M, .refl _ M, hinsert.release hold, .value hv⟩

theorem deliverCopy (hh : host.Alike M other) (target : Option String) (hv : v.Alike M w) :
    Host.Agrees M n (fun N => Reply.Alike N) (Host.deliverCopy target v host) (Host.deliverCopy target w other) :=
  (hh.retain hv).deliver target hv

/-! ## Commands -/

/-- A new object is delivered. -/
theorem deliverNew (hh : host.Alike M other) (target : Option String) {act act' : MemoryM Object}
    (hact : ∀ h g, Memory.Alike M (UInt32.ofNat n) ⟨h, host.ledger⟩ ⟨g, other.ledger⟩ →
      Memory.Agrees M (UInt32.ofNat n) (fun N o o' => o.value.Alike N o'.value) (act ⟨h, host.ledger⟩)
        (act' ⟨g, other.ledger⟩)) :
    Host.Agrees M n (fun N => Reply.Alike N)
      ((Host.onMemory n act >>= fun o => Host.deliver target o.value) host)
      ((Host.onMemory n act' >>= fun o => Host.deliver target o.value) other) := by
  refine (hh.onMemory fun h g _ _ hm => hact h g hm).bind ?_
  rintro N o t o' t' - ht ho
  exact ht.deliver target ho

/-- The answer for an operation that went well. -/
theorem report {op op' : Operation Value} {r r' : Result} (hh : host.Alike M other) (target : Option String)
    (hop : op.Alike (Value.Alike M) op') (hr : r.Alike M r') :
    Host.Agrees M n (fun N => Reply.Alike N) (Host.report n target op r host) (Host.report n target op' r' other) := by
  have hS : ∃ N, Renaming.Grows (UInt32.ofNat n) M N ∧ Host.Alike N host other := ⟨M, .refl _ M, hh⟩
  have hcount : ∀ {v w : Value}, v.Alike M w → Host.Agrees M n (fun N => Reply.Alike N)
      ((Host.askSound n (·.rootCount v) >>= fun k => pure (Reply.number k)) host)
      ((Host.askSound n (·.rootCount w) >>= fun k => pure (Reply.number k)) other) := by
    intro v w hv
    refine Agree.bind (hh.askSound hS fun h g hhg => hhg.rootCount hv) ?_
    rintro k _ _ _ ⟨⟨rfl, rfl⟩, rfl⟩
    exact ⟨M, .refl _ M, hh, .number k⟩
  cases hop with
  | root hx => exact hcount hx
  | unroot hx => exact hcount hx
  | _ =>
    cases hr with
    | done => exact ⟨M, .refl _ M, hh, .done⟩
    | value hv => exact hh.deliver target hv
    | count k => exact ⟨M, .refl _ M, hh, .number k⟩

/-- A new heap is empty in both hosts, whatever its sizes are. No other heap has its identity, if one is left. -/
theorem addHeap (hh : host.Alike M other) (hroom : host.heaps.size < UInt32.size) (sizing sizing' : Sizing) :
    (host.addHeap sizing).Alike M (other.addHeap sizing') := by
  have hsize := hh.size
  have hnext : UInt32.ofNat host.heaps.size + 1 = UInt32.ofNat (host.heaps.size + 1) := by
    rw [UInt32.ofNat_add]
    rfl
  refine ⟨hh.oneToOne, ?_, ?_, ?_, ?_, ?_, ?_, hh.bindings, hh.ledger⟩
  · rw [size_addHeap, size_addHeap, hsize]
  · rw [size_addHeap]
    exact hroom
  · rw [size_addHeap, ← hnext, ← hh.next]
    rfl
  · rw [size_addHeap, ← hnext, ← hh.next']
    rfl
  · intro i l m hi
    rw [size_addHeap] at hi
    exact hh.fresh (by omega)
  · intro k h g hk hk'
    simp only [Host.addHeap, Array.getElem?_push, hsize] at hk hk'
    split at hk
    · next heq =>
      rw [if_pos heq] at hk'
      cases hk
      cases hk'
      rw [hh.next, hh.next', heq, ← hsize]
      exact .new (fun l m => hh.fresh (UInt32.toNat_ofNat_of_lt' hroom).ge) _ _
    · next hne =>
      rw [if_neg hne] at hk'
      exact hh.heap hk hk'

theorem newHeap (hh : host.Alike M other) (hroom : host.heaps.size < UInt32.size) (target : Option String)
    (sizing sizing' : Sizing) :
    Host.Agrees M n (fun N => Reply.Alike N) (Host.perform n target (.newHeap sizing) host)
      (Host.perform n target (.newHeap sizing') other) := by
  refine ⟨M, .refl _ M, hh.addHeap hroom sizing sizing', ?_⟩
  show Reply.Alike M (.number host.heaps.size) (.number other.heaps.size)
  rw [hh.size]
  exact .number _

/-- Every command goes the same way, as long as there are no more heaps than identities. -/
theorem perform (hh : host.Alike M other) (hc : host.Counted []) (hc' : other.Counted []) (target : Option String)
    {c : Command} (hplain : c.Plain) (hroom : (Outcome.state (host.perform n target c)).heaps.size ≤ UInt32.size) :
    Host.Agrees M n (fun N => Reply.Alike N) (Host.perform n target c host) (Host.perform n target c other) := by
  have hS : ∃ N, Renaming.Grows (UInt32.ofNat n) M N ∧ Host.Alike N host other := ⟨M, .refl _ M, hh⟩
  obtain ⟨hops, hhonest⟩ := hplain
  cases c with
  | newHeap sizing =>
    have hfits : (host.addHeap sizing).heaps.size ≤ UInt32.size := hroom
    rw [size_addHeap] at hfits
    exact hh.newHeap hfits target sizing sizing
  | sizing =>
    refine Agree.bind (hh.heapAt hS n) ?_
    rintro h _ g _ ⟨⟨rfl, rfl⟩, -⟩
    exact ⟨M, .refl _ M, hh, .sizing _ _⟩
  | text s => exact hh.deliverNew target fun h g hm => hm.standard .text (.refl rfl)
  | symbol s => exact hh.deliverNew target fun h g hm => hm.standard .symbol (.refl rfl)
  | closure arity code captured =>
    refine Agree.bind (hh.evalAll hS hops) ?_
    rintro vs _ ws _ ⟨⟨rfl, rfl⟩, hvs⟩
    exact hh.deliverNew target fun h g hm => hm.standard .closure (.closure arity code hvs)
  | object tag body =>
    refine Agree.bind (hh.evalBody hS hops) ?_
    rintro b _ b' _ ⟨⟨rfl, rfl⟩, hb⟩
    exact hh.deliverNew target fun h g hm => hm.object tag hb
  | register tag kind =>
    refine (hh.onMemory fun h g _ _ hm => hm.onHeap (hm.heap.register tag kind).onward).bind ?_
    rintro N _ t _ t' - ht -
    exact ⟨N, .refl _ N, ht, .done⟩
  | kind tag =>
    refine Agree.bind (hh.heapAt hS n) ?_
    rintro h _ g _ ⟨⟨rfl, rfl⟩, hhg, -⟩
    rw [hhg.kinds]
    exact ⟨M, .refl _ M, hh, .kind _ _⟩
  | act operation =>
    refine Agree.bind (hh.evalOperation hS hops) ?_
    rintro op _ op' _ ⟨⟨rfl, rfl⟩, hop⟩
    refine (hh.onMemory fun h g hn hn' hm => hm.run (hc.memory hn).sound (hc'.memory hn').sound hop).bind ?_
    rintro N r t r' t' hMN ht hr
    exact ht.report target (hop.mono fun _ _ hv => hv.mono hMN.le) hr
  | child side x =>
    refine Agree.bind (hh.eval hS (hops x (by simp [Command.operands]))) ?_
    rintro v _ w _ ⟨⟨rfl, rfl⟩, hv⟩
    refine Agree.bind (hh.ask hS fun h g hhg => hhg.child hv side) ?_
    rintro a _ b _ ⟨⟨rfl, rfl⟩, hab⟩
    exact hh.deliverCopy target hab
  | copy x =>
    refine Agree.bind (hh.eval hS (hops x (by simp [Command.operands]))) ?_
    rintro v _ w _ ⟨⟨rfl, rfl⟩, hv⟩
    exact hh.deliverCopy target hv
  | display x =>
    refine Agree.bind (hh.eval hS (hops x (by simp [Command.operands]))) ?_
    rintro v _ w _ ⟨⟨rfl, rfl⟩, hv⟩
    exact ⟨M, .refl _ M, hh, .value hv⟩
  | inspect x =>
    refine Agree.bind (hh.eval hS (hops x (by simp [Command.operands]))) ?_
    rintro v _ w _ ⟨⟨rfl, rfl⟩, hv⟩
    exact ⟨M, .refl _ M, hh, .inspection hv⟩
  | rootCount x =>
    refine Agree.bind (hh.eval hS (hops x (by simp [Command.operands]))) ?_
    rintro v _ w _ ⟨⟨rfl, rfl⟩, hv⟩
    refine Agree.bind (hh.askSound hS fun h g hhg => hhg.rootCount hv) ?_
    rintro k _ _ _ ⟨⟨rfl, rfl⟩, rfl⟩
    exact ⟨M, .refl _ M, hh, .number k⟩
  | slot x =>
    refine Agree.bind (hh.eval hS (hops x (by simp [Command.operands]))) ?_
    rintro v _ w _ ⟨⟨rfl, rfl⟩, hv⟩
    refine Agree.bind (hh.ask hS fun h g hhg => hhg.slot hv) ?_
    rintro k _ _ _ ⟨⟨rfl, rfl⟩, rfl⟩
    exact ⟨M, .refl _ M, hh, .number k⟩
  | color x =>
    refine Agree.bind (hh.eval hS (hops x (by simp [Command.operands]))) ?_
    rintro v _ w _ ⟨⟨rfl, rfl⟩, hv⟩
    refine Agree.bind (hh.ask hS fun h g hhg => hhg.color hv) ?_
    rintro color _ _ _ ⟨⟨rfl, rfl⟩, rfl⟩
    exact ⟨M, .refl _ M, hh, .string color.shown⟩
  | print x =>
    refine Agree.bind (hh.eval hS (hops x (by simp [Command.operands]))) ?_
    rintro v _ w _ ⟨⟨rfl, rfl⟩, hv⟩
    refine Agree.bind (hh.ask hS fun h g hhg => hhg.print hv) ?_
    rintro text _ _ _ ⟨⟨rfl, rfl⟩, rfl⟩
    exact ⟨M, .refl _ M, hh, .string text⟩
  | isScanned =>
    refine Agree.bind (hh.heapAt hS n) ?_
    rintro h _ g _ ⟨⟨rfl, rfl⟩, hhg, -⟩
    rw [hhg.isScanned]
    exact ⟨M, .refl _ M, hh, .flag _⟩
  | occupancy =>
    refine Agree.bind (hh.askSound hS fun h g hhg => hhg.occupancy) ?_
    rintro o _ p _ ⟨⟨rfl, rfl⟩, hop⟩
    exact ⟨M, .refl _ M, hh, .occupancy hop⟩
  | bounds =>
    refine Agree.bind (hh.heapAt hS n) ?_
    rintro h _ g _ ⟨⟨rfl, rfl⟩, hhg, -⟩
    exact ⟨M, .refl _ M, hh, .bounds hhg.tables.level⟩
  | check =>
    refine Agree.bind (hh.heapAt hS n) ?_
    rintro h _ g _ ⟨⟨rfl, rfl⟩, -, hn, hn'⟩
    -- neither heap has a violation
    have hok : h.check = .ok () := (hc.memory hn).check
    have hok' : g.check = .ok () := (hc'.memory hn').check
    rw [hok, hok']
    exact ⟨M, .refl _ M, hh, .done⟩
  | same x y =>
    refine Agree.bind (hh.eval hS (hops x (by simp [Command.operands]))) ?_
    rintro v _ v' _ ⟨⟨rfl, rfl⟩, hv⟩
    refine Agree.bind (hh.eval hS (hops y (by simp [Command.operands]))) ?_
    rintro w _ w' _ ⟨⟨rfl, rfl⟩, hw⟩
    rw [hv.same hh.oneToOne hw]
    exact ⟨M, .refl _ M, hh, .flag _⟩
  | drop name =>
    have herase : Alike M { host with bindings := host.bindings.erase name }
        { other with bindings := other.bindings.erase name } :=
      { hh with bindings := hh.bindings.erase name }
    simp only [Host.perform, bind_get]
    rcases hh.bindings.find? name with ⟨hfind, hfind'⟩ | ⟨v, w, hfind, hfind', hvw⟩
    · rw [hfind, hfind']
      exact ⟨M, .refl _ M, hh, .flag false⟩
    · rw [hfind, hfind']
      exact ⟨M, .refl _ M, herase.release hvw, .flag true⟩
  | holders name =>
    have hname : (Operand.named name).Plain := trivial
    refine Agree.bind (hh.eval hS hname) ?_
    rintro v host w other ⟨⟨rfl, rfl⟩, hv⟩
    rcases hv.cases with ⟨rfl, hatom⟩ | ⟨header, b, c, rfl, rfl, -⟩ | ⟨_, _, _, rfl, rfl, -⟩
    · cases v with
      | object | cons => cases hatom
      | _ => exact ⟨M, .refl _ M, hh, .holders none⟩
    · have hcount : host.ledger.count header.id = other.ledger.count header.id := by
        rw [← Ledger.count_outline, hh.ledger, Ledger.count_outline]
      refine ⟨M, .refl _ M, hh, ?_⟩
      show Reply.Alike M (.holders (some (host.ledger.count header.id)))
        (.holders (some (other.ledger.count header.id)))
      rw [hcount]
      exact .holders _
    · exact ⟨M, .refl _ M, hh, .holders none⟩
  | tamper change => exact absurd rfl (hhonest change)

/-- What memory the system gives does not matter. -/
theorem supplied (hh : host.Alike M other) (n : Nat) (memory memory' : Paging.Supply) :
    Alike M { host with heaps := host.heaps.modify n (·.supplied memory) }
      { other with heaps := other.heaps.modify n (·.supplied memory') } := by
  refine ⟨hh.oneToOne, by simp [hh.size], by simpa using hh.size_le, by simpa using hh.next, by simpa using hh.next',
    fun hi => hh.fresh (by simpa using hi), ?_, hh.bindings, hh.ledger⟩
  intro k h g hk hk'
  simp only [Array.getElem?_modify] at hk hk'
  split at hk
  · next heq =>
    rw [if_pos heq] at hk'
    obtain ⟨h', hh', rfl⟩ := Option.map_eq_some_iff.1 hk
    obtain ⟨g', hg', rfl⟩ := Option.map_eq_some_iff.1 hk'
    exact (hh.heap hh' hg').supplied memory memory'
  · next hne =>
    rw [if_neg hne] at hk'
    exact hh.heap hk hk'

end Alike

end Host

end ConsHeap.Script
