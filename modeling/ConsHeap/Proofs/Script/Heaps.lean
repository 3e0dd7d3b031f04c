import ConsHeap.Proofs.Outline
import ConsHeap.Proofs.Script.Runs

/-!
# What deeds do to heaps

A deed lets one of the heaps run an operation, or adds a heap, or leaves the cells of all heaps as they are.

* `Deed.Runs`, `Deed.makesHeap`: a deed lets a heap run an operation, or makes a heap.
* `Host.views`: the views of all heaps.
* `Host.keeps_prospect_perform`: commands that change no cell.
* `Host.changes`: **what each deed does.**
* `Host.Changes.size_le`: how many heaps there are afterwards.
-/

namespace ConsHeap

/-! ## Objects are not part of a heap -/

namespace Memory

/-- What is seen of the heap. -/
def view (m : Memory) : View := m.heap.view

theorem keeps_view_register (tag : Tag) (kind : Kind) : Keeps view (onHeap (Heap.register tag kind)) := by
  intro m
  rcases register_cases m tag kind with ⟨e, he⟩ | ⟨kinds, hok⟩
  · rw [he]
    rfl
  · rw [hok]
    rfl

theorem keeps_view_object (tag : Tag) (body : Body Value) : Keeps view (object tag body) := by
  intro m
  rcases object_cases m tag body with ⟨e, he⟩ | ⟨tag', hok⟩
  · rw [he]
    rfl
  · rw [hok]
    rfl

theorem keeps_view_standard (tag : Tag) (body : Body Value) : Keeps view (standard tag body) := fun _ => rfl

end Memory

namespace Script

/-- A deed lets heap `h`, number `n`, run an operation on values. -/
inductive Deed.Runs (host : Host) : Deed → Nat → Heap → Operation Value → Prop where
  | act {n : Nat} {target : Option String} {operation : Operation Operand} {hplain : (Command.act operation).Plain}
    {h : Heap} {op : Operation Value} :
    host.heaps[n]? = some h → operation.mapM Host.eval host = .ok op host →
    Runs host (.command n target ⟨.act operation, hplain⟩) n h op

theorem Deed.Runs.heap? {host : Host} {d : Deed} {n : Nat} {h : Heap} {op : Operation Value}
    (hruns : d.Runs host n h op) : host.heaps[n]? = some h := by
  cases hruns
  assumption

/-- Holds of the deeds that make a heap. -/
def Deed.makesHeap : Deed → Bool
  | command _ _ ⟨.newHeap _, _⟩ => true
  | _ => false

namespace Host

variable {host t : Host} {d : Deed} {n : Nat} {h : Heap} {target : Option String} {c : Command} {α γ : Type}

/-- The views of all heaps. -/
def views (host : Host) : Array View := host.heaps.map Heap.view

theorem view? (hn : host.heaps[n]? = some h) : host.views[n]? = some h.view := by
  rw [views, Array.getElem?_map, hn, Option.map_some]

@[simp] theorem size_views (host : Host) : host.views.size = host.heaps.size := Array.size_map

theorem views_put (host : Host) (n : Nat) (m : Memory) :
    (host.put n m).views = host.views.setIfInBounds n m.heap.view := Array.map_setIfInBounds

/-! ## Parts of a command -/

section Parts

variable {part : Host → γ}

theorem keeps_heapAt (n : Nat) : Keeps part (heapAt n) := by
  refine .bind .get fun host => ?_
  split
  · exact .pure _
  · exact .throw _

theorem keeps_ask (n : Nat) (question : Heap → Except HeapError α) : Keeps part (ask n question) := by
  refine (keeps_heapAt n).bind fun h => ?_
  split
  · exact .pure _
  · exact .throw _

theorem keeps_askSound (n : Nat) (question : Heap → Except Fault α) : Keeps part (askSound n question) := by
  refine (keeps_heapAt n).bind fun h => ?_
  split
  · exact .pure _
  · exact keeps_fault _

theorem keeps_eval (x : Operand) : Keeps part (eval x) := by
  refine .bind .get fun host => ?_
  split
  · exact .pure _
  · exact .throw _

/-- The operands of an operation are looked up, which changes nothing. -/
theorem keeps_operation (operation : Operation Operand) : Keeps part (operation.mapM eval) := by
  cases operation with
  | cons tag car cdr => exact ((keeps_eval car).map _).seq (keeps_eval cdr)
  | rootedCons tag car cdr => exact ((keeps_eval car).map _).seq (keeps_eval cdr)
  | setChild side x y => exact ((keeps_eval x).map _).seq (keeps_eval y)
  | list items => exact (Keeps.mapM keeps_eval items).map _
  | root x | unroot x | shade x => exact (keeps_eval x).map _
  | scan | startCycle | sweep | collect => exact .pure _

theorem keeps_body (body : Body Operand) : Keeps part (body.mapM eval) := by
  cases body with
  | closure arity code captured => exact (Keeps.mapM keeps_eval captured).map _
  | text | symbol | bytes => exact .pure _

end Parts

/-- What is seen of the heaps, and the identity of the next one. -/
def prospect (host : Host) : Array View × UInt32 := (host.views, host.nextId)

theorem keeps_prospect_release (v : Value) : Keeps prospect (release v) := .change fun _ => rfl

theorem keeps_prospect_deliver (target : Option String) (v : Value) : Keeps prospect (deliver target v) := by
  cases target with
  | none => exact (keeps_prospect_release v).bind fun _ => .pure _
  | some name =>
    refine .bind .get fun host => .bind (.change fun _ => rfl) fun _ => ?_
    split
    · exact (keeps_prospect_release _).bind fun _ => .pure _
    · exact .pure _

theorem keeps_prospect_deliverCopy (target : Option String) (v : Value) : Keeps prospect (deliverCopy target v) :=
  .bind (.change fun _ => rfl) fun _ => keeps_prospect_deliver target v

/-- An action on a heap and the ledger that changes no cell. -/
theorem keeps_prospect_onMemory {act : MemoryM α} (hact : Keeps Memory.view act) (n : Nat) :
    Keeps prospect (onMemory n act) := by
  intro host
  cases hn : host.heaps[n]? with
  | none =>
    rw [Counted.onMemory_none hn]
    rfl
  | some h =>
    have hput : ∀ m : Memory, m.view = h.view → (host.put n m).prospect = host.prospect := by
      intro m hm
      have hviews : (host.put n m).views = host.views := by
        obtain ⟨hlt, hget⟩ := Array.getElem?_eq_some_iff.1 (view? hn)
        rw [views_put, show m.heap.view = h.view from hm, ← hget, Array.setIfInBounds_def, dif_pos hlt,
          Array.set_getElem_self]
      exact Prod.ext hviews rfl
    have hview := hact ⟨h, host.ledger⟩
    rw [Counted.onMemory_eq act hn]
    cases hr : act ⟨h, host.ledger⟩ <;> rw [hr] at hview <;> exact hput _ hview

theorem keeps_prospect_report (n : Nat) (target : Option String) (op : Operation Value) (r : Result) :
    Keeps prospect (report n target op r) := by
  unfold report
  split
  · exact (keeps_askSound n _).bind fun _ => .pure _
  · exact (keeps_askSound n _).bind fun _ => .pure _
  · exact .pure _
  · exact keeps_prospect_deliver target _
  · exact .pure _

/-! ## Commands -/

/-- A command that neither runs an operation nor makes a heap changes no cell. -/
theorem keeps_prospect_perform (n : Nat) (target : Option String) (hplain : c.Plain)
    (hact : ∀ operation, c ≠ .act operation) (hnew : ∀ sizing, c ≠ .newHeap sizing) :
    Keeps prospect (perform n target c) := by
  cases c with
  | newHeap sizing => exact absurd rfl (hnew sizing)
  | act operation => exact absurd rfl (hact operation)
  | tamper change => exact absurd rfl (hplain.honest change)
  | sizing | kind | isScanned | bounds => exact (keeps_heapAt n).bind fun _ => .pure _
  | text s | symbol s =>
    exact (keeps_prospect_onMemory (Memory.keeps_view_standard _ _) n).bind fun _ => keeps_prospect_deliver target _
  | closure arity code captured =>
    exact (Keeps.mapM keeps_eval captured).bind fun _ =>
      (keeps_prospect_onMemory (Memory.keeps_view_standard _ _) n).bind fun _ => keeps_prospect_deliver target _
  | object tag body =>
    exact (keeps_body body).bind fun _ =>
      (keeps_prospect_onMemory (Memory.keeps_view_object _ _) n).bind fun _ => keeps_prospect_deliver target _
  | register tag kind => exact (keeps_prospect_onMemory (Memory.keeps_view_register tag kind) n).bind fun _ => .pure _
  | child side x =>
    exact (keeps_eval x).bind fun _ => (keeps_ask n _).bind fun _ => keeps_prospect_deliverCopy target _
  | copy x => exact (keeps_eval x).bind fun _ => keeps_prospect_deliverCopy target _
  | display x | inspect x => exact (keeps_eval x).bind fun _ => .pure _
  | rootCount x => exact (keeps_eval x).bind fun _ => (keeps_askSound n _).bind fun _ => .pure _
  | slot x | color x | print x => exact (keeps_eval x).bind fun _ => (keeps_ask n _).bind fun _ => .pure _
  | occupancy => exact (keeps_askSound n _).bind fun _ => .pure _
  | check =>
    refine (keeps_heapAt n).bind fun h => ?_
    split
    · exact .pure _
    · exact .throw _
  | same x y => exact (keeps_eval x).bind fun _ => (keeps_eval y).bind fun _ => .pure _
  | drop name =>
    refine .bind .get fun host => ?_
    split
    · exact .pure _
    · exact .bind (.change fun _ => rfl) fun _ => (keeps_prospect_release _).bind fun _ => .pure _
  | holders name =>
    refine (keeps_eval _).bind fun v => ?_
    split
    · exact .bind .get fun _ => .pure _
    · exact .pure _

/-! ## Deeds -/

/-- What a deed does to the heaps of a host. -/
inductive Changes (host t : Host) (d : Deed) : Prop where
  /-- One heap runs an operation. -/
  | operation {n : Nat} {h : Heap} {op : Operation Value} :
    d.Runs host n h op → t.views = host.views.setIfInBounds n ((Move.operate op).after ⟨h, host.ledger⟩).heap.view →
    t.nextId = host.nextId → Changes host t d
  /-- A heap is added, with the next identity. -/
  | addHeap (sizing : Sizing) :
    d.makesHeap = true → (∀ n h op, ¬ d.Runs host n h op) → t.views = host.views.push (Heap.new host.nextId sizing).view →
    t.nextId = host.nextId + 1 → Changes host t d
  | nothing :
    (∀ n h op, ¬ d.Runs host n h op) → t.views = host.views → t.nextId = host.nextId → Changes host t d

theorem Changes.of_prospect (hruns : ∀ n h op, ¬ d.Runs host n h op) (h : t.prospect = host.prospect) :
    Changes host t d :=
  .nothing hruns (congrArg Prod.fst h) (congrArg Prod.snd h)

/-- An operation is run when its operands stand for values and the heap exists. Otherwise nothing is done. -/
theorem changes_act (host : Host) (n : Nat) (target : Option String) (operation : Operation Operand)
    (hplain : (Command.act operation).Plain) :
    Changes host (Outcome.state (host.perform n target (.act operation)))
      (.command n target ⟨.act operation, hplain⟩) := by
  have hkeeps : Keeps id (operation.mapM eval) := keeps_operation operation
  have hlooked : Outcome.state (operation.mapM eval host) = host := hkeeps host
  rw [perform]
  cases hop : operation.mapM eval host with
  | error e t =>
    rw [hop] at hlooked
    rw [bind_error hop]
    refine .of_prospect ?_ (congrArg prospect hlooked)
    rintro _ _ _ ⟨-, hok⟩
    rw [hop] at hok
    cases hok
  | ok op t =>
    rw [hop] at hlooked
    obtain rfl : t = host := hlooked
    rw [bind_ok hop]
    cases hn : t.heaps[n]? with
    | none =>
      rw [bind_error (Counted.onMemory_none hn)]
      refine .of_prospect ?_ rfl
      rintro _ _ _ ⟨hsome, -⟩
      rw [hn] at hsome
      cases hsome
    | some h =>
      have hafter : Outcome.state (onMemory n op.run t) = t.put n ((Move.operate op).after ⟨h, t.ledger⟩) := by
        rw [Counted.onMemory_eq op.run hn, Move.operate_after]
        cases op.run ⟨h, t.ledger⟩ <;> rfl
      have hprospect := Keeps.state_bind (x := onMemory n op.run) (fun r => keeps_prospect_report n target op r) t
      rw [hafter] at hprospect
      refine .operation (.act hn hop) ((congrArg Prod.fst hprospect).trans (views_put ..)) (congrArg Prod.snd hprospect)

/-- **What each deed does to the heaps.** -/
theorem changes (host : Host) (d : Deed) : host.Changes (d.after host) d := by
  cases d with
  | supply n memory =>
    refine .nothing (by rintro _ _ _ ⟨⟩) ?_ rfl
    refine Array.ext_getElem? fun k => ?_
    simp only [Deed.after, views, Array.getElem?_map, Array.getElem?_modify]
    split
    · cases host.heaps[k]? <;> rfl
    · rfl
  | command n target c =>
    obtain ⟨c, hplain⟩ := c
    rw [Deed.after, step_once]
    cases c with
    | act operation => exact changes_act host n target operation hplain
    | newHeap sizing =>
      exact .addHeap sizing rfl (by rintro _ _ _ ⟨⟩) Array.map_push rfl
    | _ =>
      refine .of_prospect (by rintro _ _ _ ⟨⟩) ?_
      exact keeps_prospect_perform n target hplain (by simp) (by simp) host

/-- There is at most one heap more, if the deed makes one. -/
theorem Changes.size_le (h : host.Changes t d) : t.heaps.size ≤ host.heaps.size + if d.makesHeap then 1 else 0 := by
  rw [← size_views, ← size_views]
  cases h with
  | operation _ hviews =>
    rw [hviews, Array.size_setIfInBounds]
    exact Nat.le_add_right _ _
  | addHeap _ hmakes _ hviews => rw [hviews, Array.size_push, if_pos hmakes]
  | nothing _ hviews =>
    rw [hviews]
    exact Nat.le_add_right _ _

end Host

end Script

end ConsHeap
