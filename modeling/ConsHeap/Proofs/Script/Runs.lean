import ConsHeap.Proofs.Integrity
import ConsHeap.Proofs.Queries
import ConsHeap.Proofs.Script.Hosts

/-!
# Runs of a host

A host is given commands, in any order, for any of its heaps, and goes on after those that fail. The system may
have other memory to give at any time.

* `Command.Plain`: commands that can be written down and do not tamper with a heap.
* `Deed`, `Host.runs`: what is done to a host, and the state that it leads to.
* `Host.Makes`: what one deed does to the objects: it makes none, or one.
* `Host.Counted.deed`: every deed keeps all counts right, whether it is refused or not.
* `Host.Counted.runs`: **and so does every run.**
-/

namespace ConsHeap.Script

open Ledger

/-- The operands of a command. -/
def Command.operands : Command → List Operand
  | .closure _ _ captured => captured
  | .object _ body => body.values
  | .act operation => operation.operands
  | .child _ x | .copy x | .display x | .inspect x | .rootCount x | .slot x | .color x | .print x => [x]
  | .same x y => [x, y]
  | _ => []

/-- A command that can be written down, and does not change a heap behind its back. -/
structure Command.Plain (c : Command) : Prop where
  operands : ∀ x ∈ c.operands, x.Plain
  honest : ∀ change, c ≠ .tamper change

/-- What is done to a host: a command for a heap, whose new value may go to a variable, or another supply of
memory for a heap. -/
inductive Deed where
  | command (heap : Nat) (target : Option String) (command : { c : Command // c.Plain })
  | supply (heap : Nat) (memory : Paging.Supply)

/-- The heap that something is done to. -/
def Deed.heap : Deed → Nat
  | command heap .. => heap
  | supply heap _ => heap

/-- The host afterwards, whether a command was refused or not. -/
def Deed.after (host : Host) : Deed → Host
  | command heap target c => (host.step (.once heap target c.1)).2
  | supply heap memory => { host with heaps := host.heaps.modify heap (·.supplied memory) }

namespace Host

variable {host t : Host} {n : Nat} {target : Option String} {c : Command} {d : Deed} {deeds : List Deed}
  {i : Nat} {o : Object} {α β : Type}

/-- The host after a list of deeds. -/
def runs (host : Host) (deeds : List Deed) : Host := deeds.foldl Deed.after host

/-- What a deed on heap `n` does to the objects. One that it makes gets the finalizer that its tag has in that
heap. -/
inductive Makes (host : Host) (n : Nat) (t : Host) : Prop where
  | nothing : t.ledger.objectOf? = host.ledger.objectOf? → Makes host n t
  | object {h : Heap} {o : Object} :
    host.heaps[n]? = some h → o.header.finalizer = h.kinds.finalizer o.header.tag →
    (∀ i, t.ledger.objectOf? i = if i = host.ledger.entries.size then some o else host.ledger.objectOf? i) →
    Makes host n t

/-- Objects stay. -/
theorem Makes.objectOf? (h : host.Makes n t) (ho : host.ledger.objectOf? i = some o) :
    t.ledger.objectOf? i = some o := by
  cases h with
  | nothing heq => rw [heq, ho]
  | object _ _ hnew =>
    rw [hnew, if_neg, ho]
    rintro rfl
    rw [objectOf?_size] at ho
    cases ho

/-- An outcome of something done to heap `n`: an answer or a refusal, with all counts right. -/
structure Does (host : Host) (n : Nat) (r : EStateM.Result (Failure Error) Host α) : Prop where
  counted : (Outcome.state r).Counted []
  makes : host.Makes n (Outcome.state r)
  proper : ∀ f, Outcome.answer r ≠ .error (.fault f)

theorem Counts.does {r : EStateM.Result (Failure Error) Host α} (hr : host.Counts (fun _ _ => True) r) :
    host.Does n r := by
  refine ⟨hr.later.counted, .nothing hr.later.objects, fun f hf => ?_⟩
  cases r with
  | ok a t => cases hf
  | error e t =>
    obtain ⟨-, e, rfl⟩ := hr
    cases hf

theorem step_once (host : Host) (n : Nat) (target : Option String) (c : Command) :
    (host.step (.once n target c)).2 = Outcome.state (host.perform n target c) := by
  rw [step, runStep]
  cases perform n target c host <;> rfl

namespace Counted

variable (hc : host.Counted [])
include hc

/-! ## Operands -/

/-- The values of an operation are exchanged for values that are offered. -/
theorem evalOperation {op : Operation Operand} (hop : ∀ x ∈ op.operands, x.Plain) :
    host.Counts (fun op t => t = host ∧ ∀ v ∈ op.operands, host.Offers v) (op.mapM Host.eval host) := by
  have hone : ∀ {x : Operand} (f : Value → Operation Value), (∀ v, (f v).operands = [v]) → x.Plain →
      host.Counts (fun op t => t = host ∧ ∀ v ∈ op.operands, host.Offers v) ((f <$> Host.eval x) host) := by
    intro x f hf hx
    refine (hc.eval hx).map ?_
    rintro v t ⟨rfl, hv⟩
    refine ⟨rfl, fun w hw => ?_⟩
    rw [hf, List.mem_singleton] at hw
    rw [hw]
    exact hv
  have htwo : ∀ {x y : Operand} (f : Value → Value → Operation Value), (∀ v w, (f v w).operands = [v, w]) →
      x.Plain → y.Plain → host.Counts (fun op t => t = host ∧ ∀ v ∈ op.operands, host.Offers v)
        ((f <$> Host.eval x <*> Host.eval y) host) := by
    intro x y f hf hx hy
    refine hc.evalPair hx hy f fun v w hv hw u hu => ?_
    rw [hf] at hu
    rcases List.mem_pair.1 hu with rfl | rfl
    · exact hv
    · exact hw
  cases op with
  | cons tag car cdr =>
    exact htwo _ (fun _ _ => rfl) (hop car (by simp [Operation.operands])) (hop cdr (by simp [Operation.operands]))
  | rootedCons tag car cdr =>
    exact htwo _ (fun _ _ => rfl) (hop car (by simp [Operation.operands])) (hop cdr (by simp [Operation.operands]))
  | setChild side target x =>
    exact htwo _ (fun _ _ => rfl) (hop target (by simp [Operation.operands])) (hop x (by simp [Operation.operands]))
  | list items => exact (hc.evalAll hop).map fun _ _ h => h
  | root x => exact hone _ (fun _ => rfl) (hop x (by simp [Operation.operands]))
  | unroot x => exact hone _ (fun _ => rfl) (hop x (by simp [Operation.operands]))
  | shade x => exact hone _ (fun _ => rfl) (hop x (by simp [Operation.operands]))
  | scan | startCycle | sweep | collect => exact ⟨.refl hc, rfl, by simp [Operation.operands]⟩

/-- The values of a body are exchanged for values that are offered. -/
theorem evalBody {body : Body Operand} (hbody : ∀ x ∈ body.values, x.Plain) :
    host.Counts (fun b t => t = host ∧ ∀ v ∈ b.values, host.Offers v) (body.mapM Host.eval host) := by
  cases body with
  | closure arity code captured => exact (hc.evalAll hbody).map fun _ _ h => h
  | text | symbol | bytes => exact ⟨.refl hc, rfl, by simp [Body.values]⟩

/-! ## Commands -/

/-- A new object is delivered. -/
theorem deliverNew {act : MemoryM Object} (body : Body Value) (hbody : ∀ v ∈ body.values, host.Offers v)
    (hact : ∀ h, host.heaps[n]? = some h → (∃ e, act ⟨h, host.ledger⟩ = .error (.error e) ⟨h, host.ledger⟩) ∨
      ∃ tag, act ⟨h, host.ledger⟩ =
        .ok (host.ledger.create tag (h.kinds.finalizer tag) body).1
          ⟨h, (host.ledger.create tag (h.kinds.finalizer tag) body).2⟩) :
    host.Does n ((Host.onMemory n act >>= fun o => Host.deliver target o.value) host) := by
  cases hn : host.heaps[n]? with
  | none =>
    rw [bind_error (onMemory_none hn)]
    exact ⟨hc, .nothing rfl, by simp [Outcome.answer]⟩
  | some h =>
    have hheap := onMemory_eq act hn
    rcases hact h hn with ⟨e, he⟩ | ⟨tag, hok⟩
    · simp only [he] at hheap
      obtain ⟨held, hm, -, hback⟩ := hc.focusLater hn
      rw [bind_error hheap]
      exact ⟨hback ⟨h, host.ledger⟩ (.refl hm), .nothing rfl, by simp [Outcome.answer, Failure.map]⟩
    · simp only [hok] at hheap
      let made := host.ledger.create tag (h.kinds.finalizer tag) body
      obtain ⟨held, hm, hoffers, hback⟩ := hc.focus hn [made.1.value]
      have hcreate := hm.create tag (h.kinds.finalizer tag) fun x hx => hoffers x (hbody x hx)
      have howed := hback ⟨h, made.2⟩ hcreate (fun x hx => hx.create tag _ body) fun x hx => by
        rw [List.mem_singleton.1 hx]
        exact knows_create_self ..
      rw [bind_ok hheap]
      have hdeliver := howed.deliver target
      refine ⟨hdeliver.later.counted, .object (o := made.1) hn rfl fun i => ?_, (hdeliver.does (n := n)).proper⟩
      rw [hdeliver.later.objects]
      exact objectOf?_create ..

/-- The answer for an operation that went well. -/
theorem report (op : Operation Value) {r : Result} (hr : r.Plain) :
    host.Counts (fun _ _ => True) (Host.report n target op r host) := by
  unfold Host.report
  split
  · exact (hc.askSound fun h hg => hg.rootCount_ok _).map fun _ _ _ => trivial
  · exact (hc.askSound fun h hg => hg.rootCount_ok _).map fun _ _ _ => trivial
  · exact ⟨.refl hc, trivial⟩
  · exact (hc.atom hr).deliver target
  · exact ⟨.refl hc, trivial⟩

/-- What is done with operands that stand for values. -/
theorem bindNew {Q : α → Prop} {act : HostM α} {f : α → HostM β}
    (hact : host.Counts (fun a t => t = host ∧ Q a) (act host))
    (hf : ∀ a, Q a → host.Does n (f a host)) : host.Does n ((act >>= f) host) := by
  cases hr : act host with
  | ok a t =>
    rw [hr] at hact
    obtain ⟨-, rfl, ha⟩ := hact
    rw [bind_ok hr]
    exact hf a ha
  | error e t =>
    rw [hr] at hact
    rw [bind_error hr]
    exact Counts.does hact

omit hc in
/-- What is answered does not matter. -/
theorem answers {Q : α → Host → Prop} {act : HostM α} (hact : host.Counts Q (act host)) (f : α → Reply) :
    host.Counts (fun _ _ => True) ((act >>= fun a => pure (f a)) host) :=
  hact.bind fun _ _ ht _ => ⟨.refl ht, trivial⟩

/-- A value that is fetched from a cell is held there. -/
theorem mem_values_of_child {h : Heap} {side : Side} {v w : Value} (hn : host.heaps[n]? = some h)
    (hchild : h.child side v = .ok w) : w ∈ host.values := by
  rcases h.liveCell_cases v with ⟨e, -, he⟩ | ⟨tag, handle, cell, rfl, -, hcell, hlive⟩
  · rw [Heap.child, he] at hchild
    cases hchild
  rw [Heap.child, hlive] at hchild
  cases hchild
  have hmem : h ∈ host.heaps.toList := List.mem_of_getElem? (by rw [Array.getElem?_toList]; exact hn)
  have hall : h.view.All (· ∈ h.values) := (Heap.all_view (hc.memory hn).sound).2 fun _ hx => hx
  obtain ⟨hcar, hcdr⟩ := hall.of_contents (Heap.contents_view hcell)
  refine List.mem_append_right _ (List.mem_flatMap.2 ⟨h, hmem, ?_⟩)
  cases side
  · exact hcar
  · exact hcdr

/-- A new heap holds nothing. -/
theorem addHeap (sizing : Sizing) : (host.addHeap sizing).Counted [] := by
  have hvalues : (host.addHeap sizing).values = host.values := by
    simp only [values, Host.addHeap, Array.toList_push, List.flatMap_append, List.flatMap_singleton, values_new, List.append_nil]
  refine ⟨hc.names, fun h hmem ledger => ?_, ?_, ?_⟩
  · rw [Host.addHeap, Array.toList_push] at hmem
    rcases List.mem_append.1 hmem with hmem | hmem
    · exact hc.good h hmem ledger
    · rw [List.mem_singleton.1 hmem]
      exact Memory.good_start host.nextId sizing ledger
  · rw [hvalues]
    exact hc.exact
  · rw [hvalues]
    exact hc.known

/-- What was in a variable that is dropped is released. -/
theorem drop (name : String) : host.Counts (fun _ _ => True) (Host.perform n target (.drop name) host) := by
  have herase := hc.erase name
  rw [Host.perform, bind_get]
  cases hfind : host.bindings.find? name with
  | none => exact ⟨.refl hc, trivial⟩
  | some v =>
    rw [hfind] at herase
    obtain ⟨hcounted, hobjects⟩ := herase.release
    exact ⟨⟨hcounted, hobjects⟩, trivial⟩

/-- **Every command keeps all counts right, whether it is refused or not.** -/
theorem perform (hplain : c.Plain) : host.Does n (host.perform n target c) := by
  obtain ⟨hops, hhonest⟩ := hplain
  cases c with
  | newHeap sizing => exact Counts.does ⟨⟨hc.addHeap sizing, rfl⟩, trivial⟩
  | sizing => exact Counts.does (answers hc.heapAt _)
  | text s => exact hc.deliverNew (.text s) (by simp [Body.values]) fun h _ => .inr ⟨.text, Memory.standard_ok ..⟩
  | symbol s =>
    exact hc.deliverNew (.symbol s) (by simp [Body.values]) fun h _ => .inr ⟨.symbol, Memory.standard_ok ..⟩
  | closure arity code captured =>
    refine hc.bindNew (hc.evalAll hops) fun vs hvs => ?_
    exact hc.deliverNew (.closure arity code vs) hvs fun h _ => .inr ⟨.closure, Memory.standard_ok ..⟩
  | object tag body =>
    refine hc.bindNew (hc.evalBody hops) fun b hb => ?_
    exact hc.deliverNew b hb fun h _ => Memory.object_cases ..
  | register tag kind =>
    have hheap := hc.onMemory (n := n) (P := fun _ => True) fun h held hm _ => hm.register tag kind
    refine Counts.does (hheap.bind fun _ _ ht _ => ?_)
    exact ⟨.refl ht, trivial⟩
  | kind tag => exact Counts.does (answers hc.heapAt _)
  | act operation =>
    refine Counts.does ((hc.evalOperation hops).bind ?_)
    rintro op t - ⟨rfl, hoffers⟩
    refine (hc.onMemory fun h held hm hsecures => hm.run fun x hx => hsecures x (hoffers x hx)).bind ?_
    exact fun r t ht hr => ht.report op hr
  | child side x =>
    refine Counts.does ((hc.eval (hops x (by simp [Command.operands]))).bind ?_)
    rintro v t - ⟨rfl, -⟩
    refine (hc.ask _).bind ?_
    rintro w t - ⟨rfl, h, hn, hchild⟩
    exact hc.deliverCopy (.inr (hc.mem_values_of_child hn hchild)) target
  | copy x =>
    refine Counts.does ((hc.eval (hops x (by simp [Command.operands]))).bind ?_)
    rintro v t - ⟨rfl, hv⟩
    exact hc.deliverCopy (hv.imp_right fun h => List.mem_append_left _ h) target
  | display x => exact Counts.does (answers (hc.eval (hops x (by simp [Command.operands]))) _)
  | inspect x => exact Counts.does (answers (hc.eval (hops x (by simp [Command.operands]))) _)
  | rootCount x =>
    refine Counts.does ((hc.eval (hops x (by simp [Command.operands]))).bind fun v t ht _ => ?_)
    exact answers (ht.askSound fun h hg => hg.rootCount_ok v) _
  | slot x =>
    refine Counts.does ((hc.eval (hops x (by simp [Command.operands]))).bind fun v t ht _ => ?_)
    exact answers (ht.ask _) _
  | color x =>
    refine Counts.does ((hc.eval (hops x (by simp [Command.operands]))).bind fun v t ht _ => ?_)
    exact answers (ht.ask _) _
  | print x =>
    refine Counts.does ((hc.eval (hops x (by simp [Command.operands]))).bind fun v t ht _ => ?_)
    exact answers (ht.ask _) _
  | isScanned => exact Counts.does (answers hc.heapAt _)
  | occupancy => exact Counts.does (answers (hc.askSound fun h hg => hg.occupancy_ok) _)
  | bounds => exact Counts.does (answers hc.heapAt _)
  | check =>
    refine Counts.does (hc.heapAt.bind ?_)
    rintro h t - ⟨rfl, hn⟩
    have hcheck : h.check = .ok () := (hc.memory hn).check
    rw [hcheck]
    exact ⟨.refl hc, trivial⟩
  | same x y =>
    refine Counts.does ((hc.eval (hops x (by simp [Command.operands]))).bind fun v t ht _ => ?_)
    exact answers (ht.eval (hops y (by simp [Command.operands]))) _
  | drop name => exact Counts.does (hc.drop name)
  | holders name =>
    have hname : (Operand.named name).Plain := trivial
    refine Counts.does ((hc.eval hname).bind fun v t ht _ => ?_)
    cases v with
    | _ => exact ⟨.refl ht, trivial⟩
  | tamper change => exact absurd rfl (hhonest change)

/-- Another supply of memory changes neither cells nor objects. -/
theorem supplied (n : Nat) (memory : Paging.Supply) :
    Counted { host with heaps := host.heaps.modify n (·.supplied memory) } [] := by
  have hget : ∀ k : Nat, (host.heaps.modify n (·.supplied memory)).toList[k]? =
      if n = k then host.heaps.toList[k]?.map (·.supplied memory) else host.heaps.toList[k]? := by
    intro k
    rw [Array.getElem?_toList, Array.getElem?_modify, Array.getElem?_toList]
  have hmap : (host.heaps.modify n (·.supplied memory)).toList.map Heap.values = host.heaps.toList.map Heap.values := by
    refine List.ext_getElem? fun k => ?_
    rw [List.getElem?_map, List.getElem?_map, hget]
    split
    · cases host.heaps.toList[k]? <;> rfl
    · rfl
  have hvalues : values { host with heaps := host.heaps.modify n (·.supplied memory) } = host.values := by
    simp only [values, List.flatMap_def, hmap]
  refine ⟨hc.names, fun h hmem ledger => ?_, ?_, ?_⟩
  · obtain ⟨k, hk⟩ := List.mem_iff_getElem?.1 hmem
    rw [hget] at hk
    split at hk
    · obtain ⟨g, hg, rfl⟩ := Option.map_eq_some_iff.1 hk
      obtain ⟨hsound, hsafe⟩ := hc.good g (List.mem_of_getElem? hg) ledger
      exact ⟨hsound.supplied memory, hsafe⟩
    · exact hc.good h (List.mem_of_getElem? hk) ledger
  · rw [hvalues]
    exact hc.exact
  · rw [hvalues]
    exact hc.known

/-- **Every deed keeps all counts right.** -/
theorem deed (d : Deed) : (d.after host).Counted [] ∧ host.Makes d.heap (d.after host) := by
  cases d with
  | command n target c =>
    have hdoes : host.Does n (host.perform n target c.1) := hc.perform c.2
    rw [Deed.after, step_once]
    exact ⟨hdoes.counted, hdoes.makes⟩
  | supply n memory => exact ⟨hc.supplied n memory, .nothing rfl⟩

/-- **Every run keeps all counts right.** -/
theorem runs (deeds : List Deed) : (host.runs deeds).Counted [] := by
  induction deeds generalizing host with
  | nil => exact hc
  | cons d deeds ih => exact ih (hc.deed d).1

end Counted

end Host

end ConsHeap.Script
