import ConsHeap.Proofs.Memory.Counts
import ConsHeap.Proofs.Names
import ConsHeap.Proofs.Operands
import ConsHeap.Script.Host

/-!
# Counting on a host

The objects of a host are held by variables, by the cells of all heaps, and by other objects. A value that is
handed on with a count of it is owed until it is delivered.

* `Host.values`, `Host.Counted`: the values that are held, and the invariant.
* `Host.Offers`: the values that a command can name.
* `Host.put`: another heap in the place of one, with another ledger.
* `Host.Counts`: the outcome of an action that makes no object.
* `Host.Counted.focus`, `Host.Counted.focusLater`: a heap of the host, with all that is held elsewhere.
* `Host.Counted.onMemory`, `Host.Counted.eval`, `Host.Counted.deliver`: the parts of a command.
-/

namespace ConsHeap.Script.Host

open Ledger

variable {host t : Host} {owed more : List Value} {n : Nat} {h : Heap} {v : Value} {α β γ : Type}
  {Q : α → Host → Prop} {R : β → Host → Prop}

/-- The values that variables and cells hold. -/
def values (host : Host) : List Value := host.bindings.values ++ host.heaps.toList.flatMap Heap.values

/-- All heaps are good, and every object is counted as often as it is held: by variables, by cells, by objects,
and by whom the values `owed` were handed to. -/
structure Counted (host : Host) (owed : List Value) : Prop where
  names : host.bindings.Sorted
  good : ∀ h ∈ host.heaps.toList, ∀ ledger, Memory.Good ⟨h, ledger⟩
  exact : host.ledger.Exact (holdersIn (owed ++ host.values))
  known : ∀ x ∈ owed ++ host.values, host.ledger.Knows x

/-- A later host with the same objects, in which all counts are right and nothing is owed. -/
structure Later (host t : Host) : Prop where
  counted : t.Counted []
  objects : t.ledger.objectOf? = host.ledger.objectOf?

/-- An outcome with all counts right: an answer of which `Q` holds, or a refusal. -/
def Counts (host : Host) (Q : α → Host → Prop) : EStateM.Result (Failure Error) Host α → Prop
  | .ok a t => host.Later t ∧ Q a t
  | .error f t => host.Later t ∧ ∃ e, f = .error e

/-- The host with another heap `n` and another ledger. -/
def put (host : Host) (n : Nat) (m : Memory) : Host :=
  { host with
    heaps := host.heaps.setIfInBounds n m.heap
    ledger := m.ledger }

/-- The values that a command can name: atoms, and what is in variables. -/
def Offers (host : Host) (v : Value) : Prop := v.object? = none ∨ v ∈ host.bindings.values

theorem Later.refl (hc : host.Counted []) : host.Later host := ⟨hc, rfl⟩

theorem Later.of_objects {u : Host} (hl : t.Later u) (h : t.ledger.objectOf? = host.ledger.objectOf?) :
    host.Later u := ⟨hl.counted, hl.objects.trans h⟩

theorem Counts.later {r : EStateM.Result (Failure Error) Host α} (hr : host.Counts Q r) :
    host.Later (Outcome.state r) := by
  cases r with
  | ok a t => exact hr.1
  | error e t => exact hr.1

/-- An outcome is judged from any host with the same objects. -/
theorem Counts.of_objects {r : EStateM.Result (Failure Error) Host α} (hr : t.Counts Q r)
    (h : t.ledger.objectOf? = host.ledger.objectOf?) : host.Counts Q r := by
  cases r with
  | ok a u => exact ⟨hr.1.of_objects h, hr.2⟩
  | error e u => exact ⟨hr.1.of_objects h, hr.2⟩

/-- What one step leaves right is where the next one starts. -/
theorem Counts.bind {act : HostM α} {f : α → HostM β} (hact : host.Counts Q (act host))
    (hf : ∀ a t, t.Counted [] → Q a t → t.Counts R (f a t)) : host.Counts R ((act >>= f) host) := by
  cases hr : act host with
  | ok a t =>
    rw [hr] at hact
    rw [bind_ok hr]
    exact (hf a t hact.1.counted hact.2).of_objects hact.1.objects
  | error e t =>
    rw [hr] at hact
    rw [bind_error hr]
    exact hact

theorem Counts.map {act : HostM α} {f : α → β} (hact : host.Counts Q (act host))
    (hf : ∀ a t, Q a t → R (f a) t) : host.Counts R ((f <$> act) host) := by
  cases hr : act host with
  | ok a t =>
    rw [hr] at hact
    rw [map_ok hr]
    exact ⟨hact.1, hf a t hact.2⟩
  | error e t =>
    rw [hr] at hact
    rw [map_error hr]
    exact hact

/-! ## A new host -/

/-- A new heap holds nothing. -/
theorem values_new (id : UInt32) (sizing : Sizing) : (Heap.new id sizing).values = [] := rfl

theorem counted_start (first : UInt32) (sizing : Sizing) : (start first sizing).Counted [] where
  names := Names.sorted_empty
  good := by
    intro h hmem ledger
    obtain rfl := List.mem_singleton.1 hmem
    exact Memory.good_start first sizing ledger
  exact := exact_empty
  known := by
    intro x hx
    cases hx

namespace Counted

/-! ## Values -/

/-- A value that is held somewhere is known and counted. -/
theorem holds (hc : host.Counted owed) (hv : v.object? = none ∨ v ∈ owed ++ host.values) :
    host.ledger.Knows v ∧ host.ledger.Holds v := by
  rcases hv with hv | hv
  · refine ⟨knows_of_object?_eq_none hv, hc.exact.balanced.holds fun i => ?_⟩
    rw [holdersIn_eq_zero hv]
    exact Nat.zero_le _
  · exact ⟨hc.known v hv, hc.exact.balanced.holds (holdersIn_le_of_mem hv)⟩

/-- One more holder of a value that is held somewhere. -/
theorem retain (hc : host.Counted owed) (hv : v.object? = none ∨ v ∈ owed ++ host.values) :
    Counted { host with ledger := host.ledger.retain v } (v :: owed) := by
  obtain ⟨hknown, hholds⟩ := hc.holds hv
  have hobjects := objectOf?_retain host.ledger v
  refine ⟨hc.names, hc.good, ?_, fun x hx => (knows_congr hobjects).2 ?_⟩
  · rw [List.cons_append, holdersIn_cons]
    exact hc.exact.retain hholds
  · rcases List.mem_cons.1 hx with rfl | hx
    · exact hknown
    · exact hc.known x hx

/-- A value that is owed is released. -/
theorem release (hc : host.Counted (v :: owed)) :
    Counted { host with ledger := host.ledger.release v } owed ∧
      (host.ledger.release v).objectOf? = host.ledger.objectOf? := by
  have hexact := hc.exact
  rw [List.cons_append, holdersIn_cons] at hexact
  have hknown := hc.known v List.mem_cons_self
  have hrel := released v hexact.sound hknown hexact.balanced
  refine ⟨⟨hc.names, hc.good, hexact.of_released hrel, fun x hx => ?_⟩, hrel.releases.objects⟩
  exact (knows_congr hrel.releases.objects).2 (hc.known x (List.mem_cons_of_mem _ hx))

/-- Values that are counted nowhere may be owed. -/
theorem atom (hc : host.Counted owed) (hv : v.object? = none) : host.Counted (v :: owed) := by
  refine ⟨hc.names, hc.good, ?_, fun x hx => ?_⟩
  · rw [List.cons_append, holdersIn_cons, holdersIn_eq_zero hv, add_zero]
    exact hc.exact
  · rcases List.mem_cons.1 hx with rfl | hx
    · exact knows_of_object?_eq_none hv
    · exact hc.known x hx

/-- A value that is owed comes under a name, and what was there is owed. -/
theorem insert (hc : host.Counted [v]) (name : String) :
    Counted { host with bindings := host.bindings.insert name v } (host.bindings.find? name).toList := by
  have hperm : ((host.bindings.find? name).toList ++ ((host.bindings.insert name v).values ++
      host.heaps.toList.flatMap Heap.values)).Perm ([v] ++ host.values) := by
    rw [← List.append_assoc]
    exact (List.perm_append_comm.trans (Names.values_insert_perm hc.names name v)).append_right _
  refine ⟨hc.names.insert name v, hc.good, ?_, fun x hx => hc.known x (hperm.mem_iff.1 hx)⟩
  rw [values, holdersIn_perm hperm]
  exact hc.exact

/-- What is under a name is owed when the name is dropped. -/
theorem erase (hc : host.Counted []) (name : String) :
    Counted { host with bindings := host.bindings.erase name } (host.bindings.find? name).toList := by
  have hperm : ((host.bindings.find? name).toList ++ ((host.bindings.erase name).values ++
      host.heaps.toList.flatMap Heap.values)).Perm host.values := by
    rw [← List.append_assoc]
    exact (List.perm_append_comm.trans (Names.values_erase_perm hc.names name)).append_right _
  refine ⟨hc.names.erase name, hc.good, ?_, fun x hx => hc.known x (hperm.mem_iff.1 hx)⟩
  rw [values, holdersIn_perm hperm]
  exact hc.exact

/-- Names of values that are no objects can be dropped. -/
theorem keep (hc : host.Counted owed) (test : Value → Bool)
    (h : ∀ v ∈ host.bindings.values, test v = false → v.object? = none) :
    Counted { host with bindings := host.bindings.keep test } owed := by
  have hvalues := Names.values_keep host.bindings test
  refine ⟨hc.names.keep test, hc.good, ?_, fun x hx => ?_⟩
  · rw [values, hvalues, holdersIn_append, holdersIn_append, holdersIn_filter h, ← holdersIn_append,
      ← holdersIn_append]
    exact hc.exact
  · rw [values, hvalues] at hx
    refine hc.known x ?_
    rcases List.mem_append.1 hx with hx | hx
    · exact List.mem_append_left _ hx
    · rcases List.mem_append.1 hx with hx | hx
      · exact List.mem_append_right _ (List.mem_append_left _ (List.mem_of_mem_filter hx))
      · exact List.mem_append_right _ (List.mem_append_right _ hx)

/-! ## One of the heaps -/

/-- One heap and the ledger are counted as such, with all that is held by variables and by other heaps held
from elsewhere. They can be exchanged for another heap and ledger in which that is still so, with more values
owed. -/
theorem focus (hc : host.Counted []) (hn : host.heaps[n]? = some h) (more : List Value) :
    ∃ held, Memory.Counted ⟨h, host.ledger⟩ held ∧ (∀ x, host.Offers x → host.ledger.Secures held x) ∧
      ∀ m : Memory, m.Counted (held + holdersIn more) →
        (∀ x, host.ledger.Knows x → m.ledger.Knows x) → (∀ x ∈ more, m.ledger.Knows x) →
        (host.put n m).Counted more := by
  obtain ⟨heaps, ledger, bindings, nextId⟩ := host
  obtain ⟨as, bs, hlist, hset⟩ : ∃ as bs, heaps.toList = as ++ h :: bs ∧
      ∀ h', (heaps.setIfInBounds n h').toList = as ++ h' :: bs := by
    rw [← Array.getElem?_toList] at hn
    obtain ⟨hlt, rfl⟩ := List.getElem?_eq_some_iff.1 hn
    refine ⟨heaps.toList.take n, heaps.toList.drop (n + 1), ?_, fun h' => ?_⟩
    · rw [← List.drop_eq_getElem_cons hlt, List.take_append_drop]
    · rw [Array.toList_setIfInBounds, List.set_eq_take_append_cons_drop, if_pos hlt]
  let others := bindings.values ++ (as ++ bs).flatMap Heap.values
  have hvalues : ∀ g : Heap, (bindings.values ++ (as ++ g :: bs).flatMap Heap.values).Perm (others ++ g.values) := by
    intro g
    rw [List.flatMap_append, List.flatMap_cons, List.append_assoc, List.flatMap_append]
    exact ((List.perm_append_comm_assoc ..).trans List.perm_append_comm |>.append_left _).trans (by simp)
  obtain ⟨hnames, hgood, hexact, hknown⟩ := hc
  simp only [values, List.nil_append, hlist] at hexact hknown
  have hg : Memory.Good ⟨h, ledger⟩ := hgood h (by rw [hlist]; simp) ledger
  have hs : h.tables.Sound := hg.sound
  refine ⟨holdersIn others, ⟨hg, ?_, ?_⟩, ?_, ?_⟩
  · rw [Heap.held_view hs, ← holdersIn_append, ← holdersIn_perm (hvalues h)]
    exact hexact
  · rw [Heap.all_view hs]
    exact fun x hx => hknown x ((hvalues h).mem_iff.2 (List.mem_append_right _ hx))
  · intro x hx
    rcases hx with hx | hx
    · exact secures_of_object?_eq_none hx
    · have hmem : x ∈ others := List.mem_append_left _ hx
      exact ⟨hknown x (List.mem_append_left _ hx), holdersIn_le_of_mem hmem⟩
  · intro m hm hkept hmore
    have hperm : (more ++ (bindings.values ++ (as ++ m.heap :: bs).flatMap Heap.values)).Perm
        (others ++ more ++ m.heap.values) := by
      refine ((hvalues m.heap).append_left more).trans ?_
      rw [← List.append_assoc]
      exact List.perm_append_comm.append_right _
    refine ⟨hnames, ?_, ?_, ?_⟩
    · intro g hmem ledger
      rw [put, hset] at hmem
      rcases List.mem_append.1 hmem with hmem | hmem
      · exact hgood g (by rw [hlist]; exact List.mem_append_left _ hmem) ledger
      · rcases List.mem_cons.1 hmem with rfl | hmem
        · exact ⟨hm.good.sound, hm.good.safe⟩
        · exact hgood g (by rw [hlist]; exact List.mem_append_right _ (List.mem_cons_of_mem _ hmem)) ledger
    · simp only [values, put, hset]
      rw [holdersIn_perm hperm, holdersIn_append, holdersIn_append, ← Heap.held_view hm.sound]
      exact hm.exact
    · simp only [values, put, hset]
      intro x hx
      rcases List.mem_append.1 (hperm.mem_iff.1 hx) with hx | hx
      · rcases List.mem_append.1 hx with hx | hx
        · exact hkept x (hknown x ((hvalues h).mem_iff.2 (List.mem_append_left _ hx)))
        · exact hmore x hx
      · exact (Heap.all_view hm.sound).1 hm.known x hx

/-- One heap and the ledger can be exchanged for what an action on them that makes no object leaves. -/
theorem focusLater (hc : host.Counted []) (hn : host.heaps[n]? = some h) :
    ∃ held, Memory.Counted ⟨h, host.ledger⟩ held ∧ (∀ x, host.Offers x → host.ledger.Secures held x) ∧
      ∀ m : Memory, Memory.Later ⟨h, host.ledger⟩ held m →
        (host.put n m).Counted [] := by
  obtain ⟨held, hm, hoffers, hback⟩ := hc.focus hn []
  refine ⟨held, hm, hoffers, fun m hl => ?_⟩
  refine hback m ?_ (fun x hx => (knows_congr hl.objects).2 hx) (by simp)
  rw [holdersIn_nil, add_zero]
  exact hl.counted

/-! ## Parts of a command -/

variable {name : String} {x : Operand}

/-- A heap and the ledger after an action on them are put back. -/
theorem onMemory_eq (act : MemoryM α) (hn : host.heaps[n]? = some h) :
    Host.onMemory n act host =
      match act ⟨h, host.ledger⟩ with
      | .ok a m => .ok a (host.put n m)
      | .error e m => .error (e.map .heap) (host.put n m) := by
  obtain ⟨heaps, ledger, bindings, nextId⟩ := host
  cases hact : act ⟨h, ledger⟩ <;> simp only [Host.onMemory, put, hn, hact, Array.setIfInBounds_setIfInBounds]

/-- An action on a heap that does not exist is refused. -/
theorem onMemory_none {act : MemoryM α} (hn : host.heaps[n]? = none) :
    Host.onMemory n act host = .error (.error (.noHeap n)) host := by
  simp only [Host.onMemory, hn]

/-- An action that keeps the counts of any heap right keeps those of the host right. -/
theorem onMemory (hc : host.Counted []) {act : MemoryM α} {P : α → Prop}
    (hact : ∀ h held, Memory.Counted ⟨h, host.ledger⟩ held → (∀ x, host.Offers x → host.ledger.Secures held x) →
      Memory.Counts ⟨h, host.ledger⟩ held P (act ⟨h, host.ledger⟩)) :
    host.Counts (fun a _ => P a) (Host.onMemory n act host) := by
  cases hn : host.heaps[n]? with
  | none =>
    rw [onMemory_none hn]
    exact ⟨.refl hc, _, rfl⟩
  | some h =>
    obtain ⟨held, hm, hoffers, hback⟩ := hc.focusLater hn
    have hlater : ∀ m : Memory, Memory.Later ⟨h, host.ledger⟩ held m →
        host.Later (host.put n m) :=
      fun m hl => ⟨hback m hl, hl.objects⟩
    have hcounts := hact h held hm hoffers
    rw [onMemory_eq act hn]
    cases hr : act ⟨h, host.ledger⟩ with
    | ok a m =>
      rw [hr] at hcounts
      exact ⟨hlater m hcounts.1, hcounts.2⟩
    | error e m =>
      rw [hr] at hcounts
      obtain ⟨hl, e, rfl⟩ := hcounts
      exact ⟨hlater m hl, _, rfl⟩

/-- A heap by its number, if it exists. -/
theorem heapAt (hc : host.Counted []) :
    host.Counts (fun h t => t = host ∧ host.heaps[n]? = some h) (Host.heapAt n host) := by
  rw [Host.heapAt, bind_get]
  cases hn : host.heaps[n]? with
  | none => exact ⟨.refl hc, _, rfl⟩
  | some h => exact ⟨.refl hc, rfl, rfl⟩

/-- A heap of the host is good. -/
theorem memory (hc : host.Counted owed) (hn : host.heaps[n]? = some h) : Memory.Good ⟨h, host.ledger⟩ :=
  hc.good h (List.mem_of_getElem? (by rw [Array.getElem?_toList]; exact hn)) _

/-- A question to a heap changes nothing. -/
theorem ask (hc : host.Counted []) (question : Heap → Except HeapError α) :
    host.Counts (fun a t => t = host ∧ ∃ h, host.heaps[n]? = some h ∧ question h = .ok a)
      (Host.ask n question host) := by
  refine hc.heapAt.bind ?_
  rintro h t - ⟨rfl, hn⟩
  cases hq : question h with
  | ok a => exact ⟨.refl hc, rfl, h, hn, hq⟩
  | error e => exact ⟨.refl hc, _, rfl⟩

/-- A question that every good heap answers. -/
theorem askSound (hc : host.Counted []) {question : Heap → Except Fault α}
    (hq : ∀ h, Memory.Good ⟨h, host.ledger⟩ → ∃ a, question h = .ok a) :
    host.Counts (fun _ _ => True) (Host.askSound n question host) := by
  refine hc.heapAt.bind ?_
  rintro h t - ⟨rfl, hn⟩
  obtain ⟨a, ha⟩ := hq h (hc.memory hn)
  rw [ha]
  exact ⟨.refl hc, trivial⟩

/-- An operand that can be written down stands for a value that is offered, or its name is not bound. -/
theorem eval (hc : host.Counted []) (hx : x.Plain) :
    host.Counts (fun v t => t = host ∧ host.Offers v) (Host.eval x host) := by
  rw [Host.eval, bind_get]
  rcases hx.value?_cases host.bindings with ⟨name, he⟩ | ⟨v, hv, hatom⟩
  · rw [he]
    exact ⟨.refl hc, _, rfl⟩
  · rw [hv]
    refine ⟨.refl hc, rfl, ?_⟩
    rcases hatom with hatom | ⟨name, hfind⟩
    · exact .inl hatom.object?
    · exact .inr (Names.mem_values_of_find? hc.names hfind)

theorem evalAll (hc : host.Counted []) {xs : List Operand} (hxs : ∀ x ∈ xs, x.Plain) :
    host.Counts (fun vs t => t = host ∧ ∀ v ∈ vs, host.Offers v) (xs.mapM Host.eval host) := by
  induction xs with
  | nil => exact ⟨.refl hc, rfl, by simp⟩
  | cons x xs ih =>
    rw [List.mapM_cons]
    refine (hc.eval (hxs x List.mem_cons_self)).bind ?_
    rintro v t - ⟨rfl, hv⟩
    refine (ih fun y hy => hxs y (List.mem_cons_of_mem _ hy)).bind ?_
    rintro vs t - ⟨rfl, hvs⟩
    exact ⟨.refl hc, rfl, List.forall_mem_cons.2 ⟨hv, hvs⟩⟩

/-- Two operands, one after the other. -/
theorem evalPair (hc : host.Counted []) {y : Operand} (hx : x.Plain) (hy : y.Plain) (f : Value → Value → γ)
    {S : γ → Prop} (hf : ∀ v w, host.Offers v → host.Offers w → S (f v w)) :
    host.Counts (fun c t => t = host ∧ S c) ((f <$> Host.eval x <*> Host.eval y) host) := by
  rw [seq_eq_bind_map]
  refine ((hc.eval hx).map (R := fun g t => t = host ∧ ∀ w, host.Offers w → S (g w)) ?_).bind ?_
  · rintro v t ⟨rfl, hv⟩
    exact ⟨rfl, fun w hw => hf v w hv hw⟩
  · rintro g t - ⟨rfl, hg⟩
    refine (hc.eval hy).map ?_
    rintro w t ⟨rfl, hw⟩
    exact ⟨rfl, hg w hw⟩

/-- A value that is owed goes to a variable or to nobody. -/
theorem deliver (hc : host.Counted [v]) (target : Option String) :
    host.Counts (fun _ _ => True) (Host.deliver target v host) := by
  cases target with
  | none =>
    obtain ⟨hcounted, hobjects⟩ := hc.release
    exact ⟨⟨hcounted, hobjects⟩, trivial⟩
  | some name =>
    have hinsert := hc.insert name
    rw [Host.deliver]
    simp only [bind_get, bind_modify]
    cases hfind : host.bindings.find? name with
    | none =>
      rw [hfind] at hinsert
      exact ⟨⟨hinsert, rfl⟩, trivial⟩
    | some old =>
      rw [hfind] at hinsert
      obtain ⟨hcounted, hobjects⟩ := hinsert.release
      exact ⟨⟨hcounted, hobjects⟩, trivial⟩

/-- A value that is held somewhere is delivered with a count of its own. -/
theorem deliverCopy (hc : host.Counted []) (hv : v.object? = none ∨ v ∈ host.values) (target : Option String) :
    host.Counts (fun _ _ => True) (Host.deliverCopy target v host) :=
  ((hc.retain hv).deliver target).of_objects (objectOf?_retain ..)

end Counted

end ConsHeap.Script.Host
