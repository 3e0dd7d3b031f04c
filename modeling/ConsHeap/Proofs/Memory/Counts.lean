import ConsHeap.Proofs.Ledger.Exact
import ConsHeap.Proofs.Memory.Runs
import ConsHeap.Proofs.View.Holders

/-!
# Counting in a heap and its ledger

The objects of a heap are held by its cells, by other objects, and from elsewhere. A new cell holds its values
and no longer holds what its storage had held; a value that is put on one side of a cell takes the place of the
one that was there. Both are counted, and nothing else changes what a heap holds.

* `Ledger.Secures`: a value that is held from elsewhere.
* `Ledger.Exact.refilled`, `Ledger.Exact.replaced`: the two changes.
* `Memory.Counted`: the invariant of a heap and its ledger.
* `Memory.Counts`: the outcome of an action that makes no object.
* `Memory.Counted.run`: **every operation keeps all counts right, whether it is refused or not.**
-/

namespace ConsHeap

namespace Ledger

variable {ledger ledger' : Ledger} {held rest : Nat → Nat} {car cdr old x : Value} {spare : Cell}

/-- A value that is known, and held from outside at least as often as it occurs. -/
structure Secures (ledger : Ledger) (held : Nat → Nat) (x : Value) : Prop where
  known : ledger.Knows x
  held : ∀ i, holdersIn [x] i ≤ held i

theorem secures_of_object?_eq_none (hx : x.object? = none) : ledger.Secures held x where
  known := knows_of_object?_eq_none hx
  held i := by
    rw [holdersIn_eq_zero hx]
    exact Nat.zero_le _

theorem Secures.mono {more : Nat → Nat} (h : ledger.Secures held x) (hle : ∀ i, held i ≤ more i)
    (hobjects : ledger'.objectOf? = ledger.objectOf?) : ledger'.Secures more x where
  known := (knows_congr hobjects).2 h.known
  held i := Nat.le_trans (h.held i) (hle i)

/-- A value that is put on one side of a cell takes the place of another. -/
theorem holdersIn_setChild (c : Cell) (x : Value) (side : Side) :
    holdersIn (c.setChild x side).values + holdersIn [c.child side] = holdersIn c.values + holdersIn [x] := by
  have hpair : ∀ x y : Value, holdersIn [x, y] = holdersIn [x] + holdersIn [y] := fun x y =>
    holdersIn_append [x] [y]
  cases side with
  | car =>
    show holdersIn [x, c.cdr] + holdersIn [c.car] = holdersIn [c.car, c.cdr] + holdersIn [x]
    rw [hpair, hpair]
    ac_rfl
  | cdr =>
    show holdersIn [c.car, x] + holdersIn [c.cdr] = holdersIn [c.car, c.cdr] + holdersIn [x]
    rw [hpair, hpair]
    ac_rfl

/-- Two values take the places of those that a cell held. -/
theorem Exact.refilled (h : ledger.Exact held) (hcar : ledger.Secures held car) (hcdr : ledger.Secures held cdr)
    (hspare : ∀ x ∈ spare.values, ledger.Knows x)
    (hsum : rest + holdersIn spare.values = held + holdersIn [car, cdr]) :
    (ledger.refilled car cdr spare).Exact rest ∧
      (ledger.refilled car cdr spare).objectOf? = ledger.objectOf? := by
  have hmore : ([car, cdr].foldl Ledger.retain ledger).Exact (held + holdersIn [car, cdr]) := by
    refine h.retainAll fun x hx => ?_
    rcases List.mem_pair.1 hx with rfl | rfl
    · exact hcar.held
    · exact hcdr.held
  have hobjects : ([car, cdr].foldl Ledger.retain ledger).objectOf? = ledger.objectOf? := objectOf?_foldl_retain ..
  rw [← hsum] at hmore
  have hrel := releasedAll spare.values hmore.sound
    (fun x hx => (knows_congr hobjects).2 (hspare x hx)) hmore.balanced
  exact ⟨hmore.of_released hrel, hrel.releases.objects.trans hobjects⟩

/-- One value takes the place of another. -/
theorem Exact.replaced (h : ledger.Exact held) (hx : ledger.Secures held x) (hold : ledger.Knows old)
    (hsum : rest + holdersIn [old] = held + holdersIn [x]) :
    ((ledger.retain x).release old).Exact rest ∧
      ((ledger.retain x).release old).objectOf? = ledger.objectOf? := by
  have hmore := h.retain (h.balanced.holds hx.held)
  have hobjects := objectOf?_retain ledger x
  rw [← hsum] at hmore
  have hrel := released old hmore.sound ((knows_congr hobjects).2 hold) hmore.balanced
  exact ⟨hmore.of_released hrel, hrel.releases.objects.trans hobjects⟩

end Ledger

/-- An answer that is no object. -/
def Result.Plain : Result → Prop
  | .value v => v.object? = none
  | _ => True

namespace Memory

open Ledger

variable {m m' m'' : Memory} {h : Heap} {held : Nat → Nat} {v w u : View} {tag : Tag} {car cdr x : Value}
  {handle : Handle} {α β : Type} {P : α → Prop} {Q : β → Prop}

/-- The heap is good, and every object is counted as often as it is held: by cells of the heap, by objects, and
`held` times from elsewhere. -/
structure Counted (m : Memory) (held : Nat → Nat) : Prop where
  good : m.Good
  exact : m.ledger.Exact (held + m.heap.view.held)
  known : m.heap.view.All m.ledger.Knows

/-- A later memory with the same objects, in which all counts are right again. -/
structure Later (m : Memory) (held : Nat → Nat) (m' : Memory) : Prop where
  counted : m'.Counted held
  objects : m'.ledger.objectOf? = m.ledger.objectOf?

/-- An outcome with all counts right: an answer of which `P` holds, or a refusal. -/
def Counts (m : Memory) (held : Nat → Nat) (P : α → Prop) : EStateM.Result (Failure HeapError) Memory α → Prop
  | .ok a m' => m.Later held m' ∧ P a
  | .error f m' => m.Later held m' ∧ ∃ e, f = .error e

theorem Counted.sound (h : m.Counted held) : m.heap.tables.Sound := h.good.sound

theorem Later.refl (h : m.Counted held) : m.Later held m := ⟨h, rfl⟩

theorem Later.trans (h : m.Later held m') (h' : m'.Later held m'') : m.Later held m'' :=
  ⟨h'.counted, h'.objects.trans h.objects⟩

/-- What one step leaves right is where the next one starts. -/
theorem Counts.bind {act : MemoryM α} {f : α → MemoryM β} (hact : m.Counts held P (act m))
    (hf : ∀ a m', m.Later held m' → P a → m'.Counts held Q (f a m')) : m.Counts held Q ((act >>= f) m) := by
  cases hr : act m with
  | ok a m' =>
    rw [hr] at hact
    rw [bind_ok hr]
    have hnext := hf a m' hact.1 hact.2
    cases hf' : f a m' with
    | ok b m'' =>
      rw [hf'] at hnext
      exact ⟨hact.1.trans hnext.1, hnext.2⟩
    | error e m'' =>
      rw [hf'] at hnext
      exact ⟨hact.1.trans hnext.1, hnext.2⟩
  | error e m' =>
    rw [hr] at hact
    rw [bind_error hr]
    exact hact

theorem Counts.map {act : MemoryM α} {f : α → β} (hact : m.Counts held P (act m)) (hf : ∀ a, P a → Q (f a)) :
    m.Counts held Q ((f <$> act) m) := by
  cases hr : act m with
  | ok a m' =>
    rw [hr] at hact
    rw [map_ok hr]
    exact ⟨hact.1, hf a hact.2⟩
  | error e m' =>
    rw [hr] at hact
    rw [map_error hr]
    exact hact

namespace Counted

variable (hm : m.Counted held)
include hm

omit hm in
/-- What is held from elsewhere is held. -/
theorem secures (hx : m.ledger.Secures held x) : m.ledger.Secures (held + m.heap.view.held) x :=
  hx.mono (fun _ => Nat.le_add_right _ _) rfl

/-- A change of the heap after which every cell holds what it held. -/
theorem keeps (hb : m.heap.Becomes m'.heap w) (hsafe : w.Safe) (hk : m.heap.view.Keeps w)
    (hledger : m'.ledger = m.ledger) : m.Later held m' := by
  refine ⟨⟨⟨hb.sound, hb.view ▸ hsafe⟩, ?_, ?_⟩, by rw [hledger]⟩
  · rw [hb.view, hk.held, hledger]
    exact hm.exact
  · rw [hb.view, hledger]
    exact hk.all hm.known trivial

/-- A refusal with all values held leaves no trace. -/
theorem eq_of_intact {xs : List Value} (hi : m.Intact xs m') (hxs : ∀ x ∈ xs, m.ledger.Secures held x) :
    m' = m := by
  have hledger : m'.ledger = m.ledger :=
    hi.ledger fun x hx => hm.exact.balanced.holds (secures (hxs x hx)).held
  obtain ⟨heap, ledger⟩ := m'
  cases hi.heap
  cases hledger
  rfl

theorem intact {xs : List Value} (hi : m.Intact xs m') (hxs : ∀ x ∈ xs, m.ledger.Secures held x) :
    m.Later held m' := by
  rw [hm.eq_of_intact hi hxs]
  exact .refl hm

/-- A new cell holds its values, and no longer what its storage had held. -/
theorem creates (hcar : m.ledger.Secures held car) (hcdr : m.ledger.Secures held cdr)
    (hc : m.heap.view.Creates tag car cdr handle w) (hk : u.contents = w.contents)
    (hb : m.heap.Becomes m'.heap u) (hsafe : u.Safe)
    (hledger : m'.ledger = m.ledger.refilled car cdr (m.heap.view.stale handle.location)) :
    m.Later held m' := by
  obtain ⟨hg, -, hd⟩ := hc
  next g l d =>
  have hvalues : (g.values l) = d.values := by rw [View.values, hd, Option.elim_some]
  have hall : g.All m.ledger.Knows := hg.keeps.all hm.known trivial
  -- the view differs from the one in which the cell is stored in colours only
  have hstored : (g.store l (d.renew tag car cdr)).Keeps u := .of_contents hk
  have hsum : held + u.held + holdersIn d.values = held + m.heap.view.held + holdersIn [car, cdr] := by
    have hstore := g.held_store l (d.renew tag car cdr)
    rw [hvalues, hg.keeps.held] at hstore
    rw [hstored.held, add_assoc, hstore, ← add_assoc]
    rfl
  have hspare : ∀ x ∈ d.values, m.ledger.Knows x := by
    rw [← hvalues]
    exact hall l
  obtain ⟨hexact, hobjects⟩ := hm.exact.refilled (secures hcar) (secures hcdr) hspare hsum
  rw [hg.stale_eq hd] at hledger
  rw [← hledger] at hexact hobjects
  refine ⟨⟨⟨hb.sound, hb.view ▸ hsafe⟩, ?_, ?_⟩, hobjects⟩
  · rw [hb.view]
    exact hexact
  · intro k x hx
    rw [hb.view] at hx
    exact (knows_congr hobjects).2 (hstored.all (hall.store hcar.known hcdr.known) trivial k x hx)

/-- A new cell is made, with its values held by it, or nothing happens. -/
theorem cons (tag : Tag) (hcar : m.ledger.Secures held car) (hcdr : m.ledger.Secures held cdr) :
    m.Counts held (fun x => x.object? = none) (Memory.cons tag car cdr m) := by
  rcases cons_cases hm.sound tag car cdr with
    ⟨e, m', -, he, hintact⟩ | ⟨m', handle, w, hok, hb, hcar', hcdr', hc, hledger⟩
  · rw [he]
    refine ⟨hm.intact hintact fun x hx => ?_, e, rfl⟩
    rcases List.mem_pair.1 hx with rfl | rfl
    · exact hcar
    · exact hcdr
  · rw [hok]
    have he : m.heap.view.Effect (.cons tag car cdr) _ w := .cons hcar' hcdr' hc
    exact ⟨hm.creates hcar hcdr hc rfl hb (he.safe hm.good.safe) hledger, rfl⟩

theorem rootedCons (tag : Tag) (hcar : m.ledger.Secures held car) (hcdr : m.ledger.Secures held cdr) :
    m.Counts held (fun x => x.object? = none) (Memory.rootedCons tag car cdr m) := by
  rcases rootedCons_cases hm.sound tag car cdr with
    ⟨e, m', -, he, hintact⟩ | ⟨m', handle, w, hok, hb, hcar', hcdr', hc, hledger⟩
  · rw [he]
    refine ⟨hm.intact hintact fun x hx => ?_, e, rfl⟩
    rcases List.mem_pair.1 hx with rfl | rfl
    · exact hcar
    · exact hcdr
  · rw [hok]
    have he : m.heap.view.Effect (.rootedCons tag car cdr) _ (w.root handle.location) := .rootedCons hcar' hcdr' hc
    exact ⟨hm.creates (u := w.root handle.location) hcar hcdr hc rfl hb (he.safe hm.good.safe) hledger, rfl⟩

/-- The cells of a list hold its items, those of the part that was made before a refusal too. -/
theorem list {items : List Value} (hitems : ∀ x ∈ items, m.ledger.Secures held x) :
    m.Counts held (fun x => x.object? = none) (Memory.list items m) := by
  induction items with
  | nil => exact ⟨.refl hm, rfl⟩
  | cons item items ih =>
    rw [list_cons]
    refine (ih fun x hx => hitems x (List.mem_cons_of_mem _ hx)).bind fun tail m' hm' htail => ?_
    have hitem := (hitems item List.mem_cons_self).mono (fun _ => Nat.le_refl _) hm'.objects
    exact hm'.counted.cons .cons hitem (secures_of_object?_eq_none htail)

/-- A value that is put on one side of a cell takes the place of the one that was there. -/
theorem setChild (side : Side) (target : Value) (hx : m.ledger.Secures held x) :
    m.Counts held (fun _ => True) (Memory.setChild side target x m) := by
  rcases setChild_cases hm.sound side target x with
    ⟨e, -, he⟩ | ⟨m', tag, handle, c, rfl, hok, hres, hc, hx', hb, hledger⟩
  · rw [he]
    exact ⟨.refl hm, e, rfl⟩
  rw [hok]
  refine ⟨?_, trivial⟩
  let l := handle.location
  have hvalues : m.heap.view.values l = c.values := by rw [View.values, hc, Option.elim_some]
  obtain ⟨hcar, hcdr⟩ := hm.known.of_contents hc
  have hold : m.ledger.Knows (c.child side) := by
    cases side
    · exact hcar
    · exact hcdr
  have hstored : (m.heap.view.store l (c.setChild x side)).Keeps
      ((m.heap.view.store l (c.setChild x side)).barrier l x) := .of_contents (View.recolored_barrier ..).contents
  have hstore := m.heap.view.held_store l (c.setChild x side)
  rw [hvalues] at hstore
  have hsum : held + (m.heap.view.store l (c.setChild x side)).held + holdersIn [c.child side] =
      held + m.heap.view.held + holdersIn [x] := by
    funext i
    have hi := congrFun hstore i
    have hi' := congrFun (holdersIn_setChild c x side) i
    simp only [Pi.add_apply] at hi hi' ⊢
    omega
  obtain ⟨hexact, hobjects⟩ := hm.exact.replaced (secures hx) hold hsum
  rw [← hledger] at hexact hobjects
  have heffect : m.heap.view.Effect (.setChild side (.cons tag handle) x) _ _ := .setChild hres hc hx'
  have hsafe := heffect.safe hm.good.safe
  refine ⟨⟨⟨hb.sound, hb.view ▸ hsafe⟩, ?_, ?_⟩, hobjects⟩
  · rw [hb.view, hstored.held]
    exact hexact
  · have hall : (m.heap.view.store l (c.setChild x side)).All m.ledger.Knows := by
      cases side with
      | car => exact hm.known.store hx.known hcdr
      | cdr => exact hm.known.store hcar hx.known
    intro k y hy
    rw [hb.view] at hy
    exact (knows_congr hobjects).2 (hstored.all hall trivial k y hy)

/-- An action on the heap alone that stores nothing. -/
theorem onHeap (op : Operation Value) {act : HeapM α} {f : α → Result} (hop : op.run = f <$> Memory.onHeap act)
    (hstores : op.stores = false) : m.Counts held (fun _ => True) (Memory.onHeap act m) := by
  obtain ⟨h, ledger⟩ := m
  have hlist : ∀ items, op ≠ .list items := by
    rintro items rfl
    cases hstores
  rcases Operation.heap_act_cases (m := ⟨h, ledger⟩) hop hlist hm.sound with ⟨a, h', w, hok, hb, he⟩ | ⟨e, -, herr⟩
  · rw [onHeap_ok hok]
    have hlater : Later ⟨h, ledger⟩ held ⟨h', ledger⟩ := hm.keeps hb (he.safe hm.good.safe) (he.keeps hstores) rfl
    exact ⟨hlater, trivial⟩
  · rw [onHeap_error herr]
    exact ⟨.refl hm, e, rfl⟩

/-- **Every operation keeps all counts right, whether it is refused or not. It makes no object and answers
none.** -/
theorem run {op : Operation Value} (hops : ∀ x ∈ op.operands, m.ledger.Secures held x) :
    m.Counts held Result.Plain (op.run m) := by
  cases op with
  | cons tag car cdr =>
    exact (hm.cons tag (hops car (by simp [Operation.operands])) (hops cdr (by simp [Operation.operands]))).map
      fun _ hx => hx
  | rootedCons tag car cdr =>
    exact (hm.rootedCons tag (hops car (by simp [Operation.operands])) (hops cdr (by simp [Operation.operands]))).map
      fun _ hx => hx
  | list items => exact (hm.list hops).map fun _ hx => hx
  | setChild side target x =>
    exact (hm.setChild side target (hops x (by simp [Operation.operands]))).map fun _ _ => trivial
  | root x => exact (hm.onHeap (.root x) rfl rfl).map fun _ _ => trivial
  | unroot x => exact (hm.onHeap (.unroot x) rfl rfl).map fun _ _ => trivial
  | shade x => exact (hm.onHeap (.shade x) rfl rfl).map fun _ _ => trivial
  | scan budget => exact (hm.onHeap (.scan budget) rfl rfl).map fun _ _ => trivial
  | startCycle => exact (hm.onHeap .startCycle rfl rfl).map fun _ _ => trivial
  | sweep => exact (hm.onHeap .sweep rfl rfl).map fun _ _ => trivial
  | collect => exact (hm.onHeap .collect rfl rfl).map fun _ _ => trivial

/-- A kind is registered, or refused. -/
theorem register (tag : Tag) (kind : Kind) :
    m.Counts held (fun _ => True) (Memory.onHeap (Heap.register tag kind) m) := by
  rcases register_cases m tag kind with ⟨e, he⟩ | ⟨kinds, hok⟩
  · rw [he]
    exact ⟨.refl hm, e, rfl⟩
  · rw [hok]
    exact ⟨⟨⟨⟨hm.good.sound, hm.good.safe⟩, hm.exact, hm.known⟩, rfl⟩, trivial⟩

/-- A new object is held once, by the caller, and holds the values of its body. -/
theorem create (tag : Tag) (finalizer : Option Finalizer) {body : Body Value}
    (hbody : ∀ x ∈ body.values, m.ledger.Secures held x) :
    Counted ⟨m.heap, (m.ledger.create tag finalizer body).2⟩
      (held + holdersIn [(m.ledger.create tag finalizer body).1.value]) := by
  have hexact := hm.exact.create tag finalizer (fun x hx => (hbody x hx).known)
    fun x hx => (secures (hbody x hx)).held
  refine ⟨⟨hm.good.sound, hm.good.safe⟩, ?_, ?_⟩
  · rw [add_right_comm]
    exact hexact
  · intro l x hx
    exact (hm.known l x hx).create tag finalizer body

end Counted

end Memory

end ConsHeap
