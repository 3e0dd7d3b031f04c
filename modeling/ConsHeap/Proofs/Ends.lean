import ConsHeap.Proofs.Script.Runs

/-!
# The end of all objects

An object holds only older ones, so that no object is kept by itself, and a handle of a cell owns nothing. When
all variables and then all heaps have been released, no object is left.

* `Ledger.Exact.count_eq_zero`: what is held by nobody from outside is not counted.
* `Ledger.Buried`: an object that has died once, with its finalizer run once, before what it held died.
* `Host.Made`: an object with the finalizer that its tag had when it was made.
* `Host.objects_die_once`: **after the variables and the heaps are released, in any order among them, every object
  that was ever made is buried.**
-/

namespace ConsHeap

open Script

namespace Ledger

variable {ledger : Ledger} {held : Nat → Nat} {vs : List Value} {hs : List Heap} {i : Nat} {o : Object}

/-- What is held by nobody from outside is not counted: the last object that is counted would be held by a
later one. -/
theorem Exact.count_eq_zero (h : ledger.Exact 0) (i : Nat) : ledger.count i = 0 := by
  induction hn : ledger.entries.size - i using Nat.strong_induction_on generalizing i with
  | _ n ih =>
    subst hn
    by_cases hi : ledger.entries.size ≤ i
    · exact count_eq_zero_of_size_le hi
    have hnone : ∀ j ∈ Finset.range ledger.entries.size, ledger.heldBy j i = 0 := by
      intro j hj
      have hsize : j < ledger.entries.size := Finset.mem_range.1 hj
      rw [heldBy]
      split
      · rfl
      next hcount =>
      obtain ⟨o, ho⟩ := Option.ne_none_iff_exists'.1 (objectOf?_ne_none.2 hsize)
      rw [ho, Option.elim_some]
      by_contra hheld
      obtain ⟨p, hp, rfl⟩ := exists_of_holdersIn_pos (Nat.pos_of_ne_zero hheld)
      have hlt := h.sound.older ho hp
      exact hcount (ih _ (by omega) j rfl)
    have hbalance := h.balanced i
    rw [captured, Finset.sum_apply, Finset.sum_eq_zero hnone] at hbalance
    exact hbalance

/-- An object that has died. The log has its death and one run of its finalizer, and nothing else of it. The
finalizer ran right after the death, what the object held died later, and it held older objects only. -/
structure Buried (ledger : Ledger) (o : Object) : Prop where
  object : ledger.objectOf? o.header.id = some o
  released : ledger.count o.header.id = 0
  once : ledger.eventsOf o.header.id = o.lastEvents
  ordered : ∀ k, ledger.log[k]? = some (.died o) →
    (∀ (j : Nat) e, o.opening[j]? = some e → ledger.log[k + j]? = some e) ∧
      ∀ (p : Object) k', p.value ∈ o.body.values → ledger.log[k']? = some (.died p) → k + o.opening.length ≤ k'
  older : ∀ p : Object, p.value ∈ o.body.values → p.header.id < o.header.id

theorem Exact.buried (h : ledger.Exact 0) (ho : ledger.objectOf? i = some o) : ledger.Buried o := by
  have hid := h.sound.id ho
  subst hid
  refine ⟨ho, h.count_eq_zero _, ?_, fun k hk => h.sound.ordered k o hk, fun p hp => h.sound.older ho hp⟩
  rw [h.told, if_pos (h.count_eq_zero _), ho, Option.elim_some]

/-- The heaps are released one after the other. -/
theorem Exact.tearDown (h : ledger.Exact (holdersIn (hs.flatMap Heap.values)))
    (hknown : ∀ x ∈ hs.flatMap Heap.values, ledger.Knows x) :
    (hs.foldl Memory.tearDown ledger).Exact 0 ∧
      (hs.foldl Memory.tearDown ledger).objectOf? = ledger.objectOf? := by
  induction hs generalizing ledger with
  | nil => exact ⟨h, rfl⟩
  | cons g hs ih =>
    rw [List.flatMap_cons, holdersIn_append, add_comm] at h
    rw [List.flatMap_cons] at hknown
    have hrel := releasedAll g.values h.sound (fun x hx => hknown x (List.mem_append_left _ hx)) h.balanced
    have hobjects : (Memory.tearDown ledger g).objectOf? = ledger.objectOf? := hrel.releases.objects
    have hrest : (Memory.tearDown ledger g).Exact (holdersIn (hs.flatMap Heap.values)) := h.of_released hrel
    obtain ⟨hexact, hend⟩ := ih hrest fun x hx =>
      (knows_congr hobjects).2 (hknown x (List.mem_append_right _ hx))
    exact ⟨hexact, hend.trans hobjects⟩

end Ledger

namespace Script.Host

variable {host : Host} {deeds : List Deed} {i : Nat} {o : Object} {vs : List Value} {hs : List Heap}

/-- One of the deeds has made an object, with the finalizer that its tag had in the heap just before. -/
def Made (host : Host) (deeds : List Deed) (o : Object) : Prop :=
  ∃ before d after h, deeds = before ++ d :: after ∧
    (host.runs before).ledger.objectOf? o.header.id = none ∧
    (d.after (host.runs before)).ledger.objectOf? o.header.id = some o ∧
    (host.runs before).heaps[d.heap]? = some h ∧ o.header.finalizer = h.kinds.finalizer o.header.tag

/-- Objects stay what they are. -/
theorem Counted.objectOf?_runs (hc : host.Counted []) (deeds : List Deed) (ho : host.ledger.objectOf? i = some o) :
    (host.runs deeds).ledger.objectOf? i = some o := by
  induction deeds generalizing host with
  | nil => exact ho
  | cons d deeds ih =>
    obtain ⟨hnext, hmakes⟩ := hc.deed d
    exact ih hnext (hmakes.objectOf? ho)

/-- An object that was not there before was made by one of the deeds. -/
theorem Counted.made (hc : host.Counted []) (hnone : host.ledger.objectOf? o.header.id = none)
    (ho : (host.runs deeds).ledger.objectOf? o.header.id = some o) : host.Made deeds o := by
  induction deeds generalizing host with
  | nil =>
    have hsame : host.ledger.objectOf? o.header.id = some o := ho
    rw [hnone] at hsame
    cases hsame
  | cons d deeds ih =>
    obtain ⟨hnext, hmakes⟩ := hc.deed d
    have hrest : ((d.after host).runs deeds).ledger.objectOf? o.header.id = some o := ho
    cases hmade : (d.after host).ledger.objectOf? o.header.id with
    | none =>
      obtain ⟨before, e, after, h, rfl, hmade⟩ := ih hnext hmade hrest
      exact ⟨d :: before, e, after, h, rfl, hmade⟩
    | some p =>
      have hp := hnext.objectOf?_runs deeds hmade
      obtain rfl : p = o := Option.some.inj (hp.symm.trans hrest)
      cases hmakes with
      | nothing hsame =>
        rw [hsame, hnone] at hmade
        cases hmade
      | @object h q hheap hfinalizer hnew =>
        have hq := hmade
        rw [hnew] at hq
        split at hq
        · cases hq
          exact ⟨[], d, deeds, h, rfl, hnone, hmade, hheap, hfinalizer⟩
        · rw [hnone] at hq
          cases hq

/-- **When the variables and then the heaps are released, in any order among them, every object that was ever
made has died: once, with one run of the finalizer that its tag had when it was made, before what it held.** -/
theorem objects_die_once (sizing : Sizing) (deeds : List Deed)
    (hvs : vs.Perm ((Host.new sizing).runs deeds).bindings.values)
    (hhs : hs.Perm ((Host.new sizing).runs deeds).heaps.toList) :
    let host := (Host.new sizing).runs deeds
    ∀ i : Fin host.ledger.entries.size, ∃ o : Object, o.header.id = i.val ∧ (Host.new sizing).Made deeds o ∧
      (hs.foldl Memory.tearDown (host.ledger.releaseAll vs)).Buried o := by
  intro host i
  have hc : host.Counted [] := (counted_start 0 sizing).runs deeds
  have hperm : host.values.Perm (vs ++ hs.flatMap Heap.values) :=
    hvs.symm.append (hhs.symm.flatMap_right Heap.values)
  have hexact : host.ledger.Exact (Ledger.holdersIn (hs.flatMap Heap.values) + Ledger.holdersIn vs) := by
    rw [add_comm, ← Ledger.holdersIn_append, ← Ledger.holdersIn_perm hperm]
    exact hc.exact
  have hknown : ∀ x ∈ vs ++ hs.flatMap Heap.values, host.ledger.Knows x := fun x hx =>
    hc.known x (hperm.mem_iff.2 hx)
  have hrel := Ledger.releasedAll vs hexact.sound (fun x hx => hknown x (List.mem_append_left _ hx)) hexact.balanced
  obtain ⟨hend, hobjects⟩ := (hexact.of_released hrel).tearDown fun x hx =>
    (Ledger.knows_congr hrel.releases.objects).2 (hknown x (List.mem_append_right _ hx))
  obtain ⟨o, ho⟩ := Option.ne_none_iff_exists'.1 (Ledger.objectOf?_ne_none.2 i.isLt)
  have hid : o.header.id = i.val := hexact.sound.id ho
  refine ⟨o, hid, (counted_start 0 sizing).made rfl (by rw [hid]; exact ho), hend.buried (i := i.val) ?_⟩
  rw [hobjects, hrel.releases.objects]
  exact ho

/-- A text, and two closures that hold it. The finalizer of closures changes between them. -/
def capturedText : List Deed :=
  [.command 0 (some "text") ⟨.text "x", by simp [Command.operands], by simp⟩,
    .command 0 none ⟨.register .closure ⟨"closure", some .note⟩, by simp [Command.operands], by simp⟩,
    .command 0 (some "first") ⟨.closure 0 [] [.named "text"], by simp [Command.operands, Operand.Plain], by simp⟩,
    .command 0 none ⟨.register .closure ⟨"closure", some .wipe⟩, by simp [Command.operands], by simp⟩,
    .command 0 (some "second") ⟨.closure 0 [] [.named "text"], by simp [Command.operands, Operand.Plain], by simp⟩]

/-- The variables are released in falling order of their names. -/
theorem captured_text_dies_once :
    let host := (Host.new .standard).runs capturedText
    host.ledger.entries.size = 3 ∧ host.bindings.values.reverse.Perm host.bindings.values ∧
      ∀ i : Fin host.ledger.entries.size, ∃ o : Object, o.header.id = i.val ∧ (Host.new .standard).Made capturedText o ∧
        (host.heaps.toList.foldl Memory.tearDown (host.ledger.releaseAll host.bindings.values.reverse)).Buried o :=
  ⟨by decide, List.reverse_perm _, objects_die_once .standard capturedText (List.reverse_perm _) (.refl _)⟩

end Script.Host

end ConsHeap
