import ConsHeap.Proofs.Script.Runs
import Mathlib.Algebra.BigOperators.Fin

/-!
# Reference counts

An object is held by variables, by cells of all heaps, be they live, dead or never used, and by closures that are
not destroyed. In every state of every run its count is the number of these places, and it is destroyed exactly
when there is none.

* `Ledger.captives`: what the objects hold that are not destroyed.
* `Host.holders`: the number of places that hold an object.
* `Ledger.Exact.isDestroyed_iff`: what is not counted is destroyed.
* `Host.counts_are_exact`: **the count of every object is the number of places that hold it, and an object is
  destroyed exactly when that number is zero.**
-/

namespace ConsHeap

open Script

namespace Ledger

variable {ledger : Ledger} {held : Nat → Nat} {i : Nat}

/-- The values that objects hold which are not destroyed. -/
def captives (ledger : Ledger) : List Value :=
  ledger.entries.toList.flatMap fun entry =>
    if ledger.isDestroyed entry.object.header.id then [] else entry.object.body.values

/-- An object is destroyed when it is no longer counted, and not before. -/
theorem Exact.isDestroyed_iff (h : ledger.Exact held) (hi : i < ledger.entries.size) :
    ledger.isDestroyed i = true ↔ ledger.count i = 0 := by
  obtain ⟨o, ho⟩ := Option.ne_none_iff_exists'.1 (objectOf?_ne_none.2 hi)
  have htold := h.told i
  rw [ho, Option.elim_some] at htold
  rw [Ledger.isDestroyed_iff, htold]
  by_cases hcount : ledger.count i = 0
  · obtain ⟨es, hes, -⟩ := o.opening_eq
    have hdied : Event.died o ∈ o.lastEvents := by
      rw [Object.lastEvents, hes]
      exact List.mem_append_left _ List.mem_cons_self
    rw [if_pos hcount]
    exact ⟨fun _ => hcount, fun _ => ⟨o, hdied⟩⟩
  · rw [if_neg hcount]
    constructor
    · rintro ⟨p, hp⟩
      cases hp
    · intro hzero
      exact absurd hzero hcount

/-- What counted objects hold is what is held by objects that are not destroyed. -/
theorem Exact.captured_eq (h : ledger.Exact held) : ledger.captured = holdersIn ledger.captives := by
  have hentry : ∀ (j : Nat) (hj : j < ledger.entries.size), ledger.heldBy j = holdersIn
      (if ledger.isDestroyed ledger.entries[j].object.header.id then [] else ledger.entries[j].object.body.values) := by
    intro j hj
    have ho : ledger.objectOf? j = some ledger.entries[j].object := by
      rw [objectOf?, Array.getElem?_eq_getElem hj, Option.map_some]
    rw [h.sound.id ho, heldBy, ho, Option.elim_some]
    by_cases hcount : ledger.count j = 0
    · rw [if_pos hcount, if_pos ((h.isDestroyed_iff hj).2 hcount)]
      rfl
    · rw [if_neg hcount, if_neg (mt (h.isDestroyed_iff hj).1 hcount)]
  let f : LedgerEntry → Nat → Nat := fun entry =>
    holdersIn (if ledger.isDestroyed entry.object.header.id then [] else entry.object.body.values)
  have hlist : ledger.entries.toList.map f = List.ofFn fun j : Fin ledger.entries.size => ledger.heldBy j := by
    refine List.ext_getElem (by simp) fun j _ hj => ?_
    rw [List.length_ofFn] at hj
    rw [List.getElem_map, List.getElem_ofFn, hentry j hj]
    rfl
  calc ledger.captured = ∑ j : Fin ledger.entries.size, ledger.heldBy j := Finset.sum_range _
    _ = (ledger.entries.toList.map f).sum := by rw [hlist, List.sum_ofFn]
    _ = holdersIn ledger.captives := (holdersIn_flatMap ..).symm

end Ledger

namespace Script.Host

/-- The number of places that hold an object: variables, cells on all pages of all heaps, and objects that are
not destroyed. -/
def holders (host : Host) : Nat → Nat := Ledger.holdersIn (host.values ++ host.ledger.captives)

/-- **In every state of every run, the count of every object is the number of places that hold it. An object is
destroyed when that number is zero, and not before.** -/
theorem counts_are_exact (sizing : Sizing) (deeds : List Deed) :
    let host := (Host.new sizing).runs deeds
    ∀ i : Fin host.ledger.entries.size,
      host.ledger.count i = host.holders i ∧ (host.ledger.isDestroyed i = true ↔ host.holders i = 0) := by
  intro host i
  have hexact : host.ledger.Exact (Ledger.holdersIn host.values) := ((counted_start 0 sizing).runs deeds).exact
  have hcount : host.ledger.count i = host.holders i := by
    rw [holders, Ledger.holdersIn_append, ← hexact.captured_eq]
    exact hexact.balanced i
  refine ⟨hcount, ?_⟩
  rw [← hcount]
  exact hexact.isDestroyed_iff i.isLt

end Script.Host

end ConsHeap
