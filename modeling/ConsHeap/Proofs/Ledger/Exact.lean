import ConsHeap.Proofs.Ledger.Balance

/-!
# Exact ledgers

* `Ledger.Told`: every object that is not counted has died once.
* `Ledger.Exact`: **sound, balanced and told.**
* `Ledger.Exact.of_released`, `Ledger.Exact.retain`, `Ledger.Exact.create`: what is done to a ledger keeps it
  exact.
-/

namespace ConsHeap.Ledger

variable {ledger ledger' : Ledger} {held : Nat → Nat} {i : Nat} {o : Object} {v : Value} {vs : List Value}

/-- Of every object that is not counted, the last events are logged, and of no other. -/
def Told (ledger : Ledger) : Prop :=
  ∀ i, ledger.eventsOf i =
    if ledger.count i = 0 then (ledger.objectOf? i).elim [] Object.lastEvents else []

/-- A ledger that is exact when the objects are held `held` times from outside. -/
structure Exact (ledger : Ledger) (held : Nat → Nat) : Prop where
  sound : ledger.Sound
  balanced : ledger.Balanced held
  told : ledger.Told

theorem exact_empty : empty.Exact 0 where
  sound := by
    have hnone : ∀ i, empty.objectOf? i = none := fun i => rfl
    refine ⟨?_, ?_, ?_, fun _ => rfl, ?_⟩
    · intro i o ho
      rw [hnone] at ho
      cases ho
    · intro i o ho
      rw [hnone] at ho
      cases ho
    · intro i o p ho
      rw [hnone] at ho
      cases ho
    · intro k o hk
      exact absurd hk (by simp [empty])
  balanced i := by simp [count, captured, empty]
  told i := by simp [eventsOf, objectOf?, empty]

namespace Exact

/-- Values that were held from outside are released. Only the objects that lose their last count die. -/
theorem of_released {before : Nat → Nat} (h : ledger.Exact before) (hr : Released ledger ledger' held) :
    ledger'.Exact held := by
  refine ⟨hr.sound, hr.balanced, fun i => ?_⟩
  have hle := hr.releases.le i
  rw [hr.releases.events, hr.releases.objects, h.told]
  by_cases hbefore : ledger.count i = 0
  · have hafter : ledger'.count i = 0 := by omega
    simp [hbefore, hafter]
  · simp [hbefore]

/-- One more holder from outside of a value that is held. -/
theorem retain (h : ledger.Exact held) (hholds : ledger.Holds v) :
    (ledger.retain v).Exact (held + holdersIn [v]) := by
  cases v with
  | object header body =>
    have hcount : 0 < ledger.count header.id := hholds
    have hsize := lt_size_of_count_pos hcount
    have hnew : ∀ i, (ledger.setCount header.id (ledger.count header.id + 1)).count i =
        if header.id = i then ledger.count i + 1 else ledger.count i := by
      intro i
      rw [count_setCount]
      by_cases hi : header.id = i
      · rw [if_pos hi, if_pos ⟨hi, hi ▸ hsize⟩, hi]
      · rw [if_neg hi, if_neg fun h => hi h.1]
    have hzero : ∀ i, (ledger.setCount header.id (ledger.count header.id + 1)).count i = 0 ↔
        ledger.count i = 0 := by
      intro i
      rw [hnew]
      split
      · next hi =>
        rw [← hi]
        omega
      · exact Iff.rfl
    refine ⟨h.sound.setCount fun _ => by omega, fun i => ?_, fun i => ?_⟩
    · have hi := h.balanced i
      have hone := holdersIn_value ⟨header, body⟩ i
      rw [Object.value] at hone
      rw [Ledger.retain, hnew, captured_congr (objectOf?_setCount ..) (size_setCount ..) hzero, Pi.add_apply,
        hone]
      by_cases hid : header.id = i
      · simp only [hid, if_true]
        omega
      · simp only [hid, if_false]
        omega
    · rw [Ledger.retain, eventsOf_setCount, objectOf?_setCount, h.told, if_congr (hzero i) rfl rfl]
  | _ =>
    rw [holdersIn_eq_zero rfl, add_zero]
    exact h

/-- Values that are held from outside, by the end too, may be held once more. -/
theorem retainAll (h : ledger.Exact held) (hheld : ∀ v ∈ vs, ∀ i, holdersIn [v] i ≤ held i) :
    (vs.foldl Ledger.retain ledger).Exact (held + holdersIn vs) := by
  induction vs generalizing ledger held with
  | nil => exact h
  | cons v vs ih =>
    have hfirst := h.retain (h.balanced.holds (hheld v List.mem_cons_self))
    rw [List.foldl_cons, holdersIn_cons, add_comm (holdersIn vs), ← add_assoc]
    refine ih hfirst fun w hw i => ?_
    exact Nat.le_trans (hheld w (List.mem_cons_of_mem _ hw) i) (Nat.le_add_right _ _)

end Exact

theorem objectOf?_retain (ledger : Ledger) (v : Value) : (ledger.retain v).objectOf? = ledger.objectOf? := by
  cases v with
  | object header body => exact objectOf?_setCount ..
  | _ => rfl

theorem objectOf?_foldl_retain (ledger : Ledger) (vs : List Value) :
    (vs.foldl retain ledger).objectOf? = ledger.objectOf? := by
  induction vs generalizing ledger with
  | nil => rfl
  | cons v vs ih => rw [List.foldl_cons, ih, objectOf?_retain]

theorem size_foldl_retain (ledger : Ledger) (vs : List Value) :
    (vs.foldl retain ledger).entries.size = ledger.entries.size := by
  induction vs generalizing ledger with
  | nil => rfl
  | cons v vs ih =>
    rw [List.foldl_cons, ih]
    cases v with
    | object header body => exact size_setCount ..
    | _ => rfl

/-! ## New objects -/

/-- The ledger with an entry for an object, which has one count. -/
def push (ledger : Ledger) (o : Object) : Ledger := { ledger with entries := ledger.entries.push ⟨o, 1⟩ }

theorem objectOf?_push (ledger : Ledger) (o : Object) (i : Nat) :
    (ledger.push o).objectOf? i = if i = ledger.entries.size then some o else ledger.objectOf? i := by
  simp only [objectOf?, push, Array.getElem?_push]
  split <;> rfl

theorem count_push (ledger : Ledger) (o : Object) (i : Nat) :
    (ledger.push o).count i = if i = ledger.entries.size then 1 else ledger.count i := by
  simp only [count, push, Array.getElem?_push]
  split <;> rfl

theorem objectOf?_size (ledger : Ledger) : ledger.objectOf? ledger.entries.size = none := by
  simp [objectOf?]

/-- What was known before an object was made is known afterwards. -/
theorem Knows.push (h : ledger.Knows v) (o : Object) : (ledger.push o).Knows v := by
  refine h.of_objects fun i p hp => ?_
  rw [objectOf?_push, if_neg, hp]
  rintro rfl
  rw [objectOf?_size] at hp
  cases hp

theorem knows_push_self (hid : o.header.id = ledger.entries.size) : (ledger.push o).Knows o.value := by
  show (ledger.push o).objectOf? o.header.id = some o
  rw [objectOf?_push, if_pos hid]

theorem Sound.push (h : ledger.Sound) (htold : ledger.Told) (hid : o.header.id = ledger.entries.size)
    (hknown : ∀ v ∈ o.body.values, ledger.Knows v) : (ledger.push o).Sound where
  id := by
    intro i p hp
    rw [objectOf?_push] at hp
    split at hp
    · next hi =>
      cases hp
      rw [hid, hi]
    · exact h.id hp
  known := by
    intro i p hp v hv
    rw [objectOf?_push] at hp
    split at hp
    · cases hp
      exact (hknown v hv).push o
    · exact (h.known hp v hv).push o
  older := by
    intro i p q hp hq
    rw [objectOf?_push] at hp
    split at hp
    · next hi =>
      cases hp
      have hq' : ledger.objectOf? q.header.id = some q := hknown _ hq
      rw [hi]
      exact objectOf?_ne_none.1 (by rw [hq']; simp)
    · exact h.older hp hq
  quiet := by
    intro i hi
    show ledger.eventsOf i = []
    rw [count_push] at hi
    by_cases hnew : i = ledger.entries.size
    · rw [htold, hnew, objectOf?_size]
      split <;> rfl
    · rw [if_neg hnew] at hi
      exact h.quiet hi
  ordered := h.ordered

/-- A new object holds its values. -/
theorem captured_push (ledger : Ledger) (o : Object) :
    (ledger.push o).captured = ledger.captured + holdersIn o.body.values := by
  have hold : ∀ j ∈ Finset.range ledger.entries.size, (ledger.push o).heldBy j = ledger.heldBy j := by
    intro j hj
    have hne : j ≠ ledger.entries.size := Nat.ne_of_lt (Finset.mem_range.1 hj)
    rw [heldBy, heldBy, count_push, if_neg hne, objectOf?_push, if_neg hne]
  have hnew : (ledger.push o).heldBy ledger.entries.size = holdersIn o.body.values := by
    rw [heldBy, count_push, if_pos rfl, if_neg Nat.one_ne_zero, objectOf?_push, if_pos rfl, Option.elim_some]
  have hsize : (ledger.push o).entries.size = ledger.entries.size + 1 := Array.size_push ..
  unfold captured
  rw [hsize, Finset.sum_range_succ, Finset.sum_congr rfl hold, hnew]

/-- The values that are held for a new object are held by it from now on. -/
theorem Exact.push (h : ledger.Exact (held + holdersIn o.body.values))
    (hid : o.header.id = ledger.entries.size) (hknown : ∀ v ∈ o.body.values, ledger.Knows v) :
    (ledger.push o).Exact (held + holdersIn [o.value]) := by
  refine ⟨h.sound.push h.told hid hknown, fun i => ?_, fun i => ?_⟩
  · have hi := h.balanced i
    rw [Pi.add_apply] at hi
    rw [count_push, captured_push, Pi.add_apply, Pi.add_apply, holdersIn_value, hid]
    by_cases hnew : i = ledger.entries.size
    · have hzero : ledger.count i = 0 := count_eq_zero_of_size_le (Nat.le_of_eq hnew.symm)
      rw [if_pos hnew, if_pos hnew.symm]
      omega
    · rw [if_neg hnew, if_neg (Ne.symm hnew)]
      omega
  · show ledger.eventsOf i = _
    rw [h.told, count_push, objectOf?_push]
    by_cases hnew : i = ledger.entries.size
    · rw [if_pos hnew, if_neg Nat.one_ne_zero, hnew, objectOf?_size]
      split <;> rfl
    · rw [if_neg hnew, if_neg hnew]

theorem create_eq (ledger : Ledger) (tag : Tag) (finalizer : Option Finalizer) (body : Body Value) :
    ledger.create tag finalizer body =
      (⟨⟨ledger.entries.size, tag, finalizer⟩, body⟩,
        (body.values.foldl retain ledger).push ⟨⟨ledger.entries.size, tag, finalizer⟩, body⟩) := rfl

theorem objectOf?_create (ledger : Ledger) (tag : Tag) (finalizer : Option Finalizer) (body : Body Value) (i : Nat) :
    (ledger.create tag finalizer body).2.objectOf? i =
      if i = ledger.entries.size then some (ledger.create tag finalizer body).1 else ledger.objectOf? i := by
  rw [create_eq, objectOf?_push, objectOf?_foldl_retain, size_foldl_retain]

/-- What was known before an object was made is known afterwards. -/
theorem Knows.create (h : ledger.Knows v) (tag : Tag) (finalizer : Option Finalizer) (body : Body Value) :
    (ledger.create tag finalizer body).2.Knows v := by
  rw [create_eq]
  exact ((knows_congr (objectOf?_foldl_retain ..)).2 h).push _

theorem knows_create_self (ledger : Ledger) (tag : Tag) (finalizer : Option Finalizer) (body : Body Value) :
    (ledger.create tag finalizer body).2.Knows (ledger.create tag finalizer body).1.value := by
  rw [create_eq]
  exact knows_push_self (size_foldl_retain ..).symm

/-- **A new object is held once from outside, and holds the values of its body.** -/
theorem Exact.create (h : ledger.Exact held) (tag : Tag) (finalizer : Option Finalizer) {body : Body Value}
    (hknown : ∀ v ∈ body.values, ledger.Knows v)
    (hheld : ∀ v ∈ body.values, ∀ i, holdersIn [v] i ≤ held i) :
    (ledger.create tag finalizer body).2.Exact (held + holdersIn [(ledger.create tag finalizer body).1.value]) := by
  have hretained : (body.values.foldl Ledger.retain ledger).Exact (held + holdersIn body.values) :=
    h.retainAll hheld
  rw [create_eq]
  refine hretained.push (size_foldl_retain ..).symm fun v hv => ?_
  exact (knows_congr (objectOf?_foldl_retain ..)).2 (hknown v hv)

end ConsHeap.Ledger
