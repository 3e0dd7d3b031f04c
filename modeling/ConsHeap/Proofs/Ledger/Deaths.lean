import ConsHeap.Proofs.Ledger

/-!
# What the log says of an object

An object leaves all its events in the log as it dies: first those of the death itself and of its finalizer,
then those of the values that it held, and last the end of a finalizer that empties it.

* `Object.opening`, `Object.closing`, `Object.lastEvents`: the events of an object.
* `Ledger.eventsOf`, `Ledger.isDestroyed`: what the log has of an object.
* `Ledger.release_last`: a release that destroys.
* `Ledger.Releases`: **what releases do: no count rises, and an object whose count reaches zero has its last
  events logged, once.**
-/

namespace ConsHeap

/-- The object that an event is about. -/
def Event.object : Event → Object
  | died o | noted o | wiping o | wiped o => o

/-- Holds of the events of object number `i`. -/
def Event.isOf (i : Nat) (e : Event) : Bool := e.object.header.id == i

namespace Object

/-- What is logged as an object dies, before the values that it holds are released. -/
def opening (o : Object) : List Event :=
  match o.header.finalizer with
  | none => [.died o]
  | some .note => [.died o, .noted o]
  | some .wipe => [.died o, .wiping o]

/-- What is logged once the values have been released. -/
def closing (o : Object) : List Event :=
  match o.header.finalizer with
  | some .wipe => [.wiped ⟨o.header, o.body.emptied⟩]
  | _ => []

/-- All that is logged of an object: its death, and one run of its finalizer if it has one. -/
def lastEvents (o : Object) : List Event := o.opening ++ o.closing

theorem id_of_mem_opening {o : Object} {e : Event} (h : e ∈ o.opening) : e.object = o := by
  unfold opening at h
  split at h <;> simp only [List.mem_cons, List.not_mem_nil, or_false] at h
  · rw [h]
    rfl
  · rcases h with rfl | rfl <;> rfl
  · rcases h with rfl | rfl <;> rfl

theorem id_of_mem_closing {o : Object} {e : Event} (h : e ∈ o.closing) : e.object.header = o.header := by
  unfold closing at h
  split at h
  · rw [List.mem_singleton] at h
    rw [h]
    rfl
  · cases h

/-- The first event is the death, and it is the only one. -/
theorem opening_eq (o : Object) :
    ∃ es, o.opening = .died o :: es ∧ ∀ p, Event.died p ∉ es ∧ Event.died p ∉ o.closing := by
  unfold opening closing
  cases o.header.finalizer with
  | none => exact ⟨[], rfl, by simp⟩
  | some f => cases f <;> exact ⟨_, rfl, by simp⟩

end Object

namespace Ledger

variable {ledger ledger' ledger'' : Ledger} {i j n : Nat} {o : Object} {es : List Event}

/-- What is logged of an object. -/
def eventsOf (ledger : Ledger) (i : Nat) : List Event := ledger.log.toList.filter (·.isOf i)

/-- Whether the death of an object is logged. -/
def isDestroyed (ledger : Ledger) (i : Nat) : Bool :=
  ledger.log.any fun
    | .died o => o.header.id == i
    | _ => false

/-- The object of a number. -/
def objectOf? (ledger : Ledger) (i : Nat) : Option Object := ledger.entries[i]?.map LedgerEntry.object

/-- The ledger with more events in its log. -/
def recordAll (ledger : Ledger) (es : List Event) : Ledger := { ledger with log := ledger.log ++ es }

/-! ## Parts of a ledger -/

@[simp] theorem objectOf?_setCount (ledger : Ledger) (i n : Nat) :
    (ledger.setCount i n).objectOf? = ledger.objectOf? := by
  funext j
  simp only [objectOf?, setCount, Array.getElem?_modify]
  split <;> cases ledger.entries[j]? <;> rfl

@[simp] theorem size_setCount (ledger : Ledger) (i n : Nat) :
    (ledger.setCount i n).entries.size = ledger.entries.size := Array.size_modify ..

@[simp] theorem log_setCount (ledger : Ledger) (i n : Nat) : (ledger.setCount i n).log = ledger.log := rfl

@[simp] theorem eventsOf_setCount (ledger : Ledger) (i n j : Nat) :
    (ledger.setCount i n).eventsOf j = ledger.eventsOf j := rfl

@[simp] theorem objectOf?_recordAll (ledger : Ledger) (es : List Event) :
    (ledger.recordAll es).objectOf? = ledger.objectOf? := rfl

@[simp] theorem entries_recordAll (ledger : Ledger) (es : List Event) :
    (ledger.recordAll es).entries = ledger.entries := rfl

@[simp] theorem count_recordAll (ledger : Ledger) (es : List Event) (j : Nat) :
    (ledger.recordAll es).count j = ledger.count j := rfl

theorem eventsOf_recordAll (ledger : Ledger) (es : List Event) (j : Nat) :
    (ledger.recordAll es).eventsOf j = ledger.eventsOf j ++ es.filter (·.isOf j) := by
  simp [eventsOf, recordAll]

/-- An object has a number when the ledger has an entry for it. -/
theorem objectOf?_ne_none : ledger.objectOf? i ≠ none ↔ i < ledger.entries.size := by
  simp [objectOf?]

/-- The events at the death of an object are about it. -/
theorem filter_opening (o : Object) (j : Nat) :
    o.opening.filter (·.isOf j) = if j = o.header.id then o.opening else [] := by
  split
  · next h =>
    refine List.filter_eq_self.2 fun e he => ?_
    rw [Event.isOf, Object.id_of_mem_opening he, h]
    exact beq_self_eq_true _
  · next h =>
    refine List.filter_eq_nil_iff.2 fun e he => ?_
    rw [Event.isOf, Object.id_of_mem_opening he]
    simpa using Ne.symm h

theorem filter_closing (o : Object) (j : Nat) :
    o.closing.filter (·.isOf j) = if j = o.header.id then o.closing else [] := by
  split
  · next h =>
    refine List.filter_eq_self.2 fun e he => ?_
    rw [Event.isOf, Object.id_of_mem_closing he, h]
    exact beq_self_eq_true _
  · next h =>
    refine List.filter_eq_nil_iff.2 fun e he => ?_
    rw [Event.isOf, Object.id_of_mem_closing he]
    simpa using Ne.symm h

/-- An object is destroyed when its death is among its events. -/
theorem isDestroyed_iff : ledger.isDestroyed i = true ↔ ∃ o, Event.died o ∈ ledger.eventsOf i := by
  simp only [isDestroyed, eventsOf, Array.any_eq_true', List.mem_filter, Array.mem_toList_iff]
  constructor
  · rintro ⟨e, he, hid⟩
    cases e with
    | died o => exact ⟨o, he, hid⟩
    | _ => cases hid
  · rintro ⟨o, ho, hid⟩
    exact ⟨.died o, ho, hid⟩

/-! ## Releases -/

theorem releaseBody_eq (body : Body Value) (ledger : Ledger) :
    releaseBody body ledger = releaseAll body.values ledger := by
  cases body with
  | closure arity code captured => rw [releaseBody, Body.values]
  | _ => rw [releaseBody, Body.values, releaseAll] <;> simp

/-- Atoms and conses are not counted. -/
theorem release_of_object?_eq_none {v : Value} (h : v.object? = none) (ledger : Ledger) :
    release v ledger = ledger := by
  cases v with
  | object => cases h
  | _ =>
    rw [release]
    simp

/-- The ledger when the last holder of an object is gone, before the values that it holds are released. -/
def dying (ledger : Ledger) (o : Object) : Ledger := (ledger.setCount o.header.id 0).recordAll o.opening

@[simp] theorem objectOf?_dying (ledger : Ledger) (o : Object) :
    (ledger.dying o).objectOf? = ledger.objectOf? := objectOf?_setCount ..

@[simp] theorem size_dying (ledger : Ledger) (o : Object) :
    (ledger.dying o).entries.size = ledger.entries.size := size_setCount ..

theorem count_dying (hcount : ledger.count o.header.id ≠ 0) (i : Nat) :
    (ledger.dying o).count i = if o.header.id = i then 0 else ledger.count i := by
  have hsize := lt_size_of_count_pos (Nat.pos_of_ne_zero hcount)
  rw [dying, count_recordAll, count_setCount]
  by_cases hi : o.header.id = i
  · rw [if_pos hi, if_pos ⟨hi, hi ▸ hsize⟩]
  · rw [if_neg hi, if_neg fun h => hi h.1]

theorem eventsOf_dying (ledger : Ledger) (o : Object) (i : Nat) :
    (ledger.dying o).eventsOf i = ledger.eventsOf i ++ if o.header.id = i then o.opening else [] := by
  rw [dying, eventsOf_recordAll, eventsOf_setCount, filter_opening]
  simp only [eq_comm]

/-- The release of the last holder destroys the object. -/
theorem release_last (h : ledger.count o.header.id = 1) :
    release o.value ledger = (releaseAll o.body.values (ledger.dying o)).recordAll o.closing := by
  obtain ⟨⟨id, tag, finalizer⟩, body⟩ := o
  simp only at h
  rw [Object.value, release]
  simp only [h, releaseBody_eq, dying, Object.opening, Object.closing]
  cases finalizer with
  | none => simp [recordAll, record]
  | some f => cases f <;> simp [recordAll, record]

/-- The release of another holder takes one from the count. -/
theorem release_again (h : ledger.count o.header.id = n + 2) :
    release o.value ledger = ledger.setCount o.header.id (n + 1) := by
  rw [Object.value, release]
  simp only [h]

/-- What releases do to a ledger. No count rises, and when a count reaches zero, the last events of the
object are logged. -/
structure Releases (ledger ledger' : Ledger) : Prop where
  objects : ledger'.objectOf? = ledger.objectOf?
  size : ledger'.entries.size = ledger.entries.size
  le : ∀ i, ledger'.count i ≤ ledger.count i
  events : ∀ i, ledger'.eventsOf i = ledger.eventsOf i ++
    if ledger.count i ≠ 0 ∧ ledger'.count i = 0 then (ledger.objectOf? i).elim [] Object.lastEvents else []

namespace Releases

theorem refl (ledger : Ledger) : ledger.Releases ledger where
  objects := rfl
  size := rfl
  le _ := Nat.le_refl _
  events i := by
    rw [if_neg fun h => h.1 h.2, List.append_nil]

/-- A count that has reached zero stays there, so that no object dies twice. -/
theorem trans (h : ledger.Releases ledger') (h' : ledger'.Releases ledger'') : ledger.Releases ledger'' where
  objects := h'.objects.trans h.objects
  size := h'.size.trans h.size
  le i := Nat.le_trans (h'.le i) (h.le i)
  events i := by
    have hle := h.le i
    have hle' := h'.le i
    rw [h'.events, h.events, h.objects, List.append_assoc]
    congr 1
    by_cases hfirst : ledger'.count i = 0
    · have hlast : ledger''.count i = 0 := by omega
      simp [hfirst, hlast]
    · have hbefore : ledger.count i ≠ 0 := by omega
      simp [hfirst, hbefore]

end Releases

end Ledger

end ConsHeap
