import ConsHeap.Proofs.Alike.Values
import ConsHeap.Proofs.Ledger.Deaths

/-!
# Ledgers without handles

Counts and deaths do not depend on handles. What is done to a ledger can be done to its outline, with the outlines of
values, and comes to the same.

* `Ledger.outline`: a ledger without the handles in its objects.
* `Ledger.outline_retain`, `Ledger.outline_release`, `Ledger.outline_create`: **outlines are counted as the values
  are.**
* `Ledger.notesFrom_outline`: finalizers write down the same.
-/

namespace ConsHeap

/-- An object without the handles in it. -/
def Object.outline (o : Object) : Object := ⟨o.header, Value.outlineIn o.body⟩

/-- An event without the handles in its object. -/
def Event.outline : Event → Event
  | died o => died o.outline
  | noted o => noted o.outline
  | wiping o => wiping o.outline
  | wiped o => wiped o.outline

@[simp] theorem Value.values_outlineIn (b : Body Value) : (outlineIn b).values = b.values.map Value.outline := by
  cases b <;> simp [outlineIn, Body.values]

@[simp] theorem Value.emptied_outlineIn (b : Body Value) : (outlineIn b).emptied = outlineIn b.emptied := by
  cases b <;> simp [outlineIn, Body.emptied]

@[simp] theorem Event.note?_outline (e : Event) : e.outline.note? = e.note? := by
  cases e <;> simp [outline, note?, Object.outline]

namespace Ledger

variable {ledger : Ledger}

/-- A ledger without the handles in its objects. -/
def outline (ledger : Ledger) : Ledger where
  entries := ledger.entries.map fun entry => ⟨entry.object.outline, entry.count⟩
  log := ledger.log.map Event.outline

@[simp] theorem size_outline (ledger : Ledger) : ledger.outline.entries.size = ledger.entries.size := Array.size_map

@[simp] theorem count_outline (ledger : Ledger) (i : Nat) : ledger.outline.count i = ledger.count i := by
  simp only [count, outline, Array.getElem?_map]
  cases ledger.entries[i]? <;> rfl

theorem outline_setCount (ledger : Ledger) (i n : Nat) :
    (ledger.setCount i n).outline = ledger.outline.setCount i n := by
  simp only [outline, setCount, Ledger.mk.injEq, and_true]
  refine Array.ext_getElem? fun j => ?_
  simp only [Array.getElem?_map, Array.getElem?_modify]
  split <;> cases ledger.entries[j]? <;> rfl

theorem outline_record (ledger : Ledger) (e : Event) : (ledger.record e).outline = ledger.outline.record e.outline := by
  simp [outline, record]

/-- The outline of a value is held as often as the value. -/
theorem outline_retain (ledger : Ledger) (v : Value) : (ledger.retain v).outline = ledger.outline.retain v.outline := by
  cases v with
  | object header body =>
    rw [Value.outline, retain, retain, outline_setCount, count_outline]
  | _ => rw [Value.outline] <;> simp [retain]

theorem outline_foldl_retain (ledger : Ledger) (vs : List Value) :
    (vs.foldl retain ledger).outline = (vs.map Value.outline).foldl retain ledger.outline := by
  induction vs generalizing ledger with
  | nil => rfl
  | cons v vs ih => rw [List.foldl_cons, List.map_cons, List.foldl_cons, ih, outline_retain]

/-- The outline of an object is made as the object is. -/
theorem outline_create (ledger : Ledger) (tag : Tag) (finalizer : Option Finalizer) (body : Body Value) :
    (ledger.create tag finalizer body).1.outline =
        (ledger.outline.create tag finalizer (Value.outlineIn body)).1 ∧
      (ledger.create tag finalizer body).2.outline =
        (ledger.outline.create tag finalizer (Value.outlineIn body)).2 := by
  constructor
  · simp [create, Object.outline]
  · simp only [create, Value.values_outlineIn, ← outline_foldl_retain, size_outline]
    simp [outline, Object.outline]

mutual

/-- The outline of a value is released as the value is. -/
theorem outline_release (v : Value) (ledger : Ledger) :
    (release v ledger).outline = release v.outline ledger.outline :=
  match v with
  | .object header body => by
    have hbody := outline_releaseBody body
    rw [Value.outline, release, release, count_outline]
    cases ledger.count header.id with
    | zero => rfl
    | succ n =>
      cases n with
      | zero =>
        simp only
        cases header.finalizer with
        | none =>
          simp only [hbody, outline_record, outline_setCount]
          rfl
        | some f =>
          cases f
          · simp only [hbody, outline_record, outline_setCount]
            rfl
          · simp only [hbody, outline_record, outline_setCount, Event.outline, Object.outline]
            simp
      | succ n => exact outline_setCount ..
  | .nil | .integer _ | .character _ | .boolean _ | .cons _ _ => by
    rw [Value.outline, release, release] <;> simp

theorem outline_releaseBody (body : Body Value) (ledger : Ledger) :
    (releaseBody body ledger).outline = releaseBody (Value.outlineIn body) ledger.outline :=
  match body with
  | .closure arity code captured => by
    rw [Value.outlineIn, releaseBody, releaseBody]
    exact outline_releaseAll captured ledger
  | .text _ | .symbol _ | .bytes _ => by
    rw [Value.outlineIn, releaseBody, releaseBody] <;> simp

theorem outline_releaseAll (vs : List Value) (ledger : Ledger) :
    (releaseAll vs ledger).outline = releaseAll (Value.outlineOf vs) ledger.outline :=
  match vs with
  | [] => by
    rw [Value.outlineOf, releaseAll, releaseAll]
  | v :: vs => by
    rw [Value.outlineOf, releaseAll, releaseAll, outline_releaseAll vs, outline_release v]

end

@[simp] theorem size_log_outline (ledger : Ledger) : ledger.outline.log.size = ledger.log.size := Array.size_map

/-- Finalizers write down the same. -/
theorem notesFrom_outline (ledger : Ledger) (start : Nat) :
    ledger.outline.notesFrom start = ledger.notesFrom start := by
  have hlog : ledger.outline.log.extract start = (ledger.log.extract start).map Event.outline := by
    simp [outline]
  have hnote : Event.note? ∘ Event.outline = Event.note? := funext Event.note?_outline
  rw [notesFrom, notesFrom, hlog, Array.toList_map, List.filterMap_map, hnote]

end Ledger

end ConsHeap
