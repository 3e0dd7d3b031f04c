import ConsHeap.Value

/-!
# The ledger of objects

Every object has a count of the places that hold it. The ledger keeps the counts, by object number,
and a log of what happened to the objects that died.

* `Ledger.create`: a new object, with one count for the caller.
* `Ledger.retain`: one more holder of a value.
* `Ledger.release`: one holder less. The last one destroys the object: its finalizer runs, and then
  the values it still holds are released, left to right.
* `Event.note?`: what a finalizer writes down.

A body holds only values that were there before it, so a release ends.
-/

namespace ConsHeap

/-- What happens to an object at its end. -/
inductive Event where
  /-- The last holder is gone. -/
  | died (o : Object)
  /-- The finalizer writes the object down. -/
  | noted (o : Object)
  /-- The finalizer is about to empty the object. -/
  | wiping (o : Object)
  /-- The finalizer has emptied the object. -/
  | wiped (o : Object)

/-- What a finalizer writes down. The death of an object by itself leaves no note. -/
def Event.note? : Event → Option String
  | died _ => none
  | noted o => some o.body.summary
  | wiping o => some ("wipe " ++ o.body.summary)
  | wiped o => some ("wiped " ++ o.body.summary)

/-- An object and the number of its holders. It is destroyed once that is zero. -/
structure LedgerEntry where
  object : Object
  count : Nat
  deriving Inhabited

/-- All objects ever made, by number, and the log of their ends. -/
structure Ledger where
  entries : Array LedgerEntry
  log : Array Event
  deriving Inhabited

namespace Ledger

/-- A ledger without objects. -/
def empty : Ledger := ⟨#[], #[]⟩

/-- The count of an object. -/
def count (ledger : Ledger) (id : Nat) : Nat := ledger.entries[id]?.elim 0 LedgerEntry.count

/-- The ledger with one count set. -/
def setCount (ledger : Ledger) (id count : Nat) : Ledger :=
  { ledger with entries := ledger.entries.modify id ({ · with count }) }

/-- The count of an object after one count was set. -/
theorem count_setCount (ledger : Ledger) (i j n : Nat) :
    (ledger.setCount i n).count j =
      if i = j ∧ j < ledger.entries.size then n else ledger.count j := by
  simp only [count, setCount, Array.getElem?_modify]
  by_cases h : i = j <;> by_cases hj : j < ledger.entries.size <;> simp [h, hj]

/-- The ledger with one more event in its log. -/
def record (ledger : Ledger) (e : Event) : Ledger := { ledger with log := ledger.log.push e }

/-- One more holder of a value. Atoms and conses are not counted. -/
def retain (ledger : Ledger) : Value → Ledger
  | .object header _ => ledger.setCount header.id (ledger.count header.id + 1)
  | _ => ledger

/-- A new object with a count of one, which belongs to the caller. It holds the values of its body
from now on. -/
def create (ledger : Ledger) (tag : Tag) (finalizer : Option Finalizer) (body : Body Value) :
    Object × Ledger :=
  let o : Object := ⟨⟨ledger.entries.size, tag, finalizer⟩, body⟩
  let ledger := body.values.foldl retain ledger
  (o, { ledger with entries := ledger.entries.push ⟨o, 1⟩ })

mutual

/-- One holder of a value less. -/
def release : Value → Ledger → Ledger
  | .object header body, ledger =>
    match ledger.count header.id with
    | 0 => ledger
    | 1 =>
      let o : Object := ⟨header, body⟩
      let ledger := (ledger.setCount header.id 0).record (.died o)
      match header.finalizer with
      | none => releaseBody body ledger
      | some .note => releaseBody body (ledger.record (.noted o))
      | some .wipe =>
        (releaseBody body (ledger.record (.wiping o))).record (.wiped ⟨header, body.emptied⟩)
    | n + 2 => ledger.setCount header.id (n + 1)
  | _, ledger => ledger

/-- One holder less of each value in a body. -/
def releaseBody : Body Value → Ledger → Ledger
  | .closure _ _ captured, ledger => releaseAll captured ledger
  | _, ledger => ledger

/-- One holder less of each value in a list, left to right. -/
def releaseAll : List Value → Ledger → Ledger
  | [], ledger => ledger
  | v :: vs, ledger => releaseAll vs (release v ledger)

end

/-- The notes in the log, from event number `start` on. -/
def notesFrom (ledger : Ledger) (start : Nat) : List String :=
  (ledger.log.extract start).toList.filterMap Event.note?

end Ledger

end ConsHeap
