import ConsHeap.Heap.Audit
import ConsHeap.Heap.Listed
import ConsHeap.Script.Command

/-!
# Running scripts

A host has several heaps, one ledger of objects and the variables. A variable is one holder of its
value; a step that makes or fetches a value hands its count to a variable or gives it up at once.
Heaps go by their numbers. Their identities are counted in 32 bits, so that they come back.

* `Host.start`, `Host.addHeap`: the first heap, and further ones.
* `Host.perform`: one command.
* `Host.step`: one step, with the notes that finalizers took in it.
* `Host.finish`: releases the variables and then the heaps.
* `Host.seen`: a variable as a heap sees it.
-/

namespace ConsHeap.Script

/-- Heaps, objects and what the variables are bound to, and the identity of the next heap. -/
structure Host where
  heaps : Array Heap
  ledger : Ledger
  bindings : Names Value
  nextId : UInt32

/-- Actions on a host. -/
abbrev HostM := EStateM (Failure Error) Host

namespace Host

/-- A host with one heap, number 0, whose identity is `first`. -/
def start (first : UInt32) (sizing : Sizing) : Host :=
  ⟨#[.new first sizing], .empty, .empty, first + 1⟩

/-- A host with one heap, whose identity is its number. -/
def new (sizing : Sizing) : Host := start 0 sizing

/-- One heap more. The counter of identities wraps around. -/
def addHeap (host : Host) (sizing : Sizing) : Host :=
  { host with
    heaps := host.heaps.push (.new host.nextId sizing)
    nextId := host.nextId + 1 }

@[simp] theorem size_addHeap (host : Host) (sizing : Sizing) :
    (host.addHeap sizing).heaps.size = host.heaps.size + 1 := Array.size_push ..

/-- A heap by its number. -/
def heapAt (n : Nat) : HostM Heap := do
  match (← get).heaps[n]? with
  | some heap => return heap
  | none => refuse (.noHeap n)

/-- Run an action on one heap and the ledger. -/
def onMemory {α : Type} (n : Nat) (act : MemoryM α) : HostM α := fun host =>
  match host with
  | ⟨heaps, ledger, bindings, nextId⟩ =>
    match heaps[n]? with
    | none => .error (.error (.noHeap n)) ⟨heaps, ledger, bindings, nextId⟩
    | some heap =>
      let heaps := heaps.setIfInBounds n default
      match act ⟨heap, ledger⟩ with
      | .ok a m => .ok a ⟨heaps.setIfInBounds n m.heap, m.ledger, bindings, nextId⟩
      | .error e m =>
        .error (e.map .heap) ⟨heaps.setIfInBounds n m.heap, m.ledger, bindings, nextId⟩

/-- Run an action on one heap. -/
def onHeap {α : Type} (n : Nat) (act : HeapM α) : HostM α := onMemory n (Memory.onHeap act)

/-- Run an action on the tables of one heap. -/
def onTables {α : Type} (n : Nat) (act : TablesM α) : HostM α := onHeap n (Heap.onTables act)

/-- Ask a heap. -/
def ask {α : Type} (n : Nat) (question : Heap → Except HeapError α) : HostM α := do
  match question (← heapAt n) with
  | .ok a => return a
  | .error e => refuse (.heap e)

/-- Ask a heap something that has an answer unless its tables are broken. -/
def askSound {α : Type} (n : Nat) (question : Heap → Except Fault α) : HostM α := do
  match question (← heapAt n) with
  | .ok a => return a
  | .error f => fault f

/-- One more holder of a value. -/
def retain (v : Value) : HostM Unit :=
  modify fun host => { host with ledger := host.ledger.retain v }

/-- One holder of a value less. -/
def release (v : Value) : HostM Unit :=
  modify fun host => { host with ledger := host.ledger.release v }

/-- The value of an operand. -/
def eval (x : Operand) : HostM Value := do
  match x.value? (← get).bindings with
  | .ok v => return v
  | .error name => refuse (.unbound name)

/-- Hand a value over, with one count of it: to a variable, whose old value is released, or to
nobody. -/
def deliver (target : Option String) (v : Value) : HostM Reply := do
  match target with
  | none => release v
  | some name =>
    let old := (← get).bindings.find? name
    modify fun host => { host with bindings := host.bindings.insert name v }
    match old with
    | some old => release old
    | none => return .value v
  return .value v

/-- Hand over a value that was fetched from somewhere. -/
def deliverCopy (target : Option String) (v : Value) : HostM Reply := do
  retain v
  deliver target v

/-- Change a heap behind its back. -/
def tamper (n : Nat) : Tampering → HostM Reply
  | .place l slot isRoot => do
    onTables n (Tables.place l slot isRoot)
    return .done
  | .setChild l side x => do
    let v ← eval x
    let old ← onTables n (Tables.cellAt l)
    retain v
    onTables n (Tables.updateCell l (·.setChild v side))
    release (old.child side)
    return .done
  | .renew l x => do
    let v ← eval x
    let old ← onTables n (Tables.cellAt l)
    retain v
    onTables n (Tables.updateCell l (·.renew .cons v .nil))
    release old.car
    release old.cdr
    return .done
  | .exchange i l => return .string (← onTables n (Tables.exchange i l)).shown
  | .park i l => return .string (← onTables n (Tables.park i l)).shown
  | .decrease i => return .number (← onTables n (Tables.decrease i))
  | .addPage count first =>
    return .number (← onTables n (Tables.onStorage (Storage.addPage count first))).length
  | .extendWhite => return .number (← onTables n Tables.extendWhite)

/-- Answer for an operation that went well. After a change of roots the answer is the root count. -/
def report (n : Nat) (target : Option String) : Operation Value → Result → HostM Reply
  | .root x, _ | .unroot x, _ => return .number (← askSound n (·.rootCount x))
  | _, .done => return .done
  | _, .value v => deliver target v
  | _, .count k => return .number k

/-- Run one command on a heap. -/
def perform (n : Nat) (target : Option String) : Command → HostM Reply
  | .newHeap sizing => do
    let number := (← get).heaps.size
    modify (·.addHeap sizing)
    return .number number
  | .sizing => return .sizing (← heapAt n).sizing
  | .text s => do deliver target (← onMemory n (Memory.text s)).value
  | .symbol s => do deliver target (← onMemory n (Memory.symbol s)).value
  | .closure arity code captured => do
    let captured ← captured.mapM eval
    deliver target (← onMemory n (Memory.closure arity code captured)).value
  | .object tag body => do
    let body ← body.mapM eval
    deliver target (← onMemory n (Memory.object tag body)).value
  | .register tag kind => do
    onHeap n (Heap.register tag kind)
    return .done
  | .kind tag => do
    let kinds := (← heapAt n).kinds
    return .kind (kinds.name tag) (kinds.find? tag)
  | .act operation => do
    let operation ← operation.mapM eval
    report n target operation (← onMemory n operation.run)
  | .child side x => do
    let x ← eval x
    deliverCopy target (← ask n (·.child side x))
  | .copy x => do deliverCopy target (← eval x)
  | .display x => return .value (← eval x)
  | .inspect x => return .inspection (← eval x)
  | .rootCount x => do
    let x ← eval x
    return .number (← askSound n (·.rootCount x))
  | .slot x => do
    let x ← eval x
    return .number (← ask n (·.slot x))
  | .color x => do
    let x ← eval x
    return .string (← ask n (·.color x)).shown
  | .print x => do
    let x ← eval x
    return .string (← ask n (·.print x))
  | .isScanned => return .flag (← heapAt n).isScanned
  | .occupancy => return .occupancy (← askSound n Heap.occupancy)
  | .bounds => return .bounds (← heapAt n).tables.zones
  | .check => do
    match (← heapAt n).check with
    | .ok () => return .done
    | .error e => throw (e.map .heap)
  | .same x y => do
    let x ← eval x
    let y ← eval y
    return .flag (x.same y)
  | .drop name => do
    match (← get).bindings.find? name with
    | none => return .flag false
    | some v =>
      modify fun host => { host with bindings := host.bindings.erase name }
      release v
      return .flag true
  | .holders name => do
    match ← eval (.named name) with
    | .object header _ => return .holders (some ((← get).ledger.count header.id))
    | _ => return .holders none
  | .tamper change => tamper n change

/-- The answer of an action, be it an error. A fault goes on. -/
def attempt {α : Type} (act : HostM α) : HostM (Except Error α) := fun host =>
  match act host with
  | .ok a host => .ok (.ok a) host
  | .error (.error e) host => .ok (.error e) host
  | .error (.fault f) host => .error (.fault f) host

/-- The answer of the last of a number of rounds. -/
def times {α : Type} (act : HostM (List α)) : Nat → HostM (List α)
  | 0 => return []
  | 1 => act
  | n + 2 => do
    let _ ← act
    times act (n + 1)

mutual

/-- Run a step. -/
def runStep : Step → HostM Reply
  | .once n target command => perform n target command
  | .rounds _ count steps => do return .rounds (← times (runSteps steps) count)

/-- Run steps one after the other, past errors. -/
def runSteps : List Step → HostM (List (Except Error Reply))
  | [] => return []
  | s :: rest => do
    let a ← attempt (runStep s)
    return a :: (← runSteps rest)

end

/-- What came of a step: its answer and the notes that finalizers took in it. -/
structure Outcome where
  result : Except (Failure Error) Reply
  notes : List String

/-- Run a step on a host. -/
def step (host : Host) (s : Step) : Outcome × Host :=
  let start := host.ledger.log.size
  match runStep s host with
  | .ok reply host => (⟨.ok reply, host.ledger.notesFrom start⟩, host)
  | .error e host => (⟨.error e, host.ledger.notesFrom start⟩, host)

/-- Release the variables in the order of their names, and then the heaps in the order of their
numbers. The notes that finalizers took are returned apart. -/
def finish (host : Host) : List String × List String :=
  let afterVariables := host.ledger.releaseAll host.bindings.values
  let afterHeaps := host.heaps.foldl Memory.tearDown afterVariables
  (afterVariables.notesFrom host.ledger.log.size, afterHeaps.notesFrom afterVariables.log.size)

/-- A value as a heap sees it: the holders of an object, the colour, slot and root count of a live
cons, or the atom. -/
def seen (host : Host) (heap : Heap) (v : Value) : Except Fault String :=
  match v with
  | .object header _ => .ok ("refs " ++ toString (host.ledger.count header.id))
  | .cons .. =>
    match heap.color v, heap.slot v with
    | .ok color, .ok slot => do
      let count ← heap.rootCount v
      return s!"{color.shown} {slot} x{count}"
    | _, _ => .ok "dead"
  | v => .ok v.shown

end Host

end ConsHeap.Script
