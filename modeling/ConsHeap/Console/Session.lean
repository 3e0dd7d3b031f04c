import ConsHeap.Console.Command
import ConsHeap.Heap.Audit
import ConsHeap.Heap.Listed
import ConsHeap.Memory.Basic

/-!
# Sessions

A session has one heap and a table of named values, and runs one command line at a time. Names do
not root what they name, so a sweep drops the names of the cells that it reclaims.

* `Session.perform`: runs a command and returns the text to show.
* `Session.run`: runs a line.
-/

namespace ConsHeap.Console

/-- A heap and its named values. -/
structure Session where
  memory : Memory
  names : Names Value
  /-- The number of cells that were named for want of a name. -/
  anonymous : Nat

/-- Actions in a session. -/
abbrev SessionM := EStateM (Failure Reason) Session

namespace Session

/-- A session in which nothing has happened. -/
def new (sizing : Sizing) : Session := ⟨⟨.new 0 sizing, .empty⟩, .empty, 0⟩

/-- Run an action on the heap and its objects. -/
def onMemory {α : Type} (act : MemoryM α) : SessionM α := fun s =>
  match s with
  | ⟨memory, names, anonymous⟩ =>
    match act memory with
    | .ok a memory => .ok a ⟨memory, names, anonymous⟩
    | .error e memory => .error (e.map .heap) ⟨memory, names, anonymous⟩

/-- Run an action on the heap. -/
def onHeap {α : Type} (act : HeapM α) : SessionM α := onMemory (Memory.onHeap act)

/-- Ask the heap. -/
def ask {α : Type} (question : Heap → Except HeapError α) : SessionM α := do
  match question (← get).memory.heap with
  | .ok a => return a
  | .error e => refuse (.heap e)

/-- Ask the heap something that has an answer unless its tables are broken. -/
def askSound {α : Type} (question : Heap → Except Fault α) : SessionM α := do
  match question (← get).memory.heap with
  | .ok a => return a
  | .error f => fault f

/-- The value of an operand. -/
def eval (x : Operand) : SessionM Value := do
  match x.value? (← get).names with
  | .ok v => return v
  | .error name => refuse (.unbound name)

/-- The value under a name. -/
def lookup (name : String) : SessionM Value := eval (.named name)

/-- Put a value under a name, with one count of it. What was there is released. -/
def bind (name : String) (v : Value) : SessionM Unit := do
  let old := (← get).names.find? name
  modify fun s => { s with names := s.names.insert name v }
  match old with
  | some old => onMemory (Memory.release old)
  | none => return ()

/-- Where a cons is. -/
def describe (name : String) (v : Value) : SessionM String := do
  let color ← ask (·.color v)
  let slot ← ask (·.slot v)
  return s!"{name} is {color.shown} at slot {slot}"

/-- A name for a cell that was given none. -/
def freshName : SessionM String := do
  let number := (← get).anonymous + 1
  modify fun s => { s with anonymous := number }
  return s!"_{number}"

/-- Make a cell and put it under a name. -/
def cons (name : Option String) (car cdr : Operand) : SessionM String := do
  let car ← eval car
  let cdr ← eval cdr
  let v ← onMemory (Memory.cons .cons car cdr)
  let name ← match name with
    | some name => pure name
    | none => freshName
  let text ← describe name v
  bind name v
  return text

/-- Holds of the values whose cell is dead. -/
def isDead (h : Heap) (v : Value) : Bool :=
  v.isCons && match h.color v with
    | .ok _ => false
    | .error _ => true

/-- Drop the names of dead cells after a sweep that reclaimed `count` cells. -/
def dropDead (count : Nat) : SessionM String := do
  let h := (← get).memory.heap
  let dead := ((← get).names.keep (isDead h)).keys
  modify fun s => { s with names := s.names.keep fun v => !isDead h v }
  if dead.isEmpty then
    return s!"reclaimed {count}"
  else
    return s!"reclaimed {count}; released " ++ ", ".intercalate dead

/-- The sizes of the zones and tables in a line. -/
def shownOccupancy (o : Occupancy) : String :=
  s!"black {o.black} gap {o.gap} grey {o.grey} white {o.white} free {o.free} of {o.capacity}; " ++
    s!"roots {o.roots} of {o.rootCapacity}; pages {o.pages}"

/-- Run a command. The text to show is returned. -/
def perform : Command → SessionM String
  | .cons name car cdr => cons name car cdr
  | .root name => do
    let v ← lookup name
    onHeap (Heap.root v)
    let count ← askSound (·.rootCount v)
    return s!"{name} root count {count}"
  | .unroot name => do
    let v ← lookup name
    onHeap (Heap.unroot v)
    describe name v
  | .setChild side target x => do
    let target ← lookup target
    let v ← eval x
    onMemory (Memory.setChild side target v)
    ask (·.print target)
  | .text name content => do
    let o ← onMemory (Memory.text content)
    bind name o.value
    return s!"{name} = " ++ Text.quoted content
  | .scan budget => do
    let count ← onHeap (Heap.scan budget)
    return s!"blackened {count}"
  | .sweep => do dropDead (← onHeap Heap.sweep)
  | .collect => do dropDead (← onHeap Heap.collect)
  | .stats => return shownOccupancy (← askSound Heap.occupancy)
  | .check => do
    match (← get).memory.heap.check with
    | .ok () => return "ok"
    | .error e => throw (e.map .heap)
  | .color name => do describe name (← lookup name)
  | .refs name => do
    let v ← lookup name
    match v with
    | .object header _ =>
      let count := (← get).memory.ledger.count header.id
      return s!"{name} refs {count}"
    | _ =>
      let count ← askSound (·.rootCount v)
      return s!"{name} root count {count}"
  | .print name => do
    let v ← lookup name
    ask (·.print v)
  | .help => return help

/-- Run a line. The text to show is returned, if the line asks for anything. -/
def run (line : String) : SessionM (Option String) := do
  match ← answer (Command.parse line) with
  | none => return none
  | some command => return some (← perform command)

end Session

end ConsHeap.Console
