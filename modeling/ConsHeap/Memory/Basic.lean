import ConsHeap.Heap.Cycle
import ConsHeap.Heap.Rooting
import ConsHeap.Ledger

/-!
# A heap and the objects in it

The operations that store values in cells work on a heap and on the ledger of objects together,
since every stored value is held by its cell. A cell holds its values until its storage is used
again, also when it is dead by then.

* `Memory.object`, `Memory.text`, `Memory.symbol`, `Memory.closure`: new objects.
* `Memory.holding`: values are held while room is made for them.
* `Memory.cons`, `Memory.rootedCons`, `Memory.list`: new cells.
* `Memory.setChild`: a new value on one side of a cell.
-/

namespace ConsHeap

/-- A heap and the ledger of objects. -/
structure Memory where
  heap : Heap
  ledger : Ledger
  deriving Inhabited

/-- Actions on a heap and the ledger. -/
abbrev MemoryM := EStateM (Failure HeapError) Memory

namespace Memory

/-- Run an action on the heap. The ledger cannot change in it. -/
def onHeap {α : Type} (act : HeapM α) : MemoryM α := fun m =>
  match m with
  | ⟨heap, ledger⟩ =>
    match act heap with
    | .ok a heap => .ok a ⟨heap, ledger⟩
    | .error e heap => .error e ⟨heap, ledger⟩

/-- One more holder of a value. -/
def retain (v : Value) : MemoryM Unit := modify fun m => { m with ledger := m.ledger.retain v }

/-- One holder of a value less. -/
def release (v : Value) : MemoryM Unit := modify fun m => { m with ledger := m.ledger.release v }

/-- Make an object. One count of it belongs to the caller. -/
def create (tag : Tag) (finalizer : Option Finalizer) (body : Body Value) : MemoryM Object :=
  modifyGet fun m =>
    let (o, ledger) := m.ledger.create tag finalizer body
    (o, { m with ledger })

/-- An object with a tag that has a kind in this heap. -/
def object (tag : Tag) (body : Body Value) : MemoryM Object := do
  let tag ← answer tag.asObject
  match (← get).heap.kinds.find? tag with
  | none => refuse (.wrongType .registeredTag tag)
  | some kind => create tag kind.finalizer body

/-- An object with one of the standard tags. -/
def standard (tag : Tag) (body : Body Value) : MemoryM Object := do
  create tag ((← get).heap.kinds.finalizer tag) body

def text (s : String) : MemoryM Object := standard .text (.text s)

def symbol (s : String) : MemoryM Object := standard .symbol (.symbol s)

def closure (arity : UInt8) (code : List UInt8) (captured : List Value) : MemoryM Object :=
  standard .closure (.closure arity code captured)

/-- Check the tag and the values of a new cell. The tag is returned. -/
def checkCons (tag : Tag) (car cdr : Value) : MemoryM Tag := do
  let tag ← answer tag.asCons
  onHeap (Heap.checkChild car)
  onHeap (Heap.checkChild cdr)
  return tag

/-- Hold two values for a new cell and run an action. If that fails they are released, cdr first. -/
def holding (car cdr : Value) (act : MemoryM Unit) : MemoryM Unit := do
  retain car
  retain cdr
  try act
  catch e =>
    release cdr
    release car
    throw e

/-- Put two values that are held into the next free slot. What its storage held is released, car
first. -/
def fill (tag : Tag) (car cdr : Value) : MemoryM Location := do
  let (l, old) ← onHeap (Heap.fill tag car cdr)
  release old.car
  release old.cdr
  return l

/-- A new white cell. -/
def cons (tag : Tag) (car cdr : Value) : MemoryM Value := do
  let tag ← checkCons tag car cdr
  holding car cdr (onHeap Heap.roomForCell)
  let l ← fill tag car cdr
  return .cons tag (← onHeap (Heap.issue l))

/-- A new cell that is rooted with a count of one. -/
def rootedCons (tag : Tag) (car cdr : Value) : MemoryM Value := do
  let tag ← checkCons tag car cdr
  holding car cdr (onHeap Heap.roomForBoth)
  let l ← fill tag car cdr
  onHeap (Heap.toRoots l)
  return .cons tag (← onHeap (Heap.issue l))

/-- A proper list of new white cells, made from its end. -/
def list (items : List Value) : MemoryM Value :=
  items.foldrM (fun item tail => cons .cons item tail) .nil

/-- Put another value on one side of a cons. The value that was there is released. -/
def setChild (side : Side) (target v : Value) : MemoryM Unit := do
  let (l, old) ← answer ((← get).heap.liveCell target)
  onHeap (Heap.checkChild v)
  retain v
  onHeap (Heap.onTables (Tables.updateCell l (·.setChild v side)))
  release (old.child side)
  onHeap (Heap.barrier l v)

/-- Release everything that the cells of a heap hold, by page and offset, car first. -/
def tearDown (ledger : Ledger) (h : Heap) : Ledger :=
  ledger.releaseAll (h.tables.storage.allCells.flatMap fun cell => [cell.car, cell.cdr])

end Memory

end ConsHeap
