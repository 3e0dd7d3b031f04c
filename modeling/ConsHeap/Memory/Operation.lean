import ConsHeap.Memory.Basic

/-!
# Operations

What a program may do with the cells of a heap, as data. The values that an operation works on are
of any type, so that the same operations serve where values go by names.

* `Operation`: the operations.
* `Operation.operands`: the values that an operation works on.
* `Operation.mapM`: exchanges the values, in the order in which they are written.
* `Operation.run`: runs an operation on a heap and the ledger.
-/

namespace ConsHeap

/-- What a program may do with the cells of a heap. -/
inductive Operation (α : Type) where
  | cons (tag : Tag) (car cdr : α)
  | rootedCons (tag : Tag) (car cdr : α)
  | list (items : List α)
  | root (x : α)
  | unroot (x : α)
  | setChild (side : Side) (target x : α)
  | shade (x : α)
  | scan (budget : Nat)
  | startCycle
  | sweep
  | collect

/-- What an operation answers. -/
inductive Result where
  | done
  | value (v : Value)
  | count (n : Nat)

namespace Operation

/-- The values that an operation works on, in the order in which they are written. -/
def operands {α : Type} : Operation α → List α
  | cons _ car cdr | rootedCons _ car cdr => [car, cdr]
  | list items => items
  | root x | unroot x | shade x => [x]
  | setChild _ target x => [target, x]
  | scan _ | startCycle | sweep | collect => []

/-- The operation with other values, exchanged in the order in which they are written. -/
def mapM {m : Type → Type} [Monad m] {α β : Type} (f : α → m β) : Operation α → m (Operation β)
  | cons tag car cdr => cons tag <$> f car <*> f cdr
  | rootedCons tag car cdr => rootedCons tag <$> f car <*> f cdr
  | list items => list <$> items.mapM f
  | root x => root <$> f x
  | unroot x => unroot <$> f x
  | setChild side target x => setChild side <$> f target <*> f x
  | shade x => shade <$> f x
  | scan budget => pure (scan budget)
  | startCycle => pure startCycle
  | sweep => pure sweep
  | collect => pure collect

/-- Run an operation on a heap and the ledger. -/
def run : Operation Value → MemoryM Result
  | cons tag car cdr => .value <$> Memory.cons tag car cdr
  | rootedCons tag car cdr => .value <$> Memory.rootedCons tag car cdr
  | list items => .value <$> Memory.list items
  | root x => (fun _ => .done) <$> Memory.onHeap (Heap.root x)
  | unroot x => (fun _ => .done) <$> Memory.onHeap (Heap.unroot x)
  | setChild side target x => (fun _ => .done) <$> Memory.setChild side target x
  | shade x => (fun _ => .done) <$> Memory.onHeap (Heap.shadeValue x)
  | scan budget => .count <$> Memory.onHeap (Heap.scan budget)
  | startCycle => (fun _ => .done) <$> Memory.onHeap Heap.startCycle
  | sweep => .count <$> Memory.onHeap Heap.sweep
  | collect => .count <$> Memory.onHeap Heap.collect

end Operation

end ConsHeap
