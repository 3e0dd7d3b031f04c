import ConsHeap.Handle
import ConsHeap.Paging.Block
import ConsHeap.Tag

/-!
# Errors and faults

* `HeapError`: why a heap refuses a request. A refusal leaves the heap as it was, but for the cells of a
  list that were made before.
* `Fault`: a breach of what the tables promise each other, such as an index out of range. No
  sequence of heap operations causes one; a caller that changes the tables by hand can.
* `Failure`: either of the two, as the exception of the state monads `EStateM (Failure ε) σ`. The
  state at the time of the failure is kept, so an operation that has to undo a step does so itself.
-/

namespace ConsHeap

/-- What a wrong tag was found in place of. -/
inductive Expected where
  | cons
  | consTag
  | objectTag
  | registeredTag
  deriving DecidableEq

def Expected.shown : Expected → String
  | cons => "a cons"
  | consTag => "a cons-kind tag"
  | objectTag => "a heap object tag"
  | registeredTag => "a registered object tag"

/-- Why a heap refuses a request. -/
inductive HeapError where
  /-- The system has no memory left, or the page limit is reached. -/
  | outOfMemory
  /-- No page of that size can exist. -/
  | badRequest
  | wrongType (expected : Expected) (found : Tag)
  | notRooted
  /-- The handle is of another heap, or its cell is dead. -/
  | foreign
  /-- Grey cells are left to scan. -/
  | unscanned
  | corrupt (reason : String)
  deriving DecidableEq

namespace HeapError

def message : HeapError → String
  | outOfMemory => "Out of memory!"
  | badRequest => "An invalid memory size allocation was requested!"
  | wrongType expected found =>
    s!"Type error: expected {expected.shown}, found tag {found.shown}"
  | notRooted => "Attempt to unroot a cons that is not rooted"
  | foreign => "Cons handle does not belong to this heap"
  | unscanned => "Sweep requested while grey cells remain unscanned"
  | corrupt reason => "Heap invariant violated: " ++ reason

/-- What a refusal of memory means for a heap: a spent budget is memory that has run out. -/
def ofPage : Paging.PageError → HeapError
  | .badRequest => badRequest
  | .outOfMemory | .limitReached => outOfMemory

/-- Holds of the errors that freeing memory might cure. -/
def isAllocation : HeapError → Bool
  | outOfMemory | badRequest => true
  | _ => false

end HeapError

/-- A condition that the caller of a table operation has to meet. -/
inductive Condition where
  | keepsLiveSlots
  | hasFreeSlot
  | isWhite
  | isScanned
  | keepsLiveRoots
  | hasFreeRoot
  | isLiveRoot
  | isCounted
  | isSpareRoot
  | isSlotNumber
  | isCharged
  deriving DecidableEq

def Condition.shown : Condition → String
  | keepsLiveSlots => "a live slot would be cut off"
  | hasFreeSlot => "the cons table is full"
  | isWhite => "the slot is not white"
  | isScanned => "grey or white cells are left"
  | keepsLiveRoots => "a live root would be cut off"
  | hasFreeRoot => "the root table is full"
  | isLiveRoot => "the entry is not a live root"
  | isCounted => "the count of the root does not allow it"
  | isSpareRoot => "the entry is a live root"
  | isSlotNumber => "the slot number is too large"
  | isCharged => "no page was drawn"

/-- A breach of what the tables promise each other. -/
inductive Fault where
  | missingCell (location : Location)
  | deadSlot (slot : Nat)
  | outOfRange (index size : Nat)
  | negative
  | breach (condition : Condition)
  deriving DecidableEq

def Fault.message : Fault → String
  | missingCell location => s!"cons handle {location.shown} is not in this store"
  | deadSlot slot =>
    s!"internal error: entered unreachable code: slot {slot} does not hold a live cell"
  | outOfRange index size =>
    s!"index out of bounds: the len is {size} but the index is {index}"
  | negative => "attempt to subtract with overflow"
  | breach condition => "assertion failed: " ++ condition.shown

/-- A refusal or a fault. -/
inductive Failure (ε : Type) where
  | error (e : ε)
  | fault (f : Fault)
  deriving DecidableEq

namespace Failure

/-- The same failure with another type of error. -/
def map {ε δ : Type} (f : ε → δ) : Failure ε → Failure δ
  | error e => error (f e)
  | fault x => fault x

end Failure

variable {ε σ α : Type}

/-- Fail with an error. -/
def refuse (e : ε) : EStateM (Failure ε) σ α := throw (.error e)

/-- Fail with a fault. -/
def fault (f : Fault) : EStateM (Failure ε) σ α := throw (.fault f)

/-- Fault unless the condition holds. -/
def expect (holds : Bool) (condition : Condition) : EStateM (Failure ε) σ Unit :=
  if holds then pure () else fault (.breach condition)

/-- The difference of two numbers, or a fault when there is none. -/
def minus (m n : Nat) : EStateM (Failure ε) σ Nat :=
  if n ≤ m then pure (m - n) else fault .negative

/-- An answer that may be an error. -/
def answer (x : Except ε α) : EStateM (Failure ε) σ α :=
  match x with
  | .ok a => pure a
  | .error e => refuse e

/-- A tag that has to be in the cons family. -/
def Tag.asCons (t : Tag) : Except HeapError Tag :=
  if t.family = some .cons then .ok t else .error (.wrongType .consTag t)

/-- A tag that has to be in the object family. -/
def Tag.asObject (t : Tag) : Except HeapError Tag :=
  if t.family = some .object then .ok t else .error (.wrongType .objectTag t)

end ConsHeap
