import ConsHeap.Paging.Block

/-!
# Budgets and pages

* `Budget`: the number of pages drawn, the number that may be drawn, and where the memory is from.
* `Page`: a fixed number of slots in one block.
* `Page.make`: a page drawn on a budget. The checks are the size, the budget and the block, in
  that order, and a charge for a block that is refused is given back.
-/

namespace ConsHeap.Paging

/-- Pages drawn so far, the most that may be, and the memory that they are drawn from. -/
structure Budget where
  used : Nat
  limit : Option Nat
  supply : Supply
  deriving Inhabited

/-- Actions that draw on a budget. -/
abbrev BudgetM := EStateM PageError Budget

namespace Budget

/-- A budget of which nothing is used. -/
def ofLimit (limit : Option Nat) : Budget := ⟨0, limit, .standard⟩

/-- Holds when the system grants a request of so many bytes. -/
def grants (b : Budget) (bytes : Nat) : Bool := b.supply.grants b.used bytes

/-- Holds when no page is left. -/
def isSpent (b : Budget) : Bool := b.limit.any (· ≤ b.used)

/-- Draw one page. -/
def charge : BudgetM Unit := do
  if (← get).isSpent then throw .limitReached
  modify fun b => { b with used := b.used + 1 }

/-- Give one page back. -/
def refund (b : Budget) : Budget := { b with used := b.used - 1 }

end Budget

/-- A fixed number of slots in one block. -/
structure Page (α : Type) where
  block : Block
  slots : Array α
  deriving Inhabited

namespace Page

variable {α : Type}

/-- The number of slots. -/
def size (p : Page α) : Nat := p.slots.size

/-- The content of a slot. -/
def get? (p : Page α) (i : Nat) : Option α := p.slots[i]?

/-- The page with one slot set. A number out of range changes nothing. -/
def set (p : Page α) (i : Nat) (a : α) : Page α := { p with slots := p.slots.setIfInBounds i a }

/-- Draw the block of a page, or leave the budget as it was. -/
def draw (size : Nat) : BudgetM Block := do
  Budget.charge
  match Block.make (← get).grants size with
  | .ok block => return block
  | .error e =>
    modify Budget.refund
    throw e

/-- A page of `count` slots, slot `i` holding `content i`. -/
def make (slot : Layout) (count : Nat) (content : Nat → α) : BudgetM (Page α) := do
  match slot.blockSize count with
  | .error e => throw e
  | .ok size =>
    let block ← draw size
    return ⟨block, Array.ofFn fun i : Fin count => content i⟩

end Page

end ConsHeap.Paging
