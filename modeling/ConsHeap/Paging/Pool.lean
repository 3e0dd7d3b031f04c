import ConsHeap.Paging.Page

/-!
# A pool of pages

One budget and the pages drawn on it, which are numbered from 0 in the order in which they were
made. Their slots hold numbers.

* `SlotType`: the types of slot a page may have.
* `Pool.perform`: one request to the pool.
-/

namespace ConsHeap.Paging

/-- The types of slot: one, two or eight bytes, three words that hold one number, and nothing. -/
inductive SlotType where
  | byte
  | half
  | word
  | triple
  | unit
  deriving DecidableEq, Inhabited

namespace SlotType

def layout : SlotType → Layout
  | byte => ⟨1, 1⟩
  | half => ⟨2, 2⟩
  | word => ⟨8, 8⟩
  | triple => ⟨24, 8⟩
  | unit => ⟨0, 1⟩

/-- The number of values a slot can hold. -/
def values : SlotType → Nat
  | byte => UInt8.size
  | half => UInt16.size
  | word | triple => UInt64.size
  | unit => 1

end SlotType

/-- A page of a pool: the type of its slots, and the page until it is freed. -/
structure Numbered where
  type : SlotType
  page : Option (Page Nat)
  deriving Inhabited

/-- One budget and the pages drawn on it. -/
structure Pool where
  budget : Budget
  pages : Array Numbered

namespace Pool

/-- A request to a pool. Pages and slots go by their numbers. -/
inductive Request where
  /-- Make a page; slot `i` starts as `i * factor`. -/
  | page (type : SlotType) (count factor : Nat)
  /-- Drop a page. Its charge stays. -/
  | free (page : Nat)
  | refund
  | get (page slot : Nat)
  | set (page slot value : Nat)
  | slots (page : Nat)
  | block (size : Nat)
  /-- Make room for more entries in an array of words. -/
  | reserve (present more : Nat)

/-- What a pool answers. -/
inductive Reply where
  | done
  | number (n : Nat)
  | nothing
  | stored (yes : Bool)
  | slots (content : Array Nat)
  | block (size : Nat)
  | room (present : Nat)

abbrev PoolM := EStateM PageError Pool

/-- Run an action on the budget. -/
def onBudget {α : Type} (act : BudgetM α) : PoolM α := fun pool =>
  match act pool.budget with
  | .ok a budget => .ok a { pool with budget }
  | .error e budget => .error e { pool with budget }

/-- A page that has not been freed. -/
def page? (pool : Pool) (n : Nat) : Option (Page Nat) := pool.pages[n]?.bind Numbered.page

/-- A pool that has made no page. -/
def ofLimit (limit : Option Nat) : Pool := ⟨.ofLimit limit, #[]⟩

/-- Answer one request. A page that is not there has no slots. -/
def perform : Request → PoolM Reply
  | .page type count factor => do
    let page ← onBudget (Page.make type.layout count fun i => i * factor % type.values)
    let number := (← getThe Pool).pages.size
    modify fun pool => { pool with pages := pool.pages.push ⟨type, some page⟩ }
    return .number number
  | .free n => do
    modify fun pool => { pool with pages := pool.pages.modify n ({ · with page := none }) }
    return .done
  | .refund => do
    modify fun pool => { pool with budget := pool.budget.refund }
    return .done
  | .get n i => do
    match ((← getThe Pool).page? n).bind (·.get? i) with
    | some value => return .number value
    | none => return .nothing
  | .set n i value => do
    match (← getThe Pool).page? n with
    | some page =>
      modify fun pool => { pool with
        pages := pool.pages.modify n fun p =>
          { p with page := p.page.map (·.set i (value % p.type.values)) } }
      return .stored (decide (i < page.size))
    | none => return .stored false
  | .slots n => do
    return .slots (((← getThe Pool).page? n).map Page.slots |>.getD #[])
  | .block size => do
    match Block.make (← getThe Pool).budget.grants size with
    | .ok block => return .block block.size
    | .error e => throw e
  | .reserve present more => do
    match Paging.reserve (← getThe Pool).budget.grants SlotType.word.layout.size present more with
    | .ok () => return .room present
    | .error e => throw e

end Pool

end ConsHeap.Paging
