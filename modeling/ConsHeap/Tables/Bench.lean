import ConsHeap.Tables.Moves
import ConsHeap.Tables.Exchange

/-!
# The tables on their own

Requests to the two tables and their storage without a heap around them.

* `Tables.perform`: answers one request.
* `Tables.shownSlots`, `Tables.shownEntries`: what the slots of the tables name, as text.
-/

namespace ConsHeap

def Zone.shown : Zone → String
  | black => "black"
  | gap => "gap"
  | grey => "grey"
  | white => "white"
  | free => "free"

namespace Tables

/-- A request to the tables. -/
inductive Request where
  | growZones (count : Nat)
  | growRoots (count : Nat)
  | addPage (count first : Nat)
  | dropPage
  | contains (l : Location)
  | extendWhite
  | shade (i : Nat)
  | takeOut (i : Nat)
  | exchange (i : Nat) (l : Location)
  | extendBlack
  | blacken
  | reclaim
  | whiten
  | cutSlots (capacity : Nat)
  | zone (i : Nat)
  | slot (i : Nat)
  | enrol (l : Location)
  | increase (i : Nat)
  | decrease (i : Nat)
  | dismiss (i : Nat)
  | park (i : Nat) (l : Location)
  | cutEntries (capacity : Nat)
  | live
  | cell (l : Location)
  /-- Record a slot, in the table that the flag names or in the one the cell is in. -/
  | place (l : Location) (slot : Nat) (isRoot : Option Bool)
  | renew (l : Location) (tag : Tag) (car cdr : Value)
  | occupancy

/-- How full the tables are. -/
structure Occupancy where
  zonesFull : Bool
  hasGrey : Bool
  canExtendBlack : Bool
  rootsFull : Bool
  rootsEmpty : Bool
  pages : Nat
  cells : Nat

/-- What the tables answer. -/
inductive Reply where
  | done
  | number (n : Nat)
  | flag (b : Bool)
  | location (l : Option Location)
  | locations (ls : List Location)
  | zone (z : Zone)
  | cell (c : Cell)
  | occupancy (o : Occupancy)

/-- How full the tables are. -/
def occupancy (t : Tables) : Occupancy where
  zonesFull := t.zones.isFull
  hasGrey := t.zones.hasGrey
  canExtendBlack := t.zones.canExtendBlack
  rootsFull := t.roots.isFull
  rootsEmpty := t.roots.live == 0
  pages := t.storage.pages.size
  cells := t.storage.cells

/-- Answer one request. -/
def perform : Request → TablesM Reply
  | .growZones count => (fun _ => .done) <$> growZones count
  | .growRoots count => (fun _ => .done) <$> growRoots count
  | .addPage count first => .locations <$> onStorage (Storage.addPage count first)
  | .dropPage => (fun _ => .done) <$> onStorage Storage.dropPage
  | .contains l => return .flag ((← get).storage.contains l)
  | .extendWhite => .number <$> extendWhite
  | .shade i => (fun _ => .done) <$> shade i
  | .takeOut i => .number <$> takeOut i
  | .exchange i l => (.location ∘ some) <$> exchange i l
  | .extendBlack => .number <$> extendBlack
  | .blacken => .location <$> blacken
  | .reclaim => .number <$> reclaim
  | .whiten => (fun _ => .done) <$> whiten
  | .cutSlots capacity => (fun _ => .done) <$> cutSlots capacity
  | .zone i => return .zone ((← get).zones.zone i)
  | .slot i => (.location ∘ some) <$> slotAt i
  | .enrol l => (.location ∘ some) <$> enrol l
  | .increase i => .number <$> increase i
  | .decrease i => .number <$> decrease i
  | .dismiss i => .number <$> dismiss i
  | .park i l => (.location ∘ some) <$> park i l
  | .cutEntries capacity => (fun _ => .done) <$> cutEntries capacity
  | .live => return .locations (← get).roots.locations
  | .cell l => .cell <$> cellAt l
  | .place l slot isRoot => do
    match isRoot with
    | some b => place l slot b
    | none => renumber l slot
    .cell <$> cellAt l
  | .renew l tag car cdr => do
    updateCell l (·.renew tag car cdr)
    .cell <$> cellAt l
  | .occupancy => return .occupancy (← get).occupancy

/-- A location, with the slot its cell records and `r` if that is a slot of the root table. -/
def shownPlace (t : Tables) (l : Location) : String :=
  match t.storage.get? l with
  | none => s!"{l.shown}@-"
  | some cell => s!"{l.shown}@{cell.slot}" ++ (if cell.isRoot then "r" else "")

/-- What the slots of the cons table name. -/
def shownSlots (t : Tables) : String :=
  " ".intercalate (t.zones.slots.toList.map t.shownPlace)

/-- What the entries of the root table name, with their counts. -/
def shownEntries (t : Tables) : String :=
  " ".intercalate (t.roots.entries.toList.map fun e => s!"{t.shownPlace e.location}x{e.count}")

end Tables

end ConsHeap
