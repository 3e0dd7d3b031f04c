import ConsHeap.Heap.Basic

/-!
# List notation

A cons is written as the list of the cells along its cdr, in brackets. A tail that is neither a
cons nor nil follows a dot. A cell that the path from the printed value has been through, by car or
by cdr, is written `...`, so the text of a cyclic structure ends.

* `Heap.print`: a value in list notation. It fails when a cons on the way is not live.
-/

namespace ConsHeap.Heap

/-- The text of a value that is not a cons. Bytes show the name of their kind. -/
def printAtom (h : Heap) : Value → String
  | .object header (.bytes _) => "<" ++ h.kinds.name header.tag ++ ">"
  | v => v.shown

/-- A value that may be a cons, whose cells are written by `inner`. -/
def printItem (h : Heap) (inner : Location → Except HeapError String) (v : Value) :
    Except HeapError String :=
  if v.isCons then do
    let l ← h.live v
    return "(" ++ (← inner l) ++ ")"
  else
    return h.printAtom v

/-- The cells that are not on a path. -/
def offPath (h : Heap) (path : List Location) : List Location :=
  h.tables.storage.locations.filter fun l => decide (l ∉ path)

theorem length_offPath_lt {h : Heap} {path : List Location} {l : Location} {c : Cell}
    (hc : h.cell? l = some c) (hp : l ∉ path) :
    (h.offPath (l :: path)).length < (h.offPath path).length := by
  have hsub : h.offPath (l :: path) = (h.offPath path).filter fun m => decide (m ≠ l) := by
    simp only [offPath, List.filter_filter]
    congr 1; funext m
    by_cases h1 : m = l <;> by_cases h2 : m ∈ path <;> simp [h1, h2]
  rw [hsub]
  have hm : l ∈ h.offPath path :=
    List.mem_filter.2 ⟨Storage.mem_locations hc, by simpa using hp⟩
  have hle := List.length_filter_le (fun m => decide (m ≠ l)) (h.offPath path)
  refine Nat.lt_of_le_of_ne hle fun heq => ?_
  have := List.length_filter_eq_length_iff.1 heq l hm
  simp at this

/-- The cells from `l` on, without the brackets around them, after the cells of `path`. -/
def printFrom (h : Heap) (path : List Location) (l : Location) : Except HeapError String :=
  match _hc : h.cell? l with
  | none => .error .foreign
  | some cell =>
    if _hp : l ∈ path then .ok "..."
    else do
      let car ← h.printItem (fun m => printFrom h (l :: path) m) cell.car
      match cell.cdr with
      | .nil => return car
      | .cons tag handle =>
        let next ← h.live (.cons tag handle)
        return car ++ " " ++ (← printFrom h (l :: path) next)
      | v => return car ++ " . " ++ h.printAtom v
termination_by (h.offPath path).length
decreasing_by all_goals exact length_offPath_lt _hc _hp

/-- A value in list notation. -/
def print (h : Heap) (v : Value) : Except HeapError String := h.printItem (h.printFrom []) v

end ConsHeap.Heap
