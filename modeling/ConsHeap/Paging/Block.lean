/-!
# Blocks of memory

A block is a run of bytes whose size is a power of two, aligned to its size.

* `leastPower`: the least power of two that is not below a number.
* `Layout.blockSize`: the size of the block that a page of slots needs.
* `Supply`: which requests for memory the system grants.
* `Block.make`: a block of a given size.
* `reserve`: room for further entries of an array.
-/

namespace ConsHeap.Paging

/-- Why memory is refused. -/
inductive PageError where
  | badRequest
  | outOfMemory
  | limitReached
  deriving DecidableEq

def PageError.message : PageError → String
  | badRequest => "invalid block size requested"
  | outOfMemory => "out of memory"
  | limitReached => "page limit reached"

/-- Sizes are below this number. -/
def wordLimit : Nat := UInt64.size

/-- The standard supply refuses a request of so many bytes. -/
def ceiling : Nat := 1 <<< 45

/-- The memory of the system: whether a request of so many bytes is granted when so many pages are
drawn. -/
structure Supply where
  grants : (drawn bytes : Nat) → Bool
  deriving Inhabited

/-- The supply that grants every request below `ceiling` bytes and refuses all others. -/
def Supply.standard : Supply := ⟨fun _ bytes => decide (bytes < ceiling)⟩

/-- Holds of the powers of two. -/
def isPower (n : Nat) : Bool := 1 <<< n.log2 == n

/-- The least power of two that is not below `n`. -/
def leastPower (n : Nat) : Nat := if n ≤ 1 then 1 else 1 <<< ((n - 1).log2 + 1)

/-- A power of two is a bound of the least power exactly when it is a bound of the number. -/
theorem leastPower_le_shiftLeft_iff {n k : Nat} : leastPower n ≤ 1 <<< k ↔ n ≤ 1 <<< k := by
  simp only [leastPower, Nat.one_shiftLeft]
  split
  · have := Nat.one_le_two_pow (n := k); omega
  · next h =>
    rw [Nat.pow_le_pow_iff_right (by omega), Nat.succ_le_iff, Nat.log2_lt (by omega)]
    omega

/-- The least power is a power. -/
theorem isPower_leastPower (n : Nat) : isPower (leastPower n) = true := by
  unfold leastPower
  split
  · decide
  · simp [isPower, Nat.one_shiftLeft, Nat.log2_two_pow]

/-- The bytes one slot takes, and the power of two its address is a multiple of. -/
structure Layout where
  size : Nat
  align : Nat
  deriving DecidableEq

/-- The size of the block for `count` slots: the least power of two that holds them all and is
aligned for one. Refused when there is nothing to hold or no such power is a word. -/
def Layout.blockSize (slot : Layout) (count : Nat) : Except PageError Nat :=
  if count = 0 ∨ slot.size = 0 then .error .badRequest
  else if wordLimit ≤ slot.size * count then .error .badRequest
  else
    let size := leastPower (max (slot.size * count) slot.align)
    if wordLimit ≤ size then .error .badRequest else .ok size

/-- A block of memory. -/
structure Block where
  size : Nat
  deriving DecidableEq, Inhabited

/-- A block of the given size, if the system grants it. The size must be a power of two, and the end
must stay below `2 ^ 63` wherever the alignment puts it. -/
def Block.make (grants : Nat → Bool) (size : Nat) : Except PageError Block :=
  if ¬ isPower size then .error .badRequest
  else if 1 <<< 63 < size + size then .error .badRequest
  else if grants size then .ok ⟨size⟩
  else .error .outOfMemory

/-- Room for `more` entries of `width` bytes after the `present` entries of an array, if the system
grants it. -/
def reserve (grants : Nat → Bool) (width present more : Nat) : Except PageError Unit :=
  if more = 0 ∨ grants (width * (present + more)) then .ok () else .error .outOfMemory

end ConsHeap.Paging
