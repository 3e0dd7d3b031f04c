/-!
# Locations and handles

* `Location`: where a cell is stored. A cell stays there for the life of its heap, whatever table
  slot it holds and however often its storage is used again.
* `Handle`: a location together with the identity of the heap that issued it and the generation of
  the storage at that time, so that a handle outlives its cell without naming the next one.
-/

namespace ConsHeap

/-- A page number and a position in that page. -/
structure Location where
  page : UInt32
  offset : UInt32
  deriving DecidableEq, Inhabited

/-- The location at a page and a position, both taken modulo `2 ^ 32`. -/
def Location.ofNat (page offset : Nat) : Location := ⟨UInt32.ofNat page, UInt32.ofNat offset⟩

@[simp] theorem Location.ofNat_toNat (l : Location) :
    ofNat l.page.toNat l.offset.toNat = l := by
  simp [Location.ofNat]

/-- A location as it is written. -/
def Location.shown (l : Location) : String := s!"{l.page.toNat}:{l.offset.toNat}"

/-- What a heap issues for a cell. Identities and generations wrap around. -/
structure Handle where
  heap : UInt32
  location : Location
  generation : UInt32
  deriving DecidableEq, Inhabited

/-- A handle as it is written. -/
def Handle.shown (h : Handle) : String :=
  s!"{h.heap.toNat}/{h.location.shown}@{h.generation.toNat}"

end ConsHeap
