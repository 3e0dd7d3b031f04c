import ConsHeap.Cell
import ConsHeap.Ledger

/-!
# Holding values

* `Ledger.Holds`: the object in a value, if it is one, has a holder.
* `Ledger.release_retain`: **a value that is held can be held once more and released without a trace.**
-/

namespace ConsHeap.Ledger

variable {ledger : Ledger} {x y : Value}

/-- The ledger when a cell holds two values in place of those that it held. -/
def refilled (ledger : Ledger) (car cdr : Value) (old : Cell) : Ledger :=
  (((ledger.retain car).retain cdr).release old.car).release old.cdr

/-- A value is held when it is no object, or one that is counted. -/
def Holds (ledger : Ledger) : Value → Prop
  | .object header _ => 0 < ledger.count header.id
  | _ => True

/-- An object with a count is in the ledger. -/
theorem lt_size_of_count_pos {i : Nat} (h : 0 < ledger.count i) : i < ledger.entries.size := by
  refine Nat.lt_of_not_le fun hge => ?_
  rw [count, Array.getElem?_eq_none hge, Option.elim_none] at h
  exact absurd h (Nat.lt_irrefl 0)

/-- A count that is set to what it is. -/
theorem setCount_count (ledger : Ledger) (i : Nat) : ledger.setCount i (ledger.count i) = ledger := by
  have hentries : ledger.entries.modify i ({ · with count := ledger.count i }) = ledger.entries := by
    apply Array.ext_getElem?
    intro j
    rw [Array.getElem?_modify]
    split
    · next h =>
      subst h
      rw [count]
      cases ledger.entries[i]? <;> rfl
    · rfl
  rw [setCount, hentries]

/-- Of two counts that are set for an object, the second stays. -/
theorem setCount_setCount (ledger : Ledger) (i m n : Nat) :
    (ledger.setCount i m).setCount i n = ledger.setCount i n := by
  have hentries : (ledger.entries.modify i ({ · with count := m })).modify i ({ · with count := n }) =
      ledger.entries.modify i ({ · with count := n }) := by
    apply Array.ext_getElem?
    intro j
    simp only [Array.getElem?_modify]
    split <;> cases ledger.entries[j]? <;> rfl
  rw [setCount, setCount, setCount, hentries]

/-- A value that is held stays held while another one is retained. -/
theorem Holds.retain (h : ledger.Holds x) (y : Value) : (ledger.retain y).Holds x := by
  cases x with
  | object header body =>
    cases y with
    | object other _ =>
      have hcount : 0 < ledger.count header.id := h
      simp only [Holds, Ledger.retain, count_setCount]
      split <;> omega
    | _ => exact h
  | _ => trivial

/-- **A value that is held can be held once more and released without a trace.** -/
theorem release_retain (h : ledger.Holds x) : release x (ledger.retain x) = ledger := by
  cases x with
  | object header body =>
    have hpos : 0 < ledger.count header.id := h
    have hsize := lt_size_of_count_pos hpos
    obtain ⟨n, hn⟩ := Nat.exists_eq_succ_of_ne_zero (Nat.ne_of_gt hpos)
    have hcount : (ledger.setCount header.id (ledger.count header.id + 1)).count header.id = n + 2 := by
      rw [count_setCount, if_pos ⟨rfl, hsize⟩, hn]
    rw [Ledger.retain, release]
    simp only [hcount]
    rw [setCount_setCount, show n + 1 = ledger.count header.id from hn.symm, setCount_count]
  | _ => rw [Ledger.retain, release] <;> simp

/-- Two values that are held can be held once more and released, the second one first. -/
theorem release_release_retain_retain (hx : ledger.Holds x) (hy : ledger.Holds y) :
    release x (release y ((ledger.retain x).retain y)) = ledger := by
  rw [release_retain (hy.retain x), release_retain hx]

end ConsHeap.Ledger
