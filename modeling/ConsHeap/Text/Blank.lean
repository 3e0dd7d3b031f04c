/-!
# White space

* `isBlank`: the characters with the Unicode property `White_Space`.
* `trim`: a text without the blanks at its ends.
* `words`: the maximal runs without blanks, in order. No word is empty, none has a blank, and
  together they hold all other characters.
-/

namespace ConsHeap.Text

/-- The code points with the property `White_Space`, as closed ranges. -/
def blankRanges : List (Nat × Nat) := [
  (0x9, 0xd), (0x20, 0x20), (0x85, 0x85), (0xa0, 0xa0), (0x1680, 0x1680), (0x2000, 0x200a),
  (0x2028, 0x2029), (0x202f, 0x202f), (0x205f, 0x205f), (0x3000, 0x3000)]

/-- Holds of white space. -/
def isBlank (c : Char) : Bool :=
  blankRanges.any fun (first, last) => first ≤ c.toNat && c.toNat ≤ last

/-- The text without the blanks it starts with. -/
def trimStart (cs : List Char) : List Char := cs.dropWhile isBlank

/-- The text without the blanks it ends with. -/
def trimEnd (cs : List Char) : List Char := (trimStart cs.reverse).reverse

/-- The text without the blanks at its two ends. -/
def trim (cs : List Char) : List Char := trimEnd (trimStart cs)

/-- The maximal runs without blanks, in order. -/
def words : List Char → List (List Char)
  | [] => []
  | c :: cs =>
    if isBlank c then words cs
    else if cs.head?.all isBlank then [c] :: words cs
    else match words cs with
      | [] => [[c]]
      | w :: ws => (c :: w) :: ws

/-- The words hold all characters but the blanks, in order. -/
theorem flatten_words (cs : List Char) : (words cs).flatten = cs.filter fun c => !isBlank c := by
  induction cs with
  | nil => rfl
  | cons c cs ih =>
    unfold words
    by_cases hc : isBlank c
    · simp [hc, ih]
    · simp only [hc, Bool.false_eq_true, if_false]
      split
      · simp [hc, ih]
      · split
        · next h => rw [h] at ih; simp [hc, ← ih]
        · next h => rw [h] at ih; simp [hc, ← ih]

/-- No word is empty. -/
theorem ne_nil_of_mem_words {cs w : List Char} (h : w ∈ words cs) : w ≠ [] := by
  induction cs generalizing w with
  | nil => simp [words] at h
  | cons c cs ih =>
    unfold words at h
    split at h
    · exact ih h
    split at h
    · rcases List.mem_cons.1 h with rfl | h
      · simp
      · exact ih h
    split at h
    · rcases List.mem_singleton.1 h with rfl; simp
    · next hw =>
      rcases List.mem_cons.1 h with rfl | h
      · simp
      · exact ih (hw ▸ List.mem_cons_of_mem _ h)

/-- No word has a blank. -/
theorem not_isBlank_of_mem_words {cs w : List Char} (h : w ∈ words cs) {c : Char} (hc : c ∈ w) :
    isBlank c = false := by
  have : c ∈ (words cs).flatten := List.mem_flatten.2 ⟨w, h, hc⟩
  rw [flatten_words] at this
  simpa using (List.mem_filter.1 this).2

end ConsHeap.Text
