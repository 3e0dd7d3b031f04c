/-!
# Names

Things under names, in the order of the names. Names are ordered by code points.

* `Names.find?`, `Names.insert`, `Names.erase`: look up, bind and unbind. What is found after a
  name was bound or unbound is said by `find?_insert` and `find?_erase`.
* `Names.keep`: only the things that pass a test.
-/

namespace ConsHeap

/-- Pairs of a name and a thing, in rising order of the names. -/
structure Names (α : Type) where
  entries : List (String × α)
  deriving Inhabited

namespace Names

variable {α : Type}

/-- No names. -/
def empty : Names α := ⟨[]⟩

/-- What is under a name. -/
def find? (names : Names α) (key : String) : Option α := names.entries.lookup key

/-- The entries with one added, or put in the place of the one of the same name. -/
def insertInto (key : String) (a : α) : List (String × α) → List (String × α)
  | [] => [(key, a)]
  | (k, b) :: rest =>
    if key < k then (key, a) :: (k, b) :: rest
    else if key = k then (key, a) :: rest
    else (k, b) :: insertInto key a rest

/-- Bind a name. What was under it is lost. -/
def insert (names : Names α) (key : String) (a : α) : Names α :=
  ⟨insertInto key a names.entries⟩

/-- Looking up in a list of entries after one was added. -/
theorem lookup_insertInto (entries : List (String × α)) (key k : String) (a : α) :
    (insertInto key a entries).lookup k = if k = key then some a else entries.lookup k := by
  induction entries with
  | nil => by_cases h : k = key <;> simp [insertInto, List.lookup_cons, h, beq_false_of_ne]
  | cons e rest ih =>
    obtain ⟨j, b⟩ := e
    unfold insertInto
    by_cases h : k = key <;> by_cases hk : k = j <;> split <;> try split
    all_goals simp_all [List.lookup_cons, beq_false_of_ne]

/-- Binding a name changes what is under it and nothing else. -/
@[simp] theorem find?_insert (names : Names α) (key k : String) (a : α) :
    (names.insert key a).find? k = if k = key then some a else names.find? k :=
  lookup_insertInto names.entries key k a

/-- Unbind a name. -/
def erase (names : Names α) (key : String) : Names α :=
  ⟨names.entries.filter fun (k, _) => k ≠ key⟩

/-- Unbinding a name leaves nothing under it and changes nothing else. -/
@[simp] theorem find?_erase (names : Names α) (key k : String) :
    (names.erase key).find? k = if k = key then none else names.find? k := by
  obtain ⟨entries⟩ := names
  simp only [find?, erase]
  induction entries with
  | nil => simp
  | cons e rest ih =>
    obtain ⟨j, b⟩ := e
    by_cases hj : j = key
    · subst hj
      rw [List.filter_cons_of_neg (by simp), ih]
      by_cases hk : k = j <;> simp [List.lookup_cons, hk, beq_false_of_ne]
    · rw [List.filter_cons_of_pos (by simpa using hj)]
      by_cases hk : k = j
      · subst hk; simp [hj]
      · simp only [List.lookup_cons, beq_false_of_ne hk, ih]

/-- The names whose things pass a test. -/
def keep (names : Names α) (test : α → Bool) : Names α :=
  ⟨names.entries.filter fun (_, a) => test a⟩

/-- The names, in order. -/
def keys (names : Names α) : List String := names.entries.map (·.1)

/-- The things, in the order of their names. -/
def values (names : Names α) : List α := names.entries.map (·.2)

end Names

end ConsHeap
