import ConsHeap.Names
import Mathlib.Data.List.Forall2
import Mathlib.Data.String.Basic

/-!
# Names in order

* `Names.Sorted`: no name comes twice, and the names rise. Binding and dropping keep that.
* `Names.mem_entries_iff`: the entries are what is found under the names.
* `Names.values_insert_perm`, `Names.values_erase_perm`: the things that come and go as a name is bound or
  dropped.
* `Names.find?_keep`, `Names.values_keep`, `Names.mem_keys_keep`: what is left when only some things are kept.
* `Names.Matched`: the same names, with things under them that go together.
-/

namespace ConsHeap.Names

variable {α : Type} {names : Names α} {key k : String} {a : α} {test : α → Bool}

/-- No name comes twice, and the names rise. -/
def Sorted (names : Names α) : Prop := names.entries.Pairwise (·.1 < ·.1)

theorem sorted_empty : (empty : Names α).Sorted := List.Pairwise.nil

/-- The names that an added entry comes among are those that were there and its own. -/
theorem fst_of_mem_insertInto {entries : List (String × α)} {e : String × α}
    (h : e ∈ insertInto key a entries) : e.1 = key ∨ e ∈ entries := by
  induction entries with
  | nil =>
    rw [insertInto, List.mem_singleton] at h
    exact .inl (by rw [h])
  | cons d rest ih =>
    obtain ⟨j, b⟩ := d
    rw [insertInto] at h
    split at h
    · rcases List.mem_cons.1 h with rfl | h
      · exact .inl rfl
      · exact .inr h
    · split at h
      · rcases List.mem_cons.1 h with rfl | h
        · exact .inl rfl
        · exact .inr (List.mem_cons_of_mem _ h)
      · rcases List.mem_cons.1 h with rfl | h
        · exact .inr List.mem_cons_self
        · exact (ih h).imp_right (List.mem_cons_of_mem _)

/-- An entry that is added to rising names leaves them rising. -/
theorem pairwise_insertInto {entries : List (String × α)} (h : entries.Pairwise (·.1 < ·.1)) :
    (insertInto key a entries).Pairwise (·.1 < ·.1) := by
  induction entries with
  | nil => exact List.pairwise_singleton _ _
  | cons d rest ih =>
    obtain ⟨j, b⟩ := d
    obtain ⟨hfirst, hrest⟩ := List.pairwise_cons.1 h
    rw [insertInto]
    split
    · next hlt =>
      refine List.pairwise_cons.2 ⟨fun e he => ?_, h⟩
      rcases List.mem_cons.1 he with rfl | he
      · exact hlt
      · exact lt_trans hlt (hfirst e he)
    · next hge =>
      split
      · next heq =>
        subst heq
        exact List.pairwise_cons.2 ⟨hfirst, hrest⟩
      · next hne =>
        have hlt : j < key := lt_of_le_of_ne (not_lt.1 hge) (Ne.symm hne)
        refine List.pairwise_cons.2 ⟨fun e he => ?_, ih hrest⟩
        rcases fst_of_mem_insertInto he with he | he
        · rw [he]
          exact hlt
        · exact hfirst e he

theorem Sorted.insert (h : names.Sorted) (key : String) (a : α) : (names.insert key a).Sorted :=
  pairwise_insertInto h

theorem Sorted.keep (h : names.Sorted) (test : α → Bool) : (names.keep test).Sorted :=
  List.Pairwise.filter _ h

theorem Sorted.keys (h : names.Sorted) : names.keys.Pairwise (· < ·) :=
  List.pairwise_map.2 h

theorem Sorted.erase (h : names.Sorted) (key : String) : (names.erase key).Sorted :=
  List.Pairwise.filter _ h

/-- The entries are what is found under the names. -/
theorem mem_entries_iff (h : names.Sorted) : (k, a) ∈ names.entries ↔ names.find? k = some a := by
  obtain ⟨entries⟩ := names
  simp only [find?, Sorted] at h ⊢
  induction entries with
  | nil => simp
  | cons e rest ih =>
    obtain ⟨j, b⟩ := e
    obtain ⟨hfirst, hrest⟩ := List.pairwise_cons.1 h
    by_cases hk : k = j
    · subst hk
      have hnot : ∀ c, (k, c) ∉ rest := fun c hc => lt_irrefl k (hfirst _ hc)
      simp [hnot, eq_comm]
    · simp [List.lookup_cons, hk, beq_false_of_ne hk, ih hrest]

theorem mem_values_of_find? (h : names.Sorted) (hfind : names.find? k = some a) : a ∈ names.values :=
  List.mem_map.2 ⟨_, (mem_entries_iff h).2 hfind, rfl⟩

/-- In rising names, nothing is under a name that is below all of them. -/
theorem lookup_eq_none_of_lt {entries : List (String × α)} (h : ∀ e ∈ entries, key < e.1) :
    entries.lookup key = none := by
  rw [List.lookup_eq_none_iff]
  exact fun e he => bne_iff_ne.2 (ne_of_lt (h e he))

/-- A thing comes in, and the one that was under its name goes. -/
theorem values_insert_perm (h : names.Sorted) (key : String) (a : α) :
    ((names.insert key a).values ++ (names.find? key).toList).Perm (a :: names.values) := by
  obtain ⟨entries⟩ := names
  simp only [values, insert, find?, Sorted] at h ⊢
  induction entries with
  | nil => simp [insertInto]
  | cons e rest ih =>
    obtain ⟨j, b⟩ := e
    obtain ⟨hfirst, hrest⟩ := List.pairwise_cons.1 h
    rw [insertInto]
    split
    · next hlt =>
      have hnone : ((j, b) :: rest).lookup key = none := by
        refine lookup_eq_none_of_lt fun e he => ?_
        rcases List.mem_cons.1 he with rfl | he
        · exact hlt
        · exact lt_trans hlt (hfirst e he)
      rw [hnone, Option.toList_none, List.append_nil, List.map_cons]
    · split
      · next heq =>
        subst heq
        rw [List.lookup_cons_self, Option.toList_some, List.map_cons, List.map_cons]
        exact (List.perm_append_singleton b _).cons a
      · next hne =>
        rw [List.lookup_cons, beq_false_of_ne hne, List.map_cons, List.map_cons, List.cons_append]
        exact ((ih hrest).cons b).trans (.swap ..)

/-- A thing goes when its name is dropped. -/
theorem values_erase_perm (h : names.Sorted) (key : String) :
    ((names.erase key).values ++ (names.find? key).toList).Perm names.values := by
  obtain ⟨entries⟩ := names
  simp only [values, erase, find?, Sorted] at h ⊢
  induction entries with
  | nil => simp
  | cons e rest ih =>
    obtain ⟨j, b⟩ := e
    obtain ⟨hfirst, hrest⟩ := List.pairwise_cons.1 h
    by_cases hj : j = key
    · subst hj
      have hall : rest.filter (fun x => x.1 ≠ j) = rest :=
        List.filter_eq_self.2 fun e he => by simpa using ne_of_gt (hfirst e he)
      rw [List.filter_cons_of_neg (by simp), hall, List.lookup_cons_self, Option.toList_some, List.map_cons]
      exact List.perm_append_singleton b _
    · rw [List.filter_cons_of_pos (by simpa using hj), List.lookup_cons, beq_false_of_ne (Ne.symm hj),
        List.map_cons, List.map_cons, List.cons_append]
      exact (ih hrest).cons b

/-- What passes the test is still under its name, and nothing else is. -/
theorem find?_keep (h : names.Sorted) (test : α → Bool) (k : String) :
    (names.keep test).find? k = (names.find? k).filter test := by
  ext a
  rw [← mem_entries_iff (h.keep test), keep, List.mem_filter, mem_entries_iff h, Option.filter_eq_some_iff]

/-- The things that are left pass the test. -/
theorem values_keep (names : Names α) (test : α → Bool) : (names.keep test).values = names.values.filter test := by
  rw [values, values, keep, List.filter_map]
  rfl

theorem mem_keys_keep (h : names.Sorted) :
    k ∈ (names.keep test).keys ↔ ∃ a, names.find? k = some a ∧ test a = true := by
  simp only [keys, keep, List.mem_map, List.mem_filter, Prod.exists]
  constructor
  · rintro ⟨j, a, ⟨hmem, ha⟩, rfl⟩
    exact ⟨a, (mem_entries_iff h).1 hmem, ha⟩
  · rintro ⟨a, hfind, ha⟩
    exact ⟨k, a, ⟨(mem_entries_iff h).2 hfind, ha⟩, rfl⟩

/-! ## The same names -/

section Matched

variable {β : Type} {R S : α → β → Prop} {names : Names α} {others : Names β} {a : α} {b : β}

/-- The same names, with things under them of which `R` holds. -/
def Matched (R : α → β → Prop) (names : Names α) (others : Names β) : Prop :=
  List.Forall₂ (fun e d => e.1 = d.1 ∧ R e.2 d.2) names.entries others.entries

theorem Matched.mono (h : names.Matched R others) (hRS : ∀ a b, R a b → S a b) : names.Matched S others :=
  h.imp fun _ _ he => ⟨he.1, hRS _ _ he.2⟩

/-- What is found under a name goes together, or nothing is found. -/
theorem Matched.find? (h : names.Matched R others) (key : String) :
    (names.find? key = none ∧ others.find? key = none) ∨
      ∃ a b, names.find? key = some a ∧ others.find? key = some b ∧ R a b := by
  obtain ⟨entries⟩ := names
  obtain ⟨entries'⟩ := others
  simp only [Matched] at h
  simp only [Names.find?]
  induction h with
  | nil => exact .inl ⟨rfl, rfl⟩
  | @cons e d _ _ he _ ih =>
    obtain ⟨k, a⟩ := e
    obtain ⟨j, b⟩ := d
    obtain ⟨rfl, hab⟩ := he
    by_cases hk : key = k
    · exact .inr ⟨a, b, by simp [hk], by simp [hk], hab⟩
    · simp only [List.lookup_cons, beq_false_of_ne hk]
      exact ih

theorem Matched.insert (h : names.Matched R others) (key : String) (hab : R a b) :
    (names.insert key a).Matched R (others.insert key b) := by
  obtain ⟨entries⟩ := names
  obtain ⟨entries'⟩ := others
  simp only [Matched] at h
  simp only [Matched, Names.insert]
  induction h with
  | nil => exact .cons ⟨rfl, hab⟩ .nil
  | @cons e d es ds he hrest ih =>
    obtain ⟨k, a'⟩ := e
    obtain ⟨j, b'⟩ := d
    obtain ⟨rfl, hab'⟩ := he
    simp only [insertInto]
    split
    · exact .cons ⟨rfl, hab⟩ (.cons ⟨rfl, hab'⟩ hrest)
    split
    · exact .cons ⟨rfl, hab⟩ hrest
    · exact .cons ⟨rfl, hab'⟩ ih

theorem Matched.erase (h : names.Matched R others) (key : String) :
    (names.erase key).Matched R (others.erase key) := by
  obtain ⟨entries⟩ := names
  obtain ⟨entries'⟩ := others
  simp only [Matched] at h
  simp only [Matched, Names.erase]
  induction h with
  | nil => exact .nil
  | @cons e d es ds he _ ih =>
    obtain ⟨k, a'⟩ := e
    obtain ⟨j, b'⟩ := d
    obtain ⟨rfl, hab'⟩ := he
    by_cases hk : k = key
    · rw [List.filter_cons_of_neg (by simpa using hk), List.filter_cons_of_neg (by simpa using hk)]
      exact ih
    · rw [List.filter_cons_of_pos (by simpa using hk), List.filter_cons_of_pos (by simpa using hk)]
      exact .cons ⟨rfl, hab'⟩ ih

end Matched

end ConsHeap.Names
