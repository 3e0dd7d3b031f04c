import ConsHeap.Proofs.View.Directory

/-!
# Ages

The age of storage is how often it was taken into use. Its generation is its age modulo `2 ^ 32`, so
a new handle differs from all handles that were issued before while no age exceeds `2 ^ 32`.

* `View.births`, `View.age`: storage that is taken into use gets older by one.
* `View.Aged`: generations are ages.
* `View.past`: the handles that may have been issued.
* `View.Creates.aged`, `View.Lists.aged`: generations are ages after a cell or a list was made.
* `View.Creates.not_mem_past`: **the handle of a new cell was never issued.**
-/

namespace ConsHeap.View

variable {v w u g : View} {l m : Location} {handle : Handle} {b : Location → Nat} {n : Nat}

/-- One where a cell comes to life, and zero elsewhere. -/
def births (v w : View) (l : Location) : Nat := if v.color l = none ∧ w.color l ≠ none then 1 else 0

/-- The ages in a view, given those in an earlier one. -/
def age (v w : View) (b : Location → Nat) (l : Location) : Nat := b l + v.births w l

/-- Storage has the generation of its age, and storage in use was taken into use. -/
structure Aged (v : View) (b : Location → Nat) : Prop where
  generation : ∀ l, v.generation l = UInt32.ofNat (b l)
  used : ∀ {l}, v.color l ≠ none → 1 ≤ b l

/-- The handles of heap `id` whose generations the storage has had by its age. -/
def past (id : UInt32) (b : Location → Nat) : Set Handle :=
  {handle | handle.heap = id ∧
    ∃ k, 1 ≤ k ∧ k ≤ b handle.location ∧ handle.generation = UInt32.ofNat k}

/-! ## Getting older -/

theorem births_le_one (v w : View) (l : Location) : v.births w l ≤ 1 := by
  rw [births]
  split <;> omega

theorem le_age (v w : View) (b : Location → Nat) (l : Location) : b l ≤ v.age w b l :=
  Nat.le_add_right _ _

/-- Where no cell comes to life, nothing gets older. -/
theorem age_eq_self (h : ∀ l, w.color l ≠ none → v.color l ≠ none) : v.age w b = b := by
  funext l
  rw [age, births, if_neg fun hl => h l hl.2 hl.1, Nat.add_zero]

/-- Ages depend on what cells live. -/
theorem age_congr (h : ∀ l, u.color l ≠ none ↔ w.color l ≠ none) : v.age u b = v.age w b := by
  funext l
  simp only [age, births, h l]

/-- Where no cell dies in between, ages add up. -/
theorem age_age (hvw : ∀ l, v.color l ≠ none → w.color l ≠ none)
    (hwu : ∀ l, w.color l ≠ none → u.color l ≠ none) : w.age u (v.age w b) = v.age u b := by
  funext l
  have hvw := hvw l
  have hwu := hwu l
  simp only [age, births]
  by_cases hv : v.color l = none
  · by_cases hw : w.color l = none
    · simp [hv, hw]
    · simp [hv, hw, hwu hw]
  · simp [hv, hvw hv]

/-! ## Handles that were issued -/

theorem past_mono {id : UInt32} {b' : Location → Nat} (h : ∀ l, b l ≤ b' l) : past id b ⊆ past id b' := by
  rintro handle ⟨hid, k, hpos, hle, hgen⟩
  exact ⟨hid, k, hpos, hle.trans (h _), hgen⟩

/-- A handle that stands for something was issued. -/
theorem Aged.handles_subset (h : v.Aged b) : v.directory.handles ⊆ past v.id b := by
  intro handle hmem
  cases hres : v.resolve handle with
  | none => exact absurd (directory_of_not_resolve hres) hmem
  | some l =>
    obtain ⟨hid, rfl, hlive, c, hc, hgen⟩ := resolve_eq_some_iff.1 hres
    refine ⟨hid, _, h.used (live_of_resolve hres), Nat.le_refl _, ?_⟩
    rw [← h.generation, View.generation, hc, Option.elim_some, hgen]

/-- Generations do not repeat up to an age of `2 ^ 32`. -/
theorem ofNat_ne_of_lt {j k : Nat} (hpos : 1 ≤ j) (hlt : j < k) (hle : k ≤ UInt32.size) :
    UInt32.ofNat j ≠ UInt32.ofNat k := by
  intro heq
  have hmod := congrArg UInt32.toNat heq
  rw [UInt32.toNat_ofNat', UInt32.toNat_ofNat'] at hmod
  simp only [UInt32.size] at hle
  omega

/-! ## Changes -/

/-- Ages stay where generations do and no cell comes to life. -/
theorem Aged.keep (h : v.Aged b) (hgen : w.generation = v.generation)
    (hlive : ∀ l, w.color l ≠ none → v.color l ≠ none) : w.Aged (v.age w b) := by
  rw [age_eq_self hlive]
  constructor
  · intro l
    rw [hgen, h.generation]
  · intro l hl
    exact h.used (hlive l hl)

/-- Ages depend on generations and on what cells live. -/
theorem Aged.congr (h : w.Aged (v.age w b)) (hgen : u.generation = w.generation)
    (hlive : ∀ l, u.color l ≠ none ↔ w.color l ≠ none) : u.Aged (v.age u b) := by
  rw [age_congr hlive]
  constructor
  · intro l
    rw [hgen, h.generation]
  · intro l hl
    exact h.used ((hlive l).1 hl)

theorem generation_congr (h : w.contents = v.contents) : w.generation = v.generation := by
  funext l
  rw [generation, generation, h]

section Creates

variable {tag : Tag} {car cdr : Value}

/-- Live cells stay when a cell is made. -/
theorem Creates.live (hc : v.Creates tag car cdr handle w) (hl : v.color l ≠ none) :
    w.color l ≠ none := by
  obtain @⟨g, k, d, hg, hdead, -⟩ := hc
  rw [← hg.color] at hl
  have hlk : l ≠ k := by
    rintro rfl
    exact hl hdead
  rwa [show (g.fill k (d.renew tag car cdr)).color l = g.color l from Function.update_of_ne hlk _ _]

/-- Only the storage of the new cell gets older. -/
theorem Creates.age (hc : v.Creates tag car cdr handle w) :
    v.age w b = Function.update b handle.location (b handle.location + 1) := by
  obtain @⟨g, k, d, hg, hdead, -⟩ := hc
  funext l
  by_cases hlk : l = k
  · subst hlk
    have hborn : (g.fill l (d.renew tag car cdr)).color l = some .white := Function.update_self ..
    rw [hg.color] at hdead
    simp [View.age, births, hdead, hborn]
  · have hcolor : (g.fill k (d.renew tag car cdr)).color l = v.color l :=
      (Function.update_of_ne hlk _ _).trans (congrFun hg.color l)
    rw [Function.update_of_ne hlk]
    simp [View.age, births, hcolor]

/-- The generation of a new handle is the age of its storage. -/
theorem Creates.generation (hc : v.Creates tag car cdr handle w) (h : v.Aged b) :
    handle.generation = UInt32.ofNat (b handle.location + 1) := by
  obtain @⟨g, k, d, hg, hdead, hd⟩ := hc
  have hgen : d.generation = UInt32.ofNat (b k) := by
    rw [← h.generation, ← hg.generation, View.generation, hd, Option.elim_some]
  rw [UInt32.ofNat_add, ← hgen]
  rfl

theorem Creates.aged (hc : v.Creates tag car cdr handle w) (h : v.Aged b) : w.Aged (v.age w b) := by
  have hgen := hc.generation h
  rw [hc.age]
  -- the new cell by its own generation, and the others as before
  obtain @⟨g, k, d, hg, hdead, hd⟩ := hc
  constructor
  · intro l
    by_cases hlk : l = k
    · subst hlk
      rw [Function.update_self, View.generation,
        show (g.fill l (d.renew tag car cdr)).contents l = some _ from Function.update_self ..]
      exact hgen
    · rw [Function.update_of_ne hlk, ← h.generation, ← hg.generation, View.generation, View.generation,
        show (g.fill k (d.renew tag car cdr)).contents l = g.contents l from
          Function.update_of_ne hlk _ _]
  · intro l hl
    by_cases hlk : l = k
    · subst hlk
      rw [Function.update_self]
      omega
    · rw [Function.update_of_ne hlk]
      refine h.used ?_
      rwa [show (g.fill k (d.renew tag car cdr)).color l = g.color l from
        Function.update_of_ne hlk _ _, hg.color] at hl

/-- **The handle of a new cell was never issued.** -/
theorem Creates.not_mem_past (hc : v.Creates tag car cdr handle w) (h : v.Aged b)
    (hage : v.age w b handle.location ≤ UInt32.size) : handle ∉ past v.id b := by
  rintro ⟨-, k, hpos, hle, hgen⟩
  rw [hc.age, Function.update_self] at hage
  rw [hc.generation h] at hgen
  exact ofNat_ne_of_lt hpos (Nat.lt_succ_of_le hle) hage hgen.symm

end Creates

section Lists

variable {items : List Value} {x : Value}

theorem Lists.id (hl : v.Lists items x w) : w.id = v.id := by
  induction hl with
  | nil => rfl
  | cons _ _ _ hc ih => exact hc.id.trans ih

theorem Lists.live (hl : v.Lists items x w) (hlive : v.color l ≠ none) : w.color l ≠ none := by
  induction hl with
  | nil => exact hlive
  | cons _ _ _ hc ih => exact hc.live ih

theorem Lists.counted (hl : v.Lists items x w) (h : v.Counted) : w.Counted := by
  induction hl with
  | nil => exact h
  | cons _ _ _ hc ih => exact hc.counted ih

theorem Lists.aged (hl : v.Lists items x w) (h : v.Aged b) : w.Aged (v.age w b) := by
  induction hl with
  | nil => exact h.keep rfl fun _ hlive => hlive
  | cons hl _ _ hc ih =>
    rw [← age_age (fun _ => hl.live) fun _ => hc.live]
    exact hc.aged ih

end Lists

end ConsHeap.View
