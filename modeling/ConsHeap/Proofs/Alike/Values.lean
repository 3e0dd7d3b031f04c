import ConsHeap.Proofs.Operands
import ConsHeap.Cell
import Mathlib.Data.List.Forall2

/-!
# Values up to the places of cells

Where a cell lies depends on the sizes of pages, and on nothing else. Two values are alike when they differ in the
locations of conses only, and these go together.

* `Renaming`: which locations go together, heap by heap.
* `Handle.Alike`, `Value.Alike`, `Cell.Alike`: the same up to a renaming.
* `Value.outline`: a value without the handles in it. Whatever does not ask where a cell lies can be read off it.
* `Value.Alike.cases`: alike values are the same atom, one object, or conses that go together.
* `Body.Alike`: the same for what objects hold.
-/

namespace ConsHeap

/-- Which locations of two heaps go together, by the identity of the heaps. -/
def Renaming : Type := UInt32 → Location → Location → Prop

namespace Renaming

variable {M N K : Renaming} {n : UInt32}

/-- No locations go together. -/
def none : Renaming := fun _ _ _ => False

/-- Every location has one counterpart at most, on either side. -/
def OneToOne (M : Renaming) : Prop := ∀ n l m l' m', M n l m → M n l' m' → (l = l' ↔ m = m')

/-- The renaming from the other side. -/
def flip (M : Renaming) : Renaming := fun n l m => M n m l

/-- What goes together still does. -/
def Le (M N : Renaming) : Prop := ∀ n l m, M n l m → N n l m

/-- More locations of heap `n` go together, and nothing else changes. -/
structure Grows (n : UInt32) (M N : Renaming) : Prop where
  le : M.Le N
  same : ∀ k, k ≠ n → N k = M k

theorem Le.refl (M : Renaming) : M.Le M := fun _ _ _ h => h

theorem Le.trans (h : M.Le N) (h' : N.Le K) : M.Le K := fun n l m hM => h' n l m (h n l m hM)

theorem Le.flip (h : M.Le N) : M.flip.Le N.flip := fun n l m hM => h n m l hM

theorem Grows.refl (n : UInt32) (M : Renaming) : Grows n M M := ⟨.refl M, fun _ _ => rfl⟩

theorem Grows.trans (h : Grows n M N) (h' : Grows n N K) : Grows n M K :=
  ⟨h.le.trans h'.le, fun k hk => (h'.same k hk).trans (h.same k hk)⟩

end Renaming

variable {M N : Renaming}

/-! ## Handles -/

/-- Handles of one heap and generation, for locations that go together. -/
structure Handle.Alike (M : Renaming) (k k' : Handle) : Prop where
  heap : k.heap = k'.heap
  generation : k.generation = k'.generation
  location : M k.heap k.location k'.location

theorem Handle.Alike.mono {k k' : Handle} (h : k.Alike M k') (hle : M.Le N) : k.Alike N k' :=
  ⟨h.heap, h.generation, hle _ _ _ h.location⟩

/-- Handles are equal when those that they go together with are. -/
theorem Handle.Alike.eq_iff {k k' j j' : Handle} (hM : M.OneToOne) (hk : k.Alike M k') (hj : j.Alike M j') :
    k = j ↔ k' = j' := by
  obtain ⟨heap, l, generation⟩ := k
  obtain ⟨heap₁, l₁, generation₁⟩ := j
  obtain ⟨_, m, _⟩ := k'
  obtain ⟨_, m₁, _⟩ := j'
  obtain ⟨rfl, rfl, hlm⟩ := hk
  obtain ⟨rfl, rfl, hlm₁⟩ := hj
  simp only [Handle.mk.injEq]
  refine and_congr_right fun hheap => and_congr_left fun _ => ?_
  obtain rfl : heap = heap₁ := hheap
  exact hM _ _ _ _ _ hlm hlm₁

theorem Handle.Alike.symm {k k' : Handle} (h : k.Alike M k') : k'.Alike M.flip k := by
  refine ⟨h.heap.symm, h.generation.symm, ?_⟩
  rw [← h.heap]
  exact h.location

/-! ## Outlines -/

mutual

/-- A value without the handles in it. -/
def Value.outline : Value → Value
  | .cons tag _ => .cons tag default
  | .object header body => .object header (outlineIn body)
  | v => v

/-- A body without the handles in it. -/
def Value.outlineIn : Body Value → Body Value
  | .closure arity code captured => .closure arity code (outlineOf captured)
  | body => body

/-- Values without the handles in them. -/
def Value.outlineOf : List Value → List Value
  | [] => []
  | v :: vs => v.outline :: outlineOf vs

end

namespace Value

variable {v w : Value} {header : Header} {b c : Body Value}

@[simp] theorem outlineOf_eq_map (vs : List Value) : outlineOf vs = vs.map outline := by
  induction vs with
  | nil => simp [outlineOf]
  | cons v vs ih => simp [outlineOf, ih]

@[simp] theorem summary_outlineIn (b : Body Value) : (outlineIn b).summary = b.summary := by
  cases b <;> simp [outlineIn, Body.summary]

@[simp] theorem shownObject_outlineIn (header : Header) (b : Body Value) :
    shownObject header (outlineIn b) = shownObject header b := by
  cases b <;> simp [outlineIn, shownObject]

@[simp] theorem isCons_outline (v : Value) : v.outline.isCons = v.isCons := by
  cases v <;> simp [outline, isCons]

/-- Values that are not both conses are told apart without regard to handles. -/
theorem same_outline (h : ¬(v.isCons = true ∧ w.isCons = true)) : v.outline.same w.outline = v.same w := by
  cases v <;> cases w <;> simp_all [outline, same, isCons]

/-- The same value, up to a renaming. -/
structure Alike (M : Renaming) (v w : Value) : Prop where
  outline : v.outline = w.outline
  handles : List.Forall₂ (Handle.Alike M) v.handles w.handles

namespace Alike

theorem mono (h : v.Alike M w) (hle : M.Le N) : v.Alike N w :=
  ⟨h.outline, h.handles.imp fun _ _ hk => hk.mono hle⟩

theorem symm (h : v.Alike M w) : w.Alike M.flip v := by
  have hhandles : List.Forall₂ (fun k k' => Handle.Alike M.flip k' k) v.handles w.handles :=
    h.handles.imp fun _ _ hk => hk.symm
  exact ⟨h.outline.symm, hhandles.flip⟩

theorem cons {k k' : Handle} (hk : k.Alike M k') (tag : Tag) : (Value.cons tag k).Alike M (.cons tag k') := by
  refine ⟨by rw [Value.outline, Value.outline], ?_⟩
  rw [Value.handles, Value.handles]
  exact .cons hk .nil

/-- An atom is like itself. -/
theorem atom (hv : v.IsAtom) : v.Alike M v := by
  refine ⟨rfl, ?_⟩
  rw [hv.handles]
  exact .nil

/-- Alike values are the same atom, one object, or conses that go together. -/
theorem cases (h : v.Alike M w) :
    (v = w ∧ v.IsAtom) ∨ (∃ header b c, v = .object header b ∧ w = .object header c ∧ outlineIn b = outlineIn c) ∨
      ∃ tag k k', v = .cons tag k ∧ w = .cons tag k' ∧ k.Alike M k' := by
  obtain ⟨houtline, hhandles⟩ := h
  cases v <;> cases w <;> simp only [Value.outline, reduceCtorEq] at houtline
  case cons tag k tag' k' =>
    cases houtline
    rw [Value.handles, Value.handles] at hhandles
    exact .inr (.inr ⟨tag, k, k', rfl, rfl, (List.forall₂_cons.1 hhandles).1⟩)
  case object header b header' c =>
    obtain ⟨rfl, hbody⟩ := Value.object.inj houtline
    exact .inr (.inl ⟨header, b, c, rfl, rfl, hbody⟩)
  case nil => exact .inl ⟨rfl, trivial⟩
  all_goals exact .inl ⟨houtline, trivial⟩

/-- What is like a cons is one. -/
theorem exists_handles (h : v.Alike M w) (hcons : v.isCons = true) :
    ∃ tag k k', v = .cons tag k ∧ w = .cons tag k' ∧ k.Alike M k' := by
  rcases h.cases with ⟨-, hatom⟩ | ⟨_, _, _, rfl, -, -⟩ | hk
  · cases v with
    | cons => cases hatom
    | _ => cases hcons
  · cases hcons
  · exact hk

theorem isCons (h : v.Alike M w) : v.isCons = w.isCons := by
  rw [← isCons_outline v, h.outline, isCons_outline]

/-- Identity is the same, since no two locations go together with one. -/
theorem same {v' w' : Value} (hM : M.OneToOne) (hv : v.Alike M v') (hw : w.Alike M w') : v.same w = v'.same w' := by
  by_cases hcons : v.isCons = true ∧ w.isCons = true
  · obtain ⟨tag, k, k', rfl, rfl, hk⟩ := hv.exists_handles hcons.1
    obtain ⟨tag₁, j, j', rfl, rfl, hj⟩ := hw.exists_handles hcons.2
    have heq : (k == j) = (k' == j') := by
      rw [Bool.eq_iff_iff, beq_iff_eq, beq_iff_eq]
      exact hk.eq_iff hM hj
    rw [Value.same, Value.same, heq]
  · have hcons' : ¬(v'.isCons = true ∧ w'.isCons = true) := by
      rw [← hv.isCons, ← hw.isCons]
      exact hcons
    rw [← same_outline hcons, hv.outline, hw.outline, same_outline hcons']

end Alike

end Value

/-! ## Bodies -/

/-- The same body, up to a renaming. -/
structure Body.Alike (M : Renaming) (b c : Body Value) : Prop where
  outline : Value.outlineIn b = Value.outlineIn c
  handles : List.Forall₂ (Handle.Alike M) (Value.handlesIn b) (Value.handlesIn c)

namespace Body.Alike

variable {b c : Body Value}

theorem object (h : b.Alike M c) (header : Header) : (Value.object header b).Alike M (.object header c) := by
  refine ⟨by rw [Value.outline, Value.outline, h.outline], ?_⟩
  rw [Value.handles, Value.handles]
  exact h.handles

/-- A body that holds no values is like itself. -/
theorem refl (hb : b.values = []) : b.Alike M b := by
  refine ⟨rfl, ?_⟩
  cases b with
  | closure arity code captured =>
    obtain rfl : captured = [] := hb
    simp [Value.handlesIn]
  | _ => simp [Value.handlesIn]

theorem closure (arity : UInt8) (code : List UInt8) {vs ws : List Value} (h : List.Forall₂ (Value.Alike M) vs ws) :
    (Body.closure arity code vs).Alike M (.closure arity code ws) := by
  constructor
  · have hmap : vs.map Value.outline = ws.map Value.outline := by
      induction h with
      | nil => rfl
      | cons hv _ ih => rw [List.map_cons, List.map_cons, hv.outline, ih]
    simp only [Value.outlineIn, Value.outlineOf_eq_map, hmap]
  · simp only [Value.handlesIn, Value.handlesOf_eq_flatMap]
    induction h with
    | nil => exact .nil
    | cons hv _ ih =>
      rw [List.flatMap_cons, List.flatMap_cons]
      exact List.rel_append hv.handles ih

end Body.Alike

end ConsHeap
