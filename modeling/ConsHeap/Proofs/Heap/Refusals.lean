import ConsHeap.Memory.Operation

/-!
# Reasons for a refusal

* `Operation.subject?`: the value that has to be a live cons.
* `Heap.Refuses`: why a heap refuses an operation. The reasons are those of the error that is reported.
* `Heap.Refuses.of_live`: the reasons that lie in the value that has to be a live cons.
* `Heap.Refuses.of_accepts`: the reasons that are ruled out by values that may be stored.
-/

namespace ConsHeap

/-- The value of an operation that has to be a live cons. -/
def Operation.subject? {α : Type} : Operation α → Option α
  | root x | unroot x | shade x | setChild _ x _ => some x
  | _ => none

theorem Operation.mem_operands_of_subject? {α : Type} {op : Operation α} {x : α}
    (h : op.subject? = some x) : x ∈ op.operands := by
  cases op <;> simp_all [subject?, operands]

namespace Heap

/-- Why a heap refuses an operation. -/
inductive Refuses (h : Heap) : Operation Value → HeapError → Prop where
  /-- There is no page to be had. -/
  | memory {op : Operation Value} {e : HeapError} : e.isAllocation = true → Refuses h op e
  | consTag {tag : Tag} {car cdr : Value} :
    tag.family ≠ some .cons → Refuses h (.cons tag car cdr) (.wrongType .consTag tag)
  | rootTag {tag : Tag} {car cdr : Value} :
    tag.family ≠ some .cons → Refuses h (.rootedCons tag car cdr) (.wrongType .consTag tag)
  /-- One of the values may not be stored in this heap. -/
  | foreign {op : Operation Value} {x : Value} :
    x ∈ op.operands → h.accepts x = false → Refuses h op .foreign
  | noCons {op : Operation Value} {x : Value} :
    op.subject? = some x → x.isCons = false → Refuses h op (.wrongType .cons x.tag)
  | notRooted {x : Value} : Refuses h (.unroot x) .notRooted
  /-- A cell is grey. -/
  | unscanned : h.isScanned = false → Refuses h .sweep .unscanned

variable {h : Heap} {x : Value} {e : HeapError} {op : Operation Value}

/-- A value that is no live cons is something else, or stands for a cell that is dead or elsewhere. -/
theorem live_error (hx : h.live x = .error e) :
    x.isCons = false ∧ e = .wrongType .cons x.tag ∨ h.accepts x = false ∧ e = .foreign := by
  cases x with
  | cons tag handle =>
    rw [live, Value.handle?] at hx
    cases hr : h.resolve handle with
    | none =>
      simp only [hr, Except.error.injEq] at hx
      exact .inr ⟨by simp [accepts, Value.handles, hr], hx.symm⟩
    | some l => simp [hr] at hx
  | _ =>
    simp only [live, Value.handle?, Except.error.injEq] at hx
    exact .inl ⟨rfl, hx.symm⟩

theorem Refuses.of_live (hop : op.subject? = some x) (hx : h.live x = .error e) : h.Refuses op e := by
  rcases live_error hx with ⟨hcons, rfl⟩ | ⟨hno, rfl⟩
  · exact .noCons hop hcons
  · exact .foreign (Operation.mem_operands_of_subject? hop) hno

/-- What speaks against a list speaks against a longer one. -/
theorem Refuses.of_suffix {items : List Value} (hr : h.Refuses (.list items) e) (start : List Value) :
    h.Refuses (.list (start ++ items)) e := by
  cases hr with
  | memory halloc => exact .memory halloc
  | foreign hmem hno => exact .foreign (List.mem_append_right start hmem) hno
  | noCons hsub => cases hsub

/-- What speaks against the cell for an item of a list, when those after it are listed as `tail`, speaks
against the list. -/
theorem Refuses.of_item {g : Heap} {rest : List Value} {item tail : Value}
    (hr : g.Refuses (.cons .cons item tail) e) (hitem : h.accepts item → g.accepts item)
    (htail : g.accepts tail) : h.Refuses (.list (item :: rest)) e := by
  cases hr with
  | memory halloc => exact .memory halloc
  | consTag htag => exact absurd rfl htag
  | @foreign _ x hmem hno =>
    simp only [Operation.operands, List.mem_cons, List.not_mem_nil, or_false] at hmem
    rcases hmem with rfl | rfl
    · refine .foreign List.mem_cons_self ?_
      rw [← Bool.not_eq_true] at hno ⊢
      exact mt hitem hno
    · rw [htail] at hno
      cases hno
  | noCons hsub => cases hsub

/-- A heap that may store the values of an operation does not refuse it because of a handle, and never
because of its tables. -/
theorem Refuses.of_accepts (hr : h.Refuses op e) (hops : ∀ x ∈ op.operands, h.accepts x) :
    e ≠ .foreign ∧ ∀ reason, e ≠ .corrupt reason := by
  cases hr with
  | memory halloc => cases e <;> simp_all [HeapError.isAllocation]
  | foreign hmem hno =>
    rw [hops _ hmem] at hno
    cases hno
  | consTag | rootTag | noCons | notRooted | unscanned => simp

end Heap

end ConsHeap
