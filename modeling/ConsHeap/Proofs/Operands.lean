import ConsHeap.Operand

/-!
# Operands that can be written down

What is written in the place of a value is a name or an atom. So a program gets at objects and conses by
names only.

* `Value.IsAtom`: the values that are neither objects nor conses.
* `Operand.Plain`: names and atoms.
* `Operand.Plain.value?_cases`: a plain operand is an atom, or what is under a name, if there is something.
-/

namespace ConsHeap

/-- A value that is neither an object nor a cons. -/
def Value.IsAtom : Value → Prop
  | .object .. | .cons .. => False
  | _ => True

theorem Value.IsAtom.handles {v : Value} (h : v.IsAtom) : v.handles = [] := by
  cases v with
  | object | cons => exact h.elim
  | _ => rfl

theorem Value.IsAtom.object? {v : Value} (h : v.IsAtom) : v.object? = none := by
  cases v with
  | object => exact h.elim
  | _ => rfl

theorem Value.object?_of_isCons {v : Value} (h : v.isCons = true) : v.object? = none := by
  cases v with
  | cons tag handle => rfl
  | _ => cases h

/-- An operand that can be written down. -/
def Operand.Plain : Operand → Prop
  | .literal v => v.IsAtom
  | .named _ => True

@[simp] theorem Operand.plain_nil : (Operand.literal .nil).Plain := trivial

@[simp] theorem Operand.plain_named (name : String) : (Operand.named name).Plain := trivial

/-- A plain operand is an atom, or what is under a name, if there is something. -/
theorem Operand.Plain.value?_cases {x : Operand} (h : x.Plain) (names : Names Value) :
    (∃ name, x.value? names = .error name) ∨
      ∃ v, x.value? names = .ok v ∧ (v.IsAtom ∨ ∃ name, names.find? name = some v) := by
  cases x with
  | literal v => exact .inr ⟨v, rfl, .inl h⟩
  | named name =>
    rw [value?]
    cases hfind : names.find? name with
    | none => exact .inl ⟨name, rfl⟩
    | some v => exact .inr ⟨v, rfl, .inr ⟨name, hfind⟩⟩

end ConsHeap
