import ConsHeap.Failure

/-!
# How actions end

An action of `EStateM` ends in an answer or in a failure, each with the state at that point. The
lemmas here open an action one step at a time, so that a proof about an operation follows its text.

* `bind_ok`, `bind_error`: the first step of a sequence is done.
* `exists_of_bind_eq_ok`, `exists_of_map_eq_ok`: an answer taken apart into those that led to it.
* `bind_congr_ok`: what follows a first step starts where that step answered.
* `expect_ok`, `minus_ok`: a promise that is kept.
* `Outcome.state`, `Outcome.answer`: the state an action leaves, whether it failed or not, and what
  it answers.
-/

namespace ConsHeap

variable {ε σ α β : Type}

/-- The state in which an action ended. -/
def Outcome.state : EStateM.Result ε σ α → σ
  | .ok _ s => s
  | .error _ s => s

/-- What an action answered, or why it failed. -/
def Outcome.answer : EStateM.Result ε σ α → Except ε α
  | .ok a _ => .ok a
  | .error e _ => .error e

/-- An outcome is a failure with a state when that is what it answers. -/
theorem Outcome.eq_error {x : EStateM.Result ε σ α} {e : ε} (h : Outcome.answer x = .error e) :
    x = .error e (Outcome.state x) := by
  cases x with
  | ok a s => cases h
  | error e' s =>
    cases h
    rfl

/-- A first step that answers hands its answer and its state on. -/
theorem bind_ok {x : EStateM ε σ α} {f : α → EStateM ε σ β} {s t : σ} {a : α}
    (h : x s = .ok a t) : (x >>= f) s = f a t := by
  show EStateM.bind x f s = _
  rw [EStateM.bind, h]

/-- A first step that fails ends the sequence. -/
theorem bind_error {x : EStateM ε σ α} {f : α → EStateM ε σ β} {s t : σ} {e : ε}
    (h : x s = .error e t) : (x >>= f) s = .error e t := by
  show EStateM.bind x f s = _
  rw [EStateM.bind, h]

/-- A sequence that answers has a first step that answered. -/
theorem exists_of_bind_eq_ok {x : EStateM ε σ α} {f : α → EStateM ε σ β} {s u : σ} {b : β}
    (h : (x >>= f) s = .ok b u) : ∃ a t, x s = .ok a t ∧ f a t = .ok b u := by
  cases hx : x s with
  | ok a t =>
    rw [bind_ok hx] at h
    exact ⟨a, t, rfl, h⟩
  | error e t =>
    rw [bind_error hx] at h
    cases h

/-- What follows a first step matters only for the answers that the step gives. -/
theorem bind_congr_ok {x : EStateM ε σ α} {f g : α → EStateM ε σ β} {s : σ}
    (h : ∀ a t, x s = .ok a t → f a t = g a t) : (x >>= f) s = (x >>= g) s := by
  cases hx : x s with
  | ok a t => rw [bind_ok hx, bind_ok hx, h a t hx]
  | error e t => rw [bind_error hx, bind_error hx]

theorem map_ok {x : EStateM ε σ α} {f : α → β} {s t : σ} {a : α} (h : x s = .ok a t) :
    (f <$> x) s = .ok (f a) t := by
  show EStateM.map f x s = _
  rw [EStateM.map, h]

theorem map_error {x : EStateM ε σ α} {f : α → β} {s t : σ} {e : ε} (h : x s = .error e t) :
    (f <$> x) s = .error e t := by
  show EStateM.map f x s = _
  rw [EStateM.map, h]

/-- What answers in another form has answered. -/
theorem exists_of_map_eq_ok {x : EStateM ε σ α} {f : α → β} {s t : σ} {b : β} (h : (f <$> x) s = .ok b t) :
    ∃ a, x s = .ok a t ∧ f a = b := by
  cases hx : x s with
  | ok a u =>
    rw [map_ok hx] at h
    cases h
    exact ⟨a, rfl, rfl⟩
  | error e u =>
    rw [map_error hx] at h
    cases h

/-- Another answer in place of an answer does not change the state. -/
theorem Outcome.state_map {x : EStateM ε σ α} {f : α → β} {s : σ} : state ((f <$> x) s) = state (x s) := by
  cases h : x s with
  | ok a t => rw [map_ok h, state, state]
  | error e t => rw [map_error h, state, state]

@[simp] theorem pure_apply (a : α) (s : σ) : (pure a : EStateM ε σ α) s = .ok a s := rfl

theorem bind_get {f : σ → EStateM ε σ β} {s : σ} : (get >>= f) s = f s s := rfl

theorem bind_modify {g : σ → σ} {f : PUnit → EStateM ε σ β} {s : σ} :
    (modify g >>= f) s = f ⟨⟩ (g s) := rfl

theorem modify_apply {g : σ → σ} {s : σ} : (modify g : EStateM ε σ PUnit) s = .ok ⟨⟩ (g s) := rfl

theorem tryCatch_ok {x : EStateM ε σ α} {f : ε → EStateM ε σ α} {s t : σ} {a : α}
    (h : x s = .ok a t) : (tryCatch x f) s = .ok a t := by
  show EStateM.tryCatch x f s = _
  delta EStateM.tryCatch
  simp only [h]

/-- What is done about a failure starts where the action failed. -/
theorem tryCatch_error {x : EStateM ε σ α} {f : ε → EStateM ε σ α} {s t : σ} {e : ε}
    (h : x s = .error e t) : (tryCatch x f) s = f e t := by
  show EStateM.tryCatch x f s = _
  delta EStateM.tryCatch
  simp only [h]
  rfl

theorem expect_ok {b : Bool} {c : Condition} {s : σ} (h : b = true) :
    (expect b c : EStateM (Failure ε) σ Unit) s = .ok () s := by
  rw [expect, if_pos h]
  rfl

theorem minus_ok {m n : Nat} {s : σ} (h : n ≤ m) :
    (minus m n : EStateM (Failure ε) σ Nat) s = .ok (m - n) s := by
  rw [minus, if_pos h]
  rfl

theorem answer_ok {x : Except ε α} {a : α} {s : σ} (h : x = .ok a) :
    (answer x : EStateM (Failure ε) σ α) s = .ok a s := by
  subst h
  rfl

theorem answer_error {x : Except ε α} {e : ε} {s : σ} (h : x = .error e) :
    (answer x : EStateM (Failure ε) σ α) s = .error (.error e) s := by
  subst h
  rfl

end ConsHeap
