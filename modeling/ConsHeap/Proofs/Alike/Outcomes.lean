import ConsHeap.Proofs.Alike.Values
import ConsHeap.Proofs.Outcome

/-!
# Two runs side by side

Two actions are run, each from a state of its own. They agree when both answer and leave states that go together, or
both are refused for the same reason. Some reasons are excused: they end the comparison. So is every fault.

* `Failure.Excused`: the failures that end a comparison.
* `Agree`: the outcomes of two actions go together.
* `Agree.bind`, `Agree.expect`, `Agree.forM`: one rule for each way of putting actions together.
* `Answers`, `UnlessFault`: the same for answers without a state.
* `Onward`: outcomes that agree with more locations of a heap going together than before.
-/

namespace ConsHeap

/-- The errors of a heap that end a comparison: those for want of memory. -/
abbrev HeapError.Starved (e : HeapError) : Prop := e.isAllocation = true

/-- A fault, or an error that is excused. -/
def Failure.Excused {ε : Type} (E : ε → Prop) : Failure ε → Prop
  | .error e => E e
  | .fault _ => True

variable {ε σ α β γ δ : Type} {E : ε → Prop} {S S' : σ → σ → Prop} {P P' : α → σ → β → σ → Prop}
  {R : γ → σ → δ → σ → Prop} {s t : σ}

/-- Two outcomes go together: answers of which `P` holds, or one refusal with states of which `S` holds, or a failure
that is excused. -/
def Agree (E : ε → Prop) (S : σ → σ → Prop) (P : α → σ → β → σ → Prop) :
    EStateM.Result (Failure ε) σ α → EStateM.Result (Failure ε) σ β → Prop
  | .ok a s, .ok b t => P a s b t
  | .ok _ _, .error f _ => f.Excused E
  | .error e _, .ok _ _ => e.Excused E
  | .error e s, .error f t => e.Excused E ∨ f.Excused E ∨ e = f ∧ S s t

namespace Agree

/-- The same refusal on either side. -/
theorem refuse (e : ε) (h : S s t) :
    Agree E S P ((ConsHeap.refuse e : EStateM (Failure ε) σ α) s) ((ConsHeap.refuse e : EStateM (Failure ε) σ β) t) :=
  .inr (.inr ⟨rfl, h⟩)

/-- Faults need no reason. -/
theorem fault (f f' : Fault) :
    Agree E S P ((ConsHeap.fault f : EStateM (Failure ε) σ α) s) ((ConsHeap.fault f' : EStateM (Failure ε) σ β) t) :=
  .inl trivial

/-- A fault on one side ends the comparison. -/
theorem fault_left (f : Fault) (r : EStateM.Result (Failure ε) σ β) :
    Agree E S P ((ConsHeap.fault f : EStateM (Failure ε) σ α) s) r := by
  cases r with
  | ok b t => exact trivial
  | error e t => exact .inl trivial

theorem fault_right (f : Fault) (r : EStateM.Result (Failure ε) σ α) :
    Agree E S P r ((ConsHeap.fault f : EStateM (Failure ε) σ β) t) := by
  cases r with
  | ok b t => exact trivial
  | error e t => exact .inr (.inl trivial)

theorem weaken {r : EStateM.Result (Failure ε) σ α} {r' : EStateM.Result (Failure ε) σ β} (h : Agree E S P r r')
    (hS : ∀ s t, S s t → S' s t) (hP : ∀ a s b t, P a s b t → P' a s b t) : Agree E S' P' r r' := by
  cases r <;> cases r'
  · exact hP _ _ _ _ h
  · exact h
  · exact h
  · exact h.imp_right fun hr => hr.imp_right fun ⟨heq, hs⟩ => ⟨heq, hS _ _ hs⟩

theorem mono {r : EStateM.Result (Failure ε) σ α} {r' : EStateM.Result (Failure ε) σ β} (h : Agree E S P r r')
    (hP : ∀ a s b t, P a s b t → P' a s b t) : Agree E S P' r r' := h.weaken (fun _ _ => id) hP

/-- What each of the two does by itself holds as well. -/
theorem and {F : α → σ → Prop} {G : β → σ → Prop} {r : EStateM.Result (Failure ε) σ α}
    {r' : EStateM.Result (Failure ε) σ β} (h : Agree E S P r r') (hF : ∀ a s, r = .ok a s → F a s)
    (hG : ∀ b t, r' = .ok b t → G b t) : Agree E S (fun a s b t => P a s b t ∧ F a s ∧ G b t) r r' := by
  cases r <;> cases r'
  · exact ⟨h, hF _ _ rfl, hG _ _ rfl⟩
  · exact h
  · exact h
  · exact h

/-- What two actions leave alike is where the next ones start. -/
theorem bind {x : EStateM (Failure ε) σ α} {y : EStateM (Failure ε) σ β} {f : α → EStateM (Failure ε) σ γ}
    {g : β → EStateM (Failure ε) σ δ} (h : Agree E S P (x s) (y t))
    (hfg : ∀ a s' b t', P a s' b t' → Agree E S R (f a s') (g b t')) : Agree E S R ((x >>= f) s) ((y >>= g) t) := by
  cases hx : x s with
  | ok a s' =>
    cases hy : y t with
    | ok b t' =>
      rw [hx, hy] at h
      rw [bind_ok hx, bind_ok hy]
      exact hfg a s' b t' h
    | error e t' =>
      rw [hx, hy] at h
      rw [bind_ok hx, bind_error hy]
      cases f a s' with
      | ok c s'' => exact h
      | error e' s'' => exact .inr (.inl h)
  | error e s' =>
    cases hy : y t with
    | ok b t' =>
      rw [hx, hy] at h
      rw [bind_error hx, bind_ok hy]
      cases g b t' with
      | ok c t'' => exact h
      | error e' t'' => exact .inl h
    | error e' t' =>
      rw [hx, hy] at h
      rw [bind_error hx, bind_error hy]
      exact h

theorem map {x : EStateM (Failure ε) σ α} {y : EStateM (Failure ε) σ β} {f : α → γ} {g : β → δ}
    (h : Agree E S P (x s) (y t)) (hfg : ∀ a s' b t', P a s' b t' → R (f a) s' (g b) t') :
    Agree E S R ((f <$> x) s) ((g <$> y) t) := by
  rw [← bind_pure_comp, ← bind_pure_comp]
  exact h.bind fun a s' b t' hP => hfg a s' b t' hP

/-- A condition that fails on either side is a fault. -/
theorem expect (p q : Bool) (c : Condition) :
    Agree E S (fun _ s' _ t' => s' = s ∧ t' = t ∧ p = true ∧ q = true) (ConsHeap.expect p c s)
      (ConsHeap.expect q c t) := by
  cases p with
  | false => exact fault_left ..
  | true =>
    cases q with
    | false => exact fault_right ..
    | true => exact ⟨rfl, rfl, rfl, rfl⟩

theorem minus (m n : Nat) :
    Agree E S (fun a s' b t' => s' = s ∧ t' = t ∧ a = b ∧ a ≤ m) (ConsHeap.minus m n s) (ConsHeap.minus m n t) := by
  by_cases hle : n ≤ m
  · rw [minus_ok hle, minus_ok hle]
    exact ⟨rfl, rfl, rfl, Nat.sub_le m n⟩
  · rw [ConsHeap.minus, if_neg hle]
    exact fault ..

/-- Two lists of which the members go together, one pair after the other. -/
theorem forM {I : σ → σ → Prop} {K : α → β → Prop} {f : α → EStateM (Failure ε) σ PUnit}
    {g : β → EStateM (Failure ε) σ PUnit}
    (hfg : ∀ a b s t, K a b → I s t → Agree E S (fun _ s' _ t' => I s' t') (f a s) (g b t)) {as : List α} {bs : List β}
    (hK : List.Forall₂ K as bs) (hI : I s t) : Agree E S (fun _ s' _ t' => I s' t') (as.forM f s) (bs.forM g t) := by
  induction hK generalizing s t with
  | nil => exact hI
  | cons hab _ ih =>
    show Agree E S _ ((f _ >>= fun _ => List.forM _ f) s) ((g _ >>= fun _ => List.forM _ g) t)
    exact (hfg _ _ _ _ hab hI).bind fun _ s' _ t' hI' => ih hI'

end Agree

/-! ## Answers -/

/-- Two answers go together: answers of which `Q` holds, or one refusal. -/
inductive Answers (Q : α → β → Prop) : Except ε α → Except ε β → Prop where
  | ok {a : α} {b : β} : Q a b → Answers Q (.ok a) (.ok b)
  | error (e : ε) : Answers Q (.error e) (.error e)

theorem Answers.refl (x : Except ε α) : Answers Eq x x := by
  cases x with
  | ok a => exact .ok rfl
  | error e => exact .error e

theorem Answers.mono {Q Q' : α → β → Prop} {x : Except ε α} {y : Except ε β} (h : Answers Q x y)
    (hQ : ∀ a b, Q a b → Q' a b) : Answers Q' x y := by
  cases h with
  | ok hab => exact .ok (hQ _ _ hab)
  | error e => exact .error e

theorem Answers.bind {Q : α → β → Prop} {Q' : γ → δ → Prop} {x : Except ε α} {y : Except ε β}
    {f : α → Except ε γ} {g : β → Except ε δ} (h : Answers Q x y) (hfg : ∀ a b, Q a b → Answers Q' (f a) (g b)) :
    Answers Q' (x >>= f) (y >>= g) := by
  cases h with
  | ok hab => exact hfg _ _ hab
  | error e => exact .error e

/-- An answer changes nothing. -/
theorem Answers.agree {Q : α → β → Prop} {x : Except ε α} {y : Except ε β} (h : Answers Q x y) (hS : S s t) :
    Agree E S (fun a s' b t' => (s' = s ∧ t' = t) ∧ Q a b) (answer x s) (answer y t) := by
  cases h with
  | ok hab => exact ⟨⟨rfl, rfl⟩, hab⟩
  | error e => exact .refuse e hS

/-- Two answers of which `Q` holds, unless one of them is a fault. -/
def UnlessFault (Q : α → β → Prop) : Except Fault α → Except Fault β → Prop
  | .ok a, .ok b => Q a b
  | _, _ => True

namespace UnlessFault

variable {Q : α → β → Prop} {Q' : γ → δ → Prop} {x : Except Fault α} {y : Except Fault β}

theorem refl (x : Except Fault α) : UnlessFault Eq x x := by
  cases x with
  | error f => exact trivial
  | ok a => exact rfl

theorem any (x : Except Fault α) (y : Except Fault β) : UnlessFault (fun _ _ => True) x y := by
  cases x <;> cases y <;> exact trivial

theorem bind {f : α → Except Fault γ} {g : β → Except Fault δ} (h : UnlessFault Q x y)
    (hfg : ∀ a b, Q a b → UnlessFault Q' (f a) (g b)) : UnlessFault Q' (x >>= f) (y >>= g) := by
  cases x with
  | error e => exact trivial
  | ok a =>
    cases y with
    | error e =>
      show UnlessFault Q' (f a) (.error e)
      cases f a <;> exact trivial
    | ok b => exact hfg a b h

end UnlessFault

/-! ## Growth -/

/-- Two outcomes agree: the states go together with more locations of heap `n` than before. -/
abbrev Onward (E : ε → Prop) (n : UInt32) (A : Renaming → σ → σ → Prop) (M : Renaming) (Q : Renaming → α → β → Prop)
    (r : EStateM.Result (Failure ε) σ α) (r' : EStateM.Result (Failure ε) σ β) : Prop :=
  Agree E (fun s t => ∃ N, Renaming.Grows n M N ∧ A N s t)
    (fun a s b t => ∃ N, Renaming.Grows n M N ∧ A N s t ∧ Q N a b) r r'

variable {n : UInt32} {A : Renaming → σ → σ → Prop} {M N : Renaming} {Q : Renaming → α → β → Prop}
  {Q' : Renaming → γ → δ → Prop}

/-- Outcomes that agree without more locations. -/
theorem Agree.onward {R : α → β → Prop} {r : EStateM.Result (Failure ε) σ α} {r' : EStateM.Result (Failure ε) σ β}
    (h : Agree E (A M) (fun a s b t => A M s t ∧ R a b) r r') : Onward E n A M (fun _ => R) r r' :=
  h.weaken (fun _ _ hA => ⟨M, .refl n M, hA⟩) fun _ _ _ _ ⟨hA, hab⟩ => ⟨M, .refl n M, hA, hab⟩

/-- An answer is where two actions start. -/
theorem Answers.onward {R : α → β → Prop} {x : Except ε α} {y : Except ε β} {f : α → EStateM (Failure ε) σ γ}
    {g : β → EStateM (Failure ε) σ δ} (h : Answers R x y) (hA : A M s t)
    (hfg : ∀ a b, R a b → Onward E n A M Q' (f a s) (g b t)) :
    Onward E n A M Q' ((answer x >>= f) s) ((answer y >>= g) t) := by
  cases h with
  | ok hab => exact hfg _ _ hab
  | error e => exact .inr (.inr ⟨rfl, M, .refl n M, hA⟩)

namespace Onward

theorem of_grows {r : EStateM.Result (Failure ε) σ α} {r' : EStateM.Result (Failure ε) σ β}
    (hMN : Renaming.Grows n M N) (h : Onward E n A N Q r r') : Onward E n A M Q r r' :=
  h.weaken (fun _ _ ⟨K, hNK, hA⟩ => ⟨K, hMN.trans hNK, hA⟩)
    fun _ _ _ _ ⟨K, hNK, hA, hab⟩ => ⟨K, hMN.trans hNK, hA, hab⟩

theorem bind {x : EStateM (Failure ε) σ α} {y : EStateM (Failure ε) σ β} {f : α → EStateM (Failure ε) σ γ}
    {g : β → EStateM (Failure ε) σ δ} (h : Onward E n A M Q (x s) (y t))
    (hfg : ∀ N a s' b t', Renaming.Grows n M N → A N s' t' → Q N a b → Onward E n A N Q' (f a s') (g b t')) :
    Onward E n A M Q' ((x >>= f) s) ((y >>= g) t) := by
  refine Agree.bind h ?_
  rintro a s' b t' ⟨N, hMN, hA, hab⟩
  exact (hfg N a s' b t' hMN hA hab).of_grows hMN

theorem map {x : EStateM (Failure ε) σ α} {y : EStateM (Failure ε) σ β} {f : α → γ} {g : β → δ}
    (h : Onward E n A M Q (x s) (y t)) (hfg : ∀ N a b, Q N a b → Q' N (f a) (g b)) :
    Onward E n A M Q' ((f <$> x) s) ((g <$> y) t) :=
  Agree.map h fun _ _ _ _ ⟨N, hMN, hA, hab⟩ => ⟨N, hMN, hA, hfg N _ _ hab⟩

end Onward

end ConsHeap
