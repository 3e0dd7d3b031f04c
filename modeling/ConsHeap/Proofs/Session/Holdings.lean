import ConsHeap.Proofs.Script.Hosts
import ConsHeap.Proofs.Session.Bindings

/-!
# Counting in a session

A session is a host with one heap, whose variables are the names. When all objects are counted as often as
they are held, a refusal gives back exactly the counts that were taken. So a command that fails leaves the
session as it was: what may be refused comes first, and what comes after the first change is never refused.

* `Session.host`: the session as a host with one heap.
* `Session.Counted`: sound, with all counts right.
* `Session.Clean`: an outcome is an answer, or a failure that has changed nothing.
* `Session.Counted.operate`, `Session.Counted.reclaim`: operations end cleanly.
* `Session.Counted.bind`, `Session.Counted.describeCons`, `Session.Counted.print`: what is not refused.
* `Session.Counted.run`: **every line ends cleanly.**
* `Session.Counted.after`: all counts are right after any turns.
-/

namespace ConsHeap.Console

namespace Session

open Ledger

variable {s t u : Session} {α β : Type} {Q : α → Session → Prop} {R : β → Session → Prop} {v : Value}
  {name : String} {owed : List Value}

/-- The heap, the objects and the names as a host with one heap. -/
def host (s : Session) : Script.Host := ⟨#[s.memory.heap], s.memory.ledger, s.names, 1⟩

/-- The session is sound, and every object is counted as often as it is held, with the values `owed` held by
the command that is being run. -/
structure Counted (s : Session) (owed : List Value) : Prop where
  sound : s.Sound
  held : s.host.Counted owed

/-- An outcome of what began in `u`: an answer with nothing owed, or `u` as it was with a reason that does not
end the session. -/
def Clean (u : Session) (Q : α → Session → Prop) : EStateM.Result (Failure Reason) Session α → Prop
  | .ok a t => t.Counted [] ∧ Q a t
  | .error f t => t = u ∧ ∃ r, f = .error r ∧ (Trouble.mk r none).isFatal = false

theorem counted_new (sizing : Sizing) : (new sizing).Counted [] :=
  ⟨sound_new sizing, Script.Host.counted_start 0 sizing⟩

/-- What one step leaves is where the next one starts. After a change the next step must not fail, before the
first change it may. -/
theorem Clean.bind {x : SessionM α} {f : α → SessionM β} (hx : u.Clean Q (x s))
    (hf : ∀ a t, t.Counted [] → Q a t → u.Clean R (f a t)) : u.Clean R ((x >>= f) s) := by
  cases h : x s with
  | ok a t =>
    rw [h] at hx
    rw [bind_ok h]
    exact hf a t hx.1 hx.2
  | error e t =>
    rw [h] at hx
    rw [bind_error h]
    exact hx

theorem Clean.mono {Q' : α → Session → Prop} {r : EStateM.Result (Failure Reason) Session α}
    (h : u.Clean Q r) (hQ : ∀ a t, Q a t → Q' a t) : u.Clean Q' r := by
  cases r with
  | ok a t => exact ⟨h.1, hQ a t h.2⟩
  | error f t => exact h

namespace Counted

/-- A value that is owed comes under a name, and what was there is released, without fail. -/
theorem bind (hs : s.Counted [v]) (name : String) (hv : s.memory.heap.accepts v)
    (hsimple : v.isCons = true ∨ v.handles = []) : u.Clean (fun _ _ => True) (Session.bind name v s) := by
  rw [Session.bind, bind_get, bind_modify]
  have hsound := hs.sound.withName name hv hsimple
  have hinsert := hs.held.insert name
  cases hfind : s.names.find? name with
  | none =>
    rw [host, hfind] at hinsert
    exact ⟨⟨hsound, hinsert⟩, trivial⟩
  | some old =>
    rw [host, hfind] at hinsert
    exact ⟨⟨hsound.withLedger _, hinsert.release.1⟩, trivial⟩

variable (hs : s.Counted [])
include hs

/-- The heap and the ledger are counted, with what the names hold held from elsewhere. They can be exchanged
for what an action that makes no object leaves of them. -/
theorem memory :
    ∃ held, s.memory.Counted held ∧ (∀ x, s.host.Offers x → s.memory.ledger.Secures held x) ∧
      ∀ m, s.memory.Later held m → (host { s with memory := m }).Counted [] := by
  obtain ⟨held, hm, hoffers, hback⟩ := hs.held.focusLater (n := 0) (h := s.memory.heap) rfl
  exact ⟨held, hm, hoffers, hback⟩

/-! ## Questions -/

theorem pure {a : α} (ha : Q a s) : u.Clean Q ((Pure.pure a : SessionM α) s) := ⟨hs, ha⟩

/-- A question to the heap changes nothing. -/
theorem ask (question : Heap → Except HeapError α) :
    s.Clean (fun _ t => t = s) (Session.ask question s) := by
  rw [Session.ask, bind_get]
  cases question s.memory.heap with
  | ok a => exact ⟨hs, rfl⟩
  | error e => exact ⟨rfl, _, rfl, rfl⟩

/-- An operand stands for a value that may be stored and is held, or its name is not bound. -/
theorem eval {x : Operand} (hx : x.Plain) :
    s.Clean (fun v t => t = s ∧ s.memory.heap.accepts v ∧ s.host.Offers v) (Session.eval x s) := by
  rw [Session.eval, bind_get]
  rcases hx.value?_cases s.names with ⟨name, he⟩ | ⟨v, hv, hplain⟩
  · rw [he]
    exact ⟨rfl, _, rfl, rfl⟩
  · rw [hv]
    refine ⟨hs, rfl, hs.sound.accepts_plain hplain, ?_⟩
    rcases hplain with hatom | ⟨name, hfind⟩
    · exact .inl hatom.object?
    · exact .inr (Names.mem_values_of_find? hs.sound.names hfind)

theorem lookup (name : String) :
    s.Clean (fun v t => t = s ∧ s.memory.heap.accepts v ∧ s.host.Offers v) (Session.lookup name s) :=
  @eval s hs (.named name) trivial

/-- A question that always has an answer. -/
theorem askSound {question : Heap → Except Fault α} (h : ∃ a, question s.memory.heap = .ok a) :
    u.Clean (fun _ t => t = s) (Session.askSound question s) := by
  obtain ⟨a, ha⟩ := h
  rw [Session.askSound, bind_get, ha]
  exact ⟨hs, rfl⟩

theorem describe (name : String) : s.Clean (fun _ t => t = s) (Session.describe name v s) := by
  rw [Session.describe]
  refine (hs.ask _).bind ?_
  rintro color _ - rfl
  refine (hs.ask _).bind ?_
  rintro slot _ - rfl
  exact hs.pure rfl

/-- A live cons is described without fail. -/
theorem describeCons (name : String) (hv : s.memory.heap.accepts v) (hcons : v.isCons = true) :
    u.Clean (fun _ t => t = s) (Session.describe name v s) := by
  obtain ⟨text, htext⟩ := describe_ok name hv hcons
  rw [htext]
  exact hs.pure rfl

/-- Any value that may be stored is printed without fail. -/
theorem print (hv : s.memory.heap.accepts v) : u.Clean (fun _ t => t = s) (Session.ask (·.print v) s) := by
  obtain ⟨text, htext⟩ := hs.sound.memory.print_ok hv
  rw [Session.ask, bind_get, htext]
  exact hs.pure rfl

/-! ## Operations -/

/-- An operation that makes no list and reclaims nothing changes nothing when it is refused. -/
theorem operate {act : MemoryM α} {f : α → Result} (op : Operation Value) (hop : op.run = f <$> act)
    (hlist : ∀ items, op ≠ .list items) (hsweep : op ≠ .sweep) (hcollect : op ≠ .collect)
    (hops : ∀ x ∈ op.operands, s.memory.heap.accepts x ∧ s.host.Offers x) :
    s.Clean (fun a t => (∀ v, s.memory.heap.accepts v → t.memory.heap.accepts v) ∧
      s.memory.heap.view.Effect op (.ok (f a)) t.memory.heap.view) (onMemory act s) := by
  have hbehaves := hs.sound.operate op hop hsweep hcollect fun x hx => (hops x hx).1
  obtain ⟨held, hm, hoffers, hback⟩ := hs.memory
  have hsecured : ∀ x ∈ op.operands, s.memory.ledger.Secures held x := fun x hx => hoffers x (hops x hx).2
  have hcounts := hm.run hsecured
  rw [hop] at hcounts
  obtain ⟨m, names, anonymous⟩ := s
  rcases Operation.act_cases hop hm.sound with
    ⟨a, m', w, hok, -, -⟩ | ⟨e, m', -, herr, hintact⟩ | ⟨items, e, m', w, -, rfl, -⟩
  · simp only [onMemory, hok] at hbehaves ⊢
    rw [map_ok hok] at hcounts
    obtain ⟨hlater, -⟩ := hcounts
    exact ⟨⟨hbehaves.1, hback m' hlater⟩, hbehaves.2⟩
  · simp only [onMemory, herr]
    -- the operands are held, so the counts that were taken for them have been given back
    rw [hm.eq_of_intact hintact hsecured]
    exact ⟨rfl, _, rfl, rfl⟩
  · exact absurd rfl (hlist items)

/-- A sweep or a collection with the names of dead cells dropped after it changes nothing when it is
refused. -/
theorem reclaim {act : HeapM Nat} (op : Operation Value)
    (hop : op.run = Result.count <$> Memory.onHeap act) (hops : op.operands = [])
    (hlist : ∀ items, op ≠ .list items) (hstores : op.stores = false) :
    s.Clean (fun _ _ => True) ((onHeap act >>= fun count => dropDead count) s) := by
  have hbehaves := hs.sound.reclaim op hop hops hlist
  obtain ⟨held, hm, -, hback⟩ := hs.memory
  have hcounts := hm.onHeap op hop hstores
  obtain ⟨⟨h, ledger⟩, names, anonymous⟩ := s
  rcases Operation.heap_act_cases hop hlist hm.sound with ⟨count, h', w, hact, -, -⟩ | ⟨e, -, hact⟩
  · have honHeap : onHeap act ⟨⟨h, ledger⟩, names, anonymous⟩ = .ok count ⟨⟨h', ledger⟩, names, anonymous⟩ := by
      rw [onHeap, onMemory, Memory.onHeap_ok hact]
    rw [bind_ok honHeap, dropDead_eq] at hbehaves ⊢
    rw [Memory.onHeap_ok hact] at hcounts
    obtain ⟨hlater, -⟩ := hcounts
    have hheld := hback ⟨h', ledger⟩ hlater
    -- only names of conses are dropped, and a cons is nowhere counted
    refine ⟨⟨hbehaves.1, hheld.keep (fun v => !isDead h' v) fun v _ hdead => ?_⟩, trivial⟩
    have hdead : isDead h' v = true := by simpa using hdead
    obtain ⟨tag, handle, rfl, -⟩ := isDead_iff.1 hdead
    rfl
  · rw [bind_error (by rw [onHeap, onMemory, Memory.onHeap_error hact])]
    exact ⟨rfl, _, rfl, rfl⟩

/-! ## Commands -/

/-- A live cons is described and put under a name, without fail. -/
theorem nameCons (name : String) (hv : s.memory.heap.accepts v) (hcons : v.isCons = true) :
    u.Clean (fun _ _ => True) ((do
      let text ← Session.describe name v
      Session.bind name v
      return text : SessionM String) s) := by
  refine (hs.describeCons name hv hcons).bind ?_
  rintro text _ - rfl
  have howed : Counted _ [v] := ⟨hs.sound, hs.held.atom (Value.object?_of_isCons hcons)⟩
  refine (howed.bind name hv (.inl hcons)).bind fun _ t ht _ => ?_
  exact ht.pure trivial

theorem cons (name : Option String) {car cdr : Operand} (hcar : car.Plain) (hcdr : cdr.Plain) :
    s.Clean (fun _ _ => True) (Session.cons name car cdr s) := by
  unfold Session.cons
  refine (hs.eval hcar).bind ?_
  rintro x _ - ⟨rfl, hx⟩
  refine (hs.eval hcdr).bind ?_
  rintro y _ - ⟨rfl, hy⟩
  refine (hs.operate (.cons .cons x y) rfl (by simp) (by simp) (by simp)
    (by simp [Operation.operands, hx, hy])).bind ?_
  rintro v t ht ⟨-, he⟩
  have hv : t.memory.heap.accepts v ∧ v.isCons = true := by
    cases he with
    | cons _ _ hc => exact ⟨Heap.accepts_iff.2 (hc.accepts_new _), rfl⟩
  cases name with
  | some name => exact ht.nameCons name hv.1 hv.2
  | none =>
    have ht' : Counted { t with anonymous := t.anonymous + 1 } [] :=
      ⟨⟨ht.sound.memory, ht.sound.names, ht.sound.accepted, ht.sound.simple⟩, ht.held⟩
    exact ht'.nameCons _ hv.1 hv.2

/-- A new text is put under a name, without fail. -/
theorem text (name content : String) :
    u.Clean (fun _ _ => True) (Session.perform (.text name content) s) := by
  let made := s.memory.ledger.create .text (s.memory.heap.kinds.finalizer .text) (.text content)
  let t : Session := { s with memory := ⟨s.memory.heap, made.2⟩ }
  have hmade : onMemory (Memory.text content) s = .ok made.1 t := rfl
  obtain ⟨held, hm, -, hback⟩ := hs.held.focus (n := 0) (h := s.memory.heap) rfl [made.1.value]
  have hbody : ∀ x ∈ (Body.text content : Body Value).values, s.memory.ledger.Secures held x := by
    simp [Body.values]
  have hcreate := hm.create .text (s.memory.heap.kinds.finalizer .text) hbody
  -- the text is counted once, for the name that it will be under
  have howed : t.Counted [made.1.value] := by
    refine ⟨hs.sound.withLedger _, hback t.memory hcreate (fun x hx => hx.create ..) fun x hx => ?_⟩
    rw [List.mem_singleton.1 hx]
    exact knows_create_self ..
  rw [Session.perform, bind_ok hmade]
  refine (howed.bind name rfl (.inr rfl)).bind fun _ t ht _ => ?_
  exact ht.pure trivial

/-- Every command ends cleanly. -/
theorem perform {c : Command} (hplain : ∀ x ∈ c.operands, x.Plain) :
    s.Clean (fun _ _ => True) (Session.perform c s) := by
  cases c with
  | cons name car cdr =>
    have hcar := hplain car (by simp [Command.operands])
    have hcdr := hplain cdr (by simp [Command.operands])
    exact hs.cons name hcar hcdr
  | root name =>
    refine (hs.lookup name).bind ?_
    rintro v _ - ⟨rfl, hv⟩
    refine (hs.operate (.root v) rfl (by simp) (by simp) (by simp) (by simp [Operation.operands, hv])).bind ?_
    rintro - t ht -
    refine (ht.askSound (ht.sound.memory.rootCount_ok v)).bind ?_
    rintro count _ - rfl
    exact ht.pure trivial
  | unroot name =>
    refine (hs.lookup name).bind ?_
    rintro v _ - ⟨rfl, hv⟩
    refine (hs.operate (.unroot v) rfl (by simp) (by simp) (by simp) (by simp [Operation.operands, hv])).bind ?_
    rintro - t ht ⟨hkept, he⟩
    -- only a cons can have been unrooted
    have hcons : v.isCons = true := by
      generalize t.memory.heap.view = w at he
      cases he <;> rfl
    exact (ht.describeCons name (hkept v hv.1) hcons).mono fun _ _ _ => trivial
  | setChild side target x =>
    refine (hs.lookup target).bind ?_
    rintro v _ - ⟨rfl, hv⟩
    refine (hs.eval (hplain x (by simp [Command.operands]))).bind ?_
    rintro y _ - ⟨rfl, hy⟩
    refine (hs.operate (.setChild side v y) rfl (by simp) (by simp) (by simp)
      (by simp [Operation.operands, hv, hy])).bind ?_
    rintro - t ht ⟨hkept, -⟩
    exact (ht.print (hkept v hv.1)).mono fun _ _ _ => trivial
  | text name content => exact hs.text name content
  | scan budget =>
    refine (hs.operate (.scan budget) rfl (by simp) (by simp) (by simp) (by simp [Operation.operands])).bind ?_
    rintro n t ht -
    exact ht.pure trivial
  | sweep => exact hs.reclaim .sweep rfl rfl (by simp) rfl
  | collect => exact hs.reclaim .collect rfl rfl (by simp) rfl
  | stats =>
    refine (hs.askSound hs.sound.memory.occupancy_ok).bind ?_
    rintro o _ - rfl
    exact hs.pure trivial
  | check =>
    rw [hs.sound.check_eq]
    exact hs.pure trivial
  | color name =>
    refine (hs.lookup name).bind ?_
    rintro v _ - ⟨rfl, -⟩
    exact (hs.describe name).mono fun _ _ _ => trivial
  | refs name =>
    refine (hs.lookup name).bind ?_
    rintro v _ - ⟨rfl, -⟩
    cases v with
    | object header body => exact hs.pure trivial
    | _ =>
      refine (hs.askSound (hs.sound.memory.rootCount_ok _)).bind ?_
      rintro count _ - rfl
      exact hs.pure trivial
  | print name =>
    refine (hs.lookup name).bind ?_
    rintro v _ - ⟨rfl, -⟩
    exact (hs.ask _).mono fun _ _ _ => trivial
  | help => exact hs.pure trivial

/-- **Every line ends cleanly.** -/
theorem run (line : String) : s.Clean (fun _ _ => True) (Session.run line s) := by
  rcases Command.parse_cases line with ⟨text, he⟩ | hnone | ⟨c, hc, hplain⟩
  · rw [Session.run, bind_error (answer_error he)]
    exact ⟨rfl, _, rfl, rfl⟩
  · rw [Session.run, bind_ok (answer_ok hnone)]
    exact hs.pure trivial
  · rw [Session.run, bind_ok (answer_ok hc)]
    refine (hs.perform hplain).bind ?_
    rintro text t ht -
    exact ht.pure trivial

theorem turn (turn : Turn) : (turn.after s).Counted [] := by
  cases turn with
  | line text =>
    have h := hs.run text
    rw [Turn.after]
    cases hrun : Session.run text s with
    | ok a t =>
      rw [hrun] at h
      exact h.1
    | error f t =>
      rw [hrun] at h
      rw [Outcome.state, h.1]
      exact hs
  | supply memory =>
    refine ⟨hs.sound.turn (.supply memory), ⟨hs.held.names, ?_, hs.held.exact, hs.held.known⟩⟩
    intro h hmem ledger
    obtain rfl := List.mem_singleton.1 hmem
    have hg := hs.sound.turn (.supply memory) |>.memory
    exact ⟨hg.sound, hg.safe⟩

end Counted

/-- All counts are right after any turns. -/
theorem Counted.after (hs : s.Counted []) (turns : List Turn) : (s.after turns).Counted [] := by
  induction turns generalizing s with
  | nil => exact hs
  | cons turn turns ih => exact ih (hs.turn turn)

end Session

end ConsHeap.Console
