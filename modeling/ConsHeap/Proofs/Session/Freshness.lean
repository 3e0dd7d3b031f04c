import ConsHeap.Proofs.Outline
import ConsHeap.Proofs.Session.Holdings

/-!
# Names that are made up

A cell that is given no name gets one with a number, and the numbers only rise. Nothing keeps a line
from giving such a name itself: binding a name never asks what is under it. So the names that are made up
differ from one another, but not from the names that lines give.

* `Session.numbered`: the names that are made up.
* `Session.Rebinds`: what a command that succeeds does to the names.
* `Session.Happens`: a line of a session that succeeded.
* `Session.bound_cases`: in every state, what is under a name was put there by a line that gives the name,
  or the name was made up.
* `Session.given_name_is_overwritten`: a name that a line gave is made up later.
* `Session.made_up_names_differ`: **a cell that is given no name gets one that no such cell has got before.
  It was bound just if a line that gives the very same name put there what is under it.**
-/

namespace ConsHeap.Console

/-- The name that a command gives to what it binds. -/
def Command.given? : Command → Option String
  | cons name _ _ => name
  | text name _ => some name
  | _ => none

namespace Session

variable {s t u : Session} {c : Command} {α γ : Type} {v : Value} {name text : String} {car cdr : Operand}

/-- A name with a number. -/
def numbered (number : Nat) : String := s!"_{number}"

/-- The name of the next cell that is given none. -/
def madeUp (s : Session) : String := numbered (s.anonymous + 1)

/-- Names with other numbers are other names. -/
theorem numbered_injective {m n : Nat} (h : numbered m = numbered n) : m = n := by
  have hdigits : Nat.toDigits 10 m = Nat.toDigits 10 n := by
    have hchars := congrArg String.toList h
    simpa [numbered, Nat.toString_eq_ofList_toDigits] using hchars
  rw [← Nat.ofDigitChars_ten_toDigits (n := m), hdigits, Nat.ofDigitChars_ten_toDigits]

/-! ## Steps -/

section Steps

variable {part : Session → γ}

theorem keeps_ask (question : Heap → Except HeapError α) : Keeps part (Session.ask question) := by
  refine .bind .get fun s => ?_
  split
  · exact .pure _
  · exact .throw _

theorem keeps_askSound (question : Heap → Except Fault α) : Keeps part (Session.askSound question) := by
  refine .bind .get fun s => ?_
  split
  · exact .pure _
  · exact keeps_fault _

theorem keeps_eval (x : Operand) : Keeps part (Session.eval x) := by
  refine .bind .get fun s => ?_
  split
  · exact .pure _
  · exact .throw _

theorem keeps_describe (name : String) (v : Value) : Keeps part (Session.describe name v) :=
  (keeps_ask _).bind fun _ => (keeps_ask _).bind fun _ => .pure _

end Steps

/-- The names, and how many of them were made up. -/
def bindings (s : Session) : Names Value × Nat := (s.names, s.anonymous)

theorem keeps_onMemory (act : MemoryM α) : Keeps bindings (onMemory act) := by
  rintro ⟨memory, names, anonymous⟩
  unfold onMemory
  cases hact : act memory <;> simp only [hact] <;> rfl

/-- A name is bound, and nothing else is. -/
theorem bindings_bind (name : String) (v : Value) (s : Session) :
    bindings (Outcome.state (Session.bind name v s)) = (s.names.insert name v, s.anonymous) := by
  rw [Session.bind, bind_get, bind_modify]
  cases s.names.find? name with
  | none => rfl
  | some old => exact keeps_onMemory (Memory.release old) _

/-- What was under a name is released, and the heap does not change. -/
theorem heap_bind (name : String) (v : Value) (s : Session) :
    (Outcome.state (Session.bind name v s)).memory.heap = s.memory.heap := by
  rw [Session.bind, bind_get, bind_modify]
  cases s.names.find? name <;> rfl

/-- A cons is described and put under a name. -/
theorem bindings_of_nameCons (h : (do
      let text ← Session.describe name v
      Session.bind name v
      return text : SessionM String) s = .ok text t) :
    t.bindings = (s.names.insert name v, s.anonymous) ∧ t.memory.heap = s.memory.heap := by
  obtain ⟨shown, s₁, hdescribe, hrest⟩ := exists_of_bind_eq_ok h
  obtain ⟨_, s₂, hbind, hreturn⟩ := exists_of_bind_eq_ok hrest
  cases hreturn
  have hs₁ : s₁ = s := by
    have hkeeps : Keeps id (Session.describe name v) := keeps_describe name v
    have hstate := hkeeps s
    rwa [hdescribe] at hstate
  subst hs₁
  have hbindings := bindings_bind name v s₁
  have hheap := heap_bind name v s₁
  rw [hbind] at hbindings hheap
  exact ⟨hbindings, hheap⟩

/-- A new cell comes under the name that it is given, or under one that is made up. -/
theorem Sound.cons_eq_ok (hs : s.Sound) {name : Option String} (hcar : car.Plain) (hcdr : cdr.Plain)
    (h : Session.cons name car cdr s = .ok text t) :
    ∃ handle, s.memory.heap.tables.color? handle.location = none ∧
      t.memory.heap.resolve handle = some handle.location ∧
      t.bindings = (s.names.insert (name.getD (s.madeUp)) (.cons .cons handle),
        if name.isSome then s.anonymous else s.anonymous + 1) := by
  unfold Session.cons at h
  -- the operands are looked up, which changes nothing
  obtain ⟨x, s₁, hevalx, h₁⟩ := exists_of_bind_eq_ok h
  have hbehaves := hs.eval hcar
  rw [hevalx] at hbehaves
  obtain ⟨-, rfl, hx⟩ := hbehaves
  obtain ⟨y, s₂, hevaly, h₂⟩ := exists_of_bind_eq_ok h₁
  have hbehaves := hs.eval hcdr
  rw [hevaly] at hbehaves
  obtain ⟨-, rfl, hy⟩ := hbehaves
  -- the cell is made, which binds no name
  obtain ⟨v, s₃, hcons, h₃⟩ := exists_of_bind_eq_ok h₂
  have hoperate := hs.operate (.cons .cons x y) rfl (by simp) (by simp) (by simp [Operation.operands, hx, hy])
  have hkeeps := keeps_onMemory (Memory.cons .cons x y) s₂
  rw [hcons] at hoperate hkeeps
  obtain ⟨-, -, he⟩ := hoperate
  obtain ⟨handle, rfl, hdead, hlive⟩ : ∃ handle, v = .cons .cons handle ∧
      s₂.memory.heap.tables.color? handle.location = none ∧
      s₃.memory.heap.resolve handle = some handle.location := by
    cases he with
    | cons _ _ hc => exact ⟨_, rfl, hc.dead, by rw [← Heap.resolve_view]; exact hc.resolve_new.1⟩
  obtain ⟨hnames, hanonymous⟩ : s₃.names = s₂.names ∧ s₃.anonymous = s₂.anonymous := Prod.mk.inj hkeeps
  refine ⟨handle, hdead, ?_⟩
  cases name with
  | some name =>
    obtain ⟨hbindings, hheap⟩ := bindings_of_nameCons h₃
    rw [hheap, hbindings, hnames, hanonymous]
    exact ⟨hlive, rfl⟩
  | none =>
    obtain ⟨hbindings, hheap⟩ := bindings_of_nameCons h₃
    have hname : s₃.madeUp = s₂.madeUp := by rw [madeUp, madeUp, hanonymous]
    rw [hheap, hbindings]
    refine ⟨hlive, ?_⟩
    rw [Option.getD_none, ← hname, ← hnames, ← hanonymous]
    rfl

/-! ## Commands -/

/-- What a command that succeeds does to the names: it binds the name that it gives, it makes up the next
name and binds that, or it binds none. -/
inductive Rebinds (s t : Session) (c : Command) : Prop
  | given (name : String) (v : Value) (hgiven : c.given? = some name)
      (hbindings : t.bindings = (s.names.insert name v, s.anonymous))
  | made (v : Value) (hgiven : c.given? = none)
      (hbindings : t.bindings = (s.names.insert (s.madeUp) v, s.anonymous + 1))
  | kept (hgiven : c.given? = none)
      (hfind : ∀ {name v}, t.names.find? name = some v → s.names.find? name = some v)
      (hanonymous : t.anonymous = s.anonymous)

/-- A command that leaves the names alone. -/
theorem Rebinds.of_keeps (hkeeps : Keeps bindings (perform c)) (hgiven : c.given? = none)
    (h : perform c s = .ok text t) : s.Rebinds t c := by
  have hsame := hkeeps s
  rw [h] at hsame
  obtain ⟨hnames, hanonymous⟩ : t.names = s.names ∧ t.anonymous = s.anonymous := Prod.mk.inj hsame
  exact .kept hgiven (fun hfind => by rwa [hnames] at hfind) hanonymous

/-- A sweep or a collection binds no name. -/
theorem Sound.rebinds_of_reclaim (hs : s.Sound) {act : HeapM Nat} (hgiven : c.given? = none)
    (h : (onHeap act >>= fun count => dropDead count) s = .ok text t) : s.Rebinds t c := by
  obtain ⟨count, s₁, hact, hdrop⟩ := exists_of_bind_eq_ok h
  have hsame := keeps_onMemory (Memory.onHeap act) s
  rw [← onHeap, hact] at hsame
  obtain ⟨hnames, hanonymous⟩ : s₁.names = s.names ∧ s₁.anonymous = s.anonymous := Prod.mk.inj hsame
  rw [dropDead_eq] at hdrop
  cases hdrop
  refine .kept hgiven (fun {name v} hfind => ?_) hanonymous
  have hsorted : s₁.names.Sorted := hnames ▸ hs.names
  rw [Names.find?_keep hsorted, Option.filter_eq_some_iff] at hfind
  rw [← hnames]
  exact hfind.1

theorem Sound.rebinds (hs : s.Sound) (hplain : ∀ x ∈ c.operands, x.Plain)
    (h : Session.perform c s = .ok text t) :
    s.Rebinds t c := by
  cases c with
  | cons name car cdr =>
    obtain ⟨handle, -, -, hbindings⟩ := hs.cons_eq_ok (hplain car (by simp [Command.operands]))
      (hplain cdr (by simp [Command.operands])) h
    cases name with
    | some name => exact .given name _ rfl hbindings
    | none => exact .made _ rfl hbindings
  | text name content =>
    obtain ⟨o, s₁, hact, hrest⟩ := exists_of_bind_eq_ok h
    obtain ⟨_, s₂, hbind, hreturn⟩ := exists_of_bind_eq_ok hrest
    cases hreturn
    have hsame := keeps_onMemory (Memory.text content) s
    have hbindings := bindings_bind name o.value s₁
    rw [hact] at hsame
    rw [hbind] at hbindings
    obtain ⟨hnames, hanonymous⟩ : s₁.names = s.names ∧ s₁.anonymous = s.anonymous := Prod.mk.inj hsame
    refine .given name o.value rfl (hbindings.trans ?_)
    rw [← hnames, ← hanonymous]
  | sweep => exact hs.rebinds_of_reclaim rfl h
  | collect => exact hs.rebinds_of_reclaim rfl h
  | root name =>
    refine .of_keeps ?_ rfl h
    exact (keeps_eval _).bind fun v => (keeps_onMemory _).bind fun _ => (keeps_askSound _).bind fun _ => .pure _
  | unroot name =>
    refine .of_keeps ?_ rfl h
    exact (keeps_eval _).bind fun v => (keeps_onMemory _).bind fun _ => keeps_describe name v
  | setChild side target x =>
    refine .of_keeps ?_ rfl h
    exact (keeps_eval _).bind fun v => (keeps_eval x).bind fun _ => (keeps_onMemory _).bind fun _ => keeps_ask _
  | scan budget =>
    refine .of_keeps ?_ rfl h
    exact (keeps_onMemory _).bind fun _ => .pure _
  | stats =>
    refine .of_keeps ?_ rfl h
    exact (keeps_askSound _).bind fun _ => .pure _
  | check =>
    refine .of_keeps (.bind .get fun s => ?_) rfl h
    split
    · exact .pure _
    · exact .throw _
  | color name =>
    refine .of_keeps ?_ rfl h
    exact (keeps_eval _).bind fun v => keeps_describe name v
  | refs name =>
    refine .of_keeps ((keeps_eval _).bind fun v => ?_) rfl h
    split
    · exact .bind .get fun s => .pure _
    · exact (keeps_askSound _).bind fun _ => .pure _
  | print name =>
    refine .of_keeps ?_ rfl h
    exact (keeps_eval _).bind fun v => keeps_ask _
  | help => exact .of_keeps (.pure _) rfl h

/-! ## Lines -/

/-- A line asks for a command, which succeeds. -/
structure Succeeds (s : Session) (line : String) (c : Command) (t : Session) : Prop where
  parsed : Command.parse line = .ok (some c)
  ran : ∃ text, run line s = .ok (some text) t

/-- A line that succeeds has the effect of its command. -/
theorem Succeeds.performed {line : String} (h : s.Succeeds line c t) :
    (∀ x ∈ c.operands, x.Plain) ∧ ∃ text, perform c s = .ok text t := by
  obtain ⟨hparsed, text, hran⟩ := h
  rcases Command.parse_cases line with ⟨_, he⟩ | hnone | ⟨c', hc, hplain⟩
  · rw [he] at hparsed
    cases hparsed
  · rw [hnone] at hparsed
    cases hparsed
  · rw [hc] at hparsed
    cases hparsed
    rw [run_of_parse hc] at hran
    obtain ⟨text, hperform, -⟩ := exists_of_map_eq_ok hran
    exact ⟨hplain, text, hperform⟩

/-- A line that gives no name binds its new cell to the one that is made up. -/
theorem Succeeds.makes {line : String} (h : s.Succeeds line (.cons none car cdr) t) (hs : s.Sound) :
    ∃ handle, s.memory.heap.tables.color? handle.location = none ∧
      t.memory.heap.resolve handle = some handle.location ∧
      t.bindings = (s.names.insert s.madeUp (.cons .cons handle), s.anonymous + 1) := by
  obtain ⟨hplain, text, hperform⟩ := h.performed
  have hcons : Session.cons none car cdr s = .ok text t := hperform
  exact hs.cons_eq_ok (hplain car (by simp [Command.operands])) (hplain cdr (by simp [Command.operands])) hcons

/-- A line changes nothing, or it succeeds and has the effect of a command. -/
theorem Counted.line_cases (hs : s.Counted []) (line : String) :
    Turn.after (.line line) s = s ∨
      ∃ c, s.Succeeds line c (Turn.after (.line line) s) ∧ s.Rebinds (Turn.after (.line line) s) c := by
  rw [Turn.after]
  cases hrun : Session.run line s with
  | error f t =>
    have hclean := hs.run line
    rw [hrun] at hclean
    exact .inl hclean.1
  | ok answer t =>
    rw [Outcome.state]
    rcases Command.parse_cases line with ⟨text, he⟩ | hnone | ⟨c, hc, hplain⟩
    · rw [Session.run, bind_error (answer_error he)] at hrun
      cases hrun
    · rw [Session.run, bind_ok (answer_ok hnone)] at hrun
      cases hrun
      exact .inl rfl
    · rw [run_of_parse hc] at hrun
      obtain ⟨text, hperform, rfl⟩ := exists_of_map_eq_ok hrun
      refine .inr ⟨c, ⟨hc, text, ?_⟩, hs.sound.rebinds hplain hperform⟩
      rw [run_of_parse hc, map_ok hperform]

/-! ## Runs -/

/-- Among the turns of a session there is a line that succeeds with the command `c`, in the state `s`. -/
def Happens (start : Session) (turns : List Turn) (s : Session) (c : Command) (t : Session) : Prop :=
  ∃ before line more, turns = before ++ .line line :: more ∧ s = start.after before ∧ s.Succeeds line c t

theorem Happens.more {start : Session} {turns : List Turn} (h : start.Happens turns s c t) (turn : Turn) :
    start.Happens (turns ++ [turn]) s c t := by
  obtain ⟨before, line, more, rfl, hs, hline⟩ := h
  exact ⟨before, line, more ++ [turn], by simp, hs, hline⟩

theorem after_append (s : Session) (turns more : List Turn) :
    s.after (turns ++ more) = (s.after turns).after more := List.foldl_append

theorem Counted.anonymous_le_turn (hs : s.Counted []) (turn : Turn) :
    s.anonymous ≤ (turn.after s).anonymous := by
  cases turn with
  | supply memory => exact Nat.le_refl _
  | line line =>
    rcases hs.line_cases line with hsame | ⟨c, -, hrebinds⟩
    · rw [hsame]
    · cases hrebinds with
      | given _ _ _ hbindings => exact Nat.le_of_eq (Prod.mk.inj hbindings).2.symm
      | made _ _ hbindings =>
        have hcounted : _ = s.anonymous + 1 := (Prod.mk.inj hbindings).2
        omega
      | kept _ _ hanonymous => exact Nat.le_of_eq hanonymous.symm

/-- No number is used again. -/
theorem Counted.anonymous_le (hs : s.Counted []) (turns : List Turn) :
    s.anonymous ≤ (s.after turns).anonymous := by
  induction turns generalizing s with
  | nil => exact Nat.le_refl _
  | cons turn turns ih => exact Nat.le_trans (hs.anonymous_le_turn turn) (ih (hs.turn turn))

/-- What is under a name was put there by a line that gives the name, unless the name was made up. -/
theorem bound_cases (sizing : Sizing) (turns : List Turn) :
    ∀ {name v}, ((new sizing).after turns).names.find? name = some v →
      (∃ number ≤ ((new sizing).after turns).anonymous, name = numbered number) ∨
        ∃ s c t, (new sizing).Happens turns s c t ∧ c.given? = some name ∧ t.names.find? name = some v := by
  induction turns using List.reverseRecOn with
  | nil =>
    intro name v hfind
    cases hfind
  | append_singleton turns turn ih =>
    intro name v hfind
    have hs : ((new sizing).after turns).Counted [] := (counted_new sizing).after turns
    have hafter : (new sizing).after (turns ++ [turn]) = turn.after ((new sizing).after turns) :=
      after_append ..
    rw [hafter] at hfind ⊢
    generalize hstate : (new sizing).after turns = s at hs hfind ih ⊢
    -- what was bound before the turn has been bound for the same reason since
    have hold : s.names.find? name = some v → s.anonymous ≤ (turn.after s).anonymous →
        (∃ number ≤ (turn.after s).anonymous, name = numbered number) ∨
          ∃ s' c t, (new sizing).Happens (turns ++ [turn]) s' c t ∧ c.given? = some name ∧
            t.names.find? name = some v := by
      intro hfind hle
      rcases ih hfind with ⟨number, hnumber, rfl⟩ | ⟨s', c, t, hhappens, hgiven, ht⟩
      · exact .inl ⟨number, Nat.le_trans hnumber hle, rfl⟩
      · exact .inr ⟨s', c, t, hhappens.more turn, hgiven, ht⟩
    have hle : s.anonymous ≤ (turn.after s).anonymous := hs.anonymous_le_turn turn
    cases turn with
    | supply memory => exact hold hfind hle
    | line line =>
      rcases hs.line_cases line with hsame | ⟨c, hsucceeds, hrebinds⟩
      · exact hold (by rwa [hsame] at hfind) hle
      · cases hrebinds with
        | given key w hgiven hbindings =>
          have hinsert := hfind
          rw [(Prod.mk.inj hbindings).1, Names.find?_insert] at hinsert
          split at hinsert
          · next hkey =>
            exact .inr ⟨s, c, _, ⟨turns, line, [], rfl, hstate.symm, hsucceeds⟩, by rw [hgiven, hkey], hfind⟩
          · exact hold hinsert hle
        | made w hgiven hbindings =>
          have hinsert := hfind
          rw [(Prod.mk.inj hbindings).1, Names.find?_insert] at hinsert
          split at hinsert
          · next hkey =>
            exact .inl ⟨s.anonymous + 1, Nat.le_of_eq (Prod.mk.inj hbindings).2.symm, hkey⟩
          · exact hold hinsert hle
        | kept hgiven hkept hanonymous => exact hold (hkept hfind) hle

/-- A name that a line gave is made up later, and what was under it is lost. -/
theorem given_name_is_overwritten :
    let s := (new ⟨4, 2, none⟩).after [.line "str _1 x"]
    let t := Turn.after (.line "cons") s
    s.Succeeds "cons" (.cons none (.literal .nil) (.literal .nil)) t ∧
      (∃ header body, s.names.find? "_1" = some (.object header body)) ∧
      ∃ handle, t.names = s.names.insert "_1" (.cons .cons handle) := by
  intro s t
  exact ⟨⟨rfl, _, rfl⟩, ⟨_, _, rfl⟩, _, rfl⟩

/-- **A cell that is given no name gets one that no such cell has got before, in every state of a
session.** The name was bound only if a line that gives this very name put there what is under it. -/
theorem made_up_names_differ (sizing : Sizing) (turns : List Turn) {line : String}
    (h : ((new sizing).after turns).Succeeds line (.cons none car cdr) t) :
    let s := (new sizing).after turns
    (∃ handle, s.memory.heap.tables.color? handle.location = none ∧
        t.memory.heap.resolve handle = some handle.location ∧
        t.names = s.names.insert s.madeUp (.cons .cons handle)) ∧
      (∀ s' car' cdr' t', (new sizing).Happens turns s' (.cons none car' cdr') t' → s'.madeUp ≠ s.madeUp) ∧
      ∀ v, s.names.find? s.madeUp = some v →
        ∃ s' c t', (new sizing).Happens turns s' c t' ∧ c.given? = some s.madeUp ∧
          t'.names.find? s.madeUp = some v := by
  intro s
  have hnew : ∀ turns, ((new sizing).after turns).Counted [] := fun turns => (counted_new sizing).after turns
  refine ⟨?_, ?_, ?_⟩
  · obtain ⟨handle, hdead, hlive, hbindings⟩ := h.makes (hnew turns).sound
    exact ⟨handle, hdead, hlive, (Prod.mk.inj hbindings).1⟩
  · rintro s' car' cdr' t' ⟨before, earlier, more, hturns, rfl, hline⟩ hname
    obtain ⟨_, -, -, hbindings⟩ := hline.makes (hnew before).sound
    -- the number was counted then, and has not been taken back since
    have ht' : Turn.after (.line earlier) ((new sizing).after before) = t' := by
      obtain ⟨-, text, hran⟩ := hline
      rw [Turn.after, hran, Outcome.state]
    have hle := ((hnew before).turn (.line earlier)).anonymous_le more
    rw [ht', (Prod.mk.inj hbindings).2] at hle
    have hs : t'.after more = s := by
      show _ = (new sizing).after turns
      rw [hturns, after_append, after_cons, ht']
    rw [hs] at hle
    have hnumber := numbered_injective hname
    omega
  · intro v hfind
    rcases bound_cases sizing turns hfind with ⟨number, hnumber, hname⟩ | hhappens
    · have hsucc := numbered_injective hname
      have hle : number ≤ s.anonymous := hnumber
      omega
    · exact hhappens

/-- The second cell that is given no name, after one that is given a name. -/
theorem second_made_up_name :
    let s := (new ⟨4, 2, none⟩).after [.line "cons", .line "cons a"]
    s.Succeeds "cons" (.cons none (.literal .nil) (.literal .nil)) (Turn.after (.line "cons") s) ∧
      s.madeUp = "_2" ∧
      ∃ handle, (Turn.after (.line "cons") s).names = s.names.insert "_2" (.cons .cons handle) := by
  intro s
  have h : s.Succeeds "cons" (.cons none (.literal .nil) (.literal .nil)) (Turn.after (.line "cons") s) :=
    ⟨rfl, _, rfl⟩
  obtain ⟨⟨handle, -, -, hnames⟩, -⟩ := made_up_names_differ ⟨4, 2, none⟩ [.line "cons", .line "cons a"] h
  have hsecond : s.anonymous = 1 := rfl
  exact ⟨h, by rw [madeUp, hsecond]; decide, handle, hnames⟩

end Session

end ConsHeap.Console
