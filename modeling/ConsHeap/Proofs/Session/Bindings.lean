import ConsHeap.Proofs.Session.Sound

/-!
# Bindings of a session

A session takes lines, in any order, and goes on after those that fail. The system may have other memory to
give at any time.

* `Session.Turn`, `Session.after`: the turns of a session and the state that they lead to.
* `Session.Drops`: the names that a sweep or a collection drops.
* `Session.Sound.perform`: every command behaves.
* `Session.bindings_never_dangle`: **names are bound to live cells in every state, exactly the names of
  reclaimed cells are dropped and reported, no line fails because of a handle, and no audit finds anything.**
-/

namespace ConsHeap.Console

/-- The operands of a command. -/
def Command.operands : Command → List Operand
  | cons _ car cdr => [car, cdr]
  | setChild _ _ x => [x]
  | _ => []

theorem plain_operandOf (word : String) : (operandOf word).Plain := by
  unfold operandOf
  split
  · trivial
  split
  · trivial
  split
  · trivial
  split <;> trivial

namespace Command

variable {c : Command} {x : Operand}

/-- Words that ask for something ask for a command with operands that can be written down, or are wrong as a
command. -/
theorem ofWords?_cases {words : List String} {r : Except Reason Command} (h : ofWords? words = some r) :
    (∃ text, r = .error (.command text)) ∨ ∃ c, r = .ok c ∧ ∀ x ∈ c.operands, x.Plain := by
  unfold ofWords? at h
  split at h
  case h_11 word =>
    unfold budgetOf at h
    split at h
    · cases h
      exact .inr ⟨_, rfl, by simp [operands]⟩
    · cases h
      exact .inl ⟨_, rfl⟩
  case h_20 => cases h
  all_goals
    cases h
    refine .inr ⟨_, rfl, ?_⟩
    simp [operands, plain_operandOf]

/-- A line asks for nothing, or for a command with operands that can be written down, or is wrong as a
command. -/
theorem parse_cases (line : String) :
    (∃ text, parse line = .error (.command text)) ∨ parse line = .ok none ∨
      ∃ c, parse line = .ok (some c) ∧ ∀ x ∈ c.operands, x.Plain := by
  unfold parse
  simp only
  split
  · exact .inr (.inl rfl)
  · split
    · next r hwords =>
      rcases ofWords?_cases hwords with ⟨text, rfl⟩ | ⟨c, rfl, hplain⟩
      · exact .inl ⟨text, rfl⟩
      · exact .inr (.inr ⟨c, rfl, hplain⟩)
    · exact .inl ⟨_, rfl⟩

end Command

namespace Session

variable {s t : Session} {v : Value} {name : String}

/-! ## Names of dead cells -/

/-- A sweep or a collection `act` of the heap has been run, the names `dead` were dropped, and `text` says
so. They are the names of the cells that were reclaimed. -/
structure Drops (act : HeapM Nat) (s : Session) (dead : List String) (text : String) (t : Session) :
    Prop where
  shown : ∃ count, act s.memory.heap = .ok count t.memory.heap ∧
    text = if dead.isEmpty then s!"reclaimed {count}"
      else s!"reclaimed {count}; released " ++ ", ".intercalate dead
  rising : dead.Pairwise (· < ·)
  mem_iff : ∀ name, name ∈ dead ↔ ∃ tag handle, s.names.find? name = some (.cons tag handle) ∧
    t.memory.heap.resolve handle = none
  names : ∀ name, t.names.find? name = if name ∈ dead then none else s.names.find? name

/-- Dead are the conses whose handles do not resolve. -/
theorem isDead_iff {h : Heap} :
    isDead h v = true ↔ ∃ tag handle, v = .cons tag handle ∧ h.resolve handle = none := by
  cases v with
  | cons tag handle =>
    cases hres : h.resolve handle with
    | none =>
      have hcolor : h.color (.cons tag handle) = .error .foreign := by
        rw [Heap.color, Heap.live, Value.handle?]
        simp only [hres]
        rfl
      simp [isDead, Value.isCons, hcolor, hres]
    | some l =>
      obtain ⟨c, hc⟩ := Heap.color_of_resolve hres tag
      simp [isDead, Value.isCons, hc, hres]
  | _ => simp [isDead, Value.isCons]

/-- A cons that is not dead may be stored. -/
theorem accepts_of_not_isDead {h : Heap} (hsimple : v.isCons = true ∨ v.handles = [])
    (hlive : isDead h v = false) : h.accepts v := by
  rw [Heap.accepts, List.all_eq_true]
  intro handle hmem
  rcases hsimple with hcons | hnone
  · cases v with
    | cons tag other =>
      obtain rfl := List.mem_singleton.1 hmem
      rw [Option.isSome_iff_ne_none]
      intro hres
      rw [isDead_iff.2 ⟨tag, handle, rfl, hres⟩] at hlive
      cases hlive
    | _ => cases hcons
  · rw [hnone] at hmem
    cases hmem

/-- The names of dead cells are dropped and reported. -/
theorem dropDead_eq (count : Nat) (s : Session) :
    let dead := (s.names.keep (isDead s.memory.heap)).keys
    dropDead count s = .ok
      (if dead.isEmpty then s!"reclaimed {count}"
        else s!"reclaimed {count}; released " ++ ", ".intercalate dead)
      { s with names := s.names.keep fun v => !isDead s.memory.heap v } := by
  intro dead
  simp only [dropDead, bind_get, bind_modify]
  split <;> rfl

namespace Sound

variable (hs : s.Sound)
include hs

/-- When the names of dead cells have been dropped after a sweep or a collection, the session is sound. -/
theorem reclaim {act : HeapM Nat} (op : Operation Value)
    (hop : op.run = Result.count <$> Memory.onHeap act) (hops : op.operands = [])
    (hlist : ∀ items, op ≠ .list items) :
    Behaves (fun text t => ∃ dead, s.Drops act dead text t)
      ((onHeap act >>= fun count => dropDead count) s) := by
  obtain ⟨⟨h, ledger⟩, names, anonymous⟩ := s
  rcases Operation.heap_act_cases hop hlist hs.memory.sound with
    ⟨count, h', w, hact, hb, he⟩ | ⟨e, hwhy, hact⟩
  · rw [bind_ok (by rw [onHeap, onMemory, Memory.onHeap_ok hact]), dropDead_eq]
    have hg : Memory.Good ⟨h', ledger⟩ := ⟨hb.sound, by rw [hb.view]; exact he.safe hs.memory.safe⟩
    have hnames : names.Sorted := hs.names
    have hdead : ∀ name, name ∈ (names.keep (isDead h')).keys ↔
        ∃ tag handle, names.find? name = some (.cons tag handle) ∧ h'.resolve handle = none := by
      intro name
      rw [Names.mem_keys_keep hnames]
      constructor
      · rintro ⟨v, hfind, hv⟩
        obtain ⟨tag, handle, rfl, hres⟩ := isDead_iff.1 hv
        exact ⟨tag, handle, hfind, hres⟩
      · rintro ⟨tag, handle, hfind, hres⟩
        exact ⟨_, hfind, isDead_iff.2 ⟨tag, handle, rfl, hres⟩⟩
    have hkept : ∀ name, (names.keep fun v => !isDead h' v).find? name =
        if name ∈ (names.keep (isDead h')).keys then none else names.find? name := by
      intro name
      have hiff : name ∈ (names.keep (isDead h')).keys ↔ _ := Names.mem_keys_keep hnames
      rw [Names.find?_keep hnames]
      cases hfind : names.find? name with
      | none => simp
      | some v => cases hv : isDead h' v <;> simp [hiff, hfind, hv]
    have hfound : ∀ {name v}, (names.keep fun v => !isDead h' v).find? name = some v →
        names.find? name = some v ∧ isDead h' v = false := by
      intro name v hfind
      rw [Names.find?_keep hnames, Option.filter_eq_some_iff] at hfind
      exact ⟨hfind.1, by simpa using hfind.2⟩
    refine ⟨⟨hg, hnames.keep _, ?_, fun hfind => hs.simple (hfound hfind).1⟩, _, ⟨count, hact, rfl⟩,
      (hnames.keep _).keys, hdead, hkept⟩
    intro name v hname
    obtain ⟨hfind, hlive⟩ := hfound hname
    exact accepts_of_not_isDead (hs.simple hfind) hlive
  · rw [bind_error (by rw [onHeap, onMemory, Memory.onHeap_error hact])]
    exact ⟨hs, _, rfl, proper_of_refuses hwhy (by simp [hops])⟩

/-! ## Commands -/

/-- A live cons is described and put under a name. -/
theorem nameCons (name : String) (hv : s.memory.heap.accepts v) (hcons : v.isCons = true) :
    Behaves (fun _ _ => True) ((do
      let text ← Session.describe name v
      Session.bind name v
      return text : SessionM String) s) := by
  refine (hs.describe name hv).bind ?_
  rintro text _ - rfl
  refine (hs.bind name hv (.inl hcons)).bind fun _ t ht _ => ?_
  exact ht.pure trivial

/-- A new cell is put under a name. -/
theorem cons (name : Option String) {car cdr : Operand} (hcar : car.Plain) (hcdr : cdr.Plain) :
    Behaves (fun _ _ => True) (Session.cons name car cdr s) := by
  unfold Session.cons
  refine (hs.eval hcar).bind ?_
  rintro x _ - ⟨rfl, hx⟩
  refine (hs.eval hcdr).bind ?_
  rintro y _ - ⟨rfl, hy⟩
  refine (hs.operate (.cons .cons x y) rfl (by simp) (by simp) (by simp [Operation.operands, hx, hy])).bind ?_
  rintro v t ht ⟨-, he⟩
  have hv : t.memory.heap.accepts v ∧ v.isCons = true := by
    cases he with
    | cons _ _ hc => exact ⟨Heap.accepts_iff.2 (hc.accepts_new _), rfl⟩
  cases name with
  | some name => exact ht.nameCons name hv.1 hv.2
  | none =>
    have ht' : Sound { t with anonymous := t.anonymous + 1 } := ⟨ht.memory, ht.names, ht.accepted, ht.simple⟩
    exact ht'.nameCons _ hv.1 hv.2

/-- An audit finds nothing. -/
theorem check_eq : Session.perform .check s = .ok "ok" s := by
  rw [Session.perform, bind_get, hs.memory.check]
  rfl

/-- **Every command behaves.** -/
theorem perform {c : Command} (hplain : ∀ x ∈ c.operands, x.Plain) :
    Behaves (fun _ _ => True) (Session.perform c s) := by
  cases c with
  | cons name car cdr =>
    have hcar := hplain car (by simp [Command.operands])
    have hcdr := hplain cdr (by simp [Command.operands])
    exact hs.cons name hcar hcdr
  | root name =>
    refine (hs.lookup name).bind ?_
    rintro v _ - ⟨rfl, hv⟩
    refine (hs.operate (.root v) rfl (by simp) (by simp) (by simp [Operation.operands, hv])).bind ?_
    rintro - t ht -
    refine (ht.askSound (ht.memory.rootCount_ok v)).bind ?_
    rintro n _ - rfl
    exact ht.pure trivial
  | unroot name =>
    refine (hs.lookup name).bind ?_
    rintro v _ - ⟨rfl, hv⟩
    refine (hs.operate (.unroot v) rfl (by simp) (by simp) (by simp [Operation.operands, hv])).bind ?_
    rintro - t ht ⟨hkept, -⟩
    exact (ht.describe name (hkept v hv)).mono fun _ _ _ => trivial
  | setChild side target x =>
    refine (hs.lookup target).bind ?_
    rintro v _ - ⟨rfl, hv⟩
    refine (hs.eval (hplain x (by simp [Command.operands]))).bind ?_
    rintro y _ - ⟨rfl, hy⟩
    refine (hs.operate (.setChild side v y) rfl (by simp) (by simp)
      (by simp [Operation.operands, hv, hy])).bind ?_
    rintro - t ht ⟨hkept, -⟩
    exact (ht.print (hkept v hv)).mono fun _ _ _ => trivial
  | text name content =>
    refine (Behaves.bind (Q := fun o t => o.value.handles = []) (x := onMemory (Memory.text content)) ?_ ?_)
    · exact ⟨hs.withLedger _, rfl⟩
    · intro o t ht ho
      have hv : t.memory.heap.accepts o.value := by
        rw [Heap.accepts, ho]
        rfl
      refine (ht.bind name hv (.inr ho)).bind fun _ w hw _ => ?_
      exact hw.pure trivial
  | scan budget =>
    refine (hs.operate (.scan budget) rfl (by simp) (by simp) (by simp [Operation.operands])).bind ?_
    rintro n t ht -
    exact ht.pure trivial
  | sweep => exact (hs.reclaim .sweep rfl rfl (by simp)).mono fun _ _ _ => trivial
  | collect => exact (hs.reclaim .collect rfl rfl (by simp)).mono fun _ _ _ => trivial
  | stats =>
    refine (hs.askSound hs.memory.occupancy_ok).bind ?_
    rintro o _ - rfl
    exact hs.pure trivial
  | check =>
    rw [hs.check_eq]
    exact ⟨hs, trivial⟩
  | color name =>
    refine (hs.lookup name).bind ?_
    rintro v _ - ⟨rfl, hv⟩
    exact (hs.describe name hv).mono fun _ _ _ => trivial
  | refs name =>
    refine (hs.lookup name).bind ?_
    rintro v _ - ⟨rfl, hv⟩
    cases v with
    | object header body => exact hs.pure trivial
    | _ =>
      refine (hs.askSound (hs.memory.rootCount_ok _)).bind ?_
      rintro n _ - rfl
      exact hs.pure trivial
  | print name =>
    refine (hs.lookup name).bind ?_
    rintro v _ - ⟨rfl, hv⟩
    exact (hs.print hv).mono fun _ _ _ => trivial
  | help => exact hs.pure trivial

end Sound

/-- A line that asks for a command does what the command does. -/
theorem run_of_parse {line : String} {c : Command} (h : Command.parse line = .ok (some c)) (s : Session) :
    run line s = (some <$> perform c) s := by
  rw [run, bind_ok (answer_ok h)]
  rfl

/-- Every line behaves. -/
theorem Sound.run (hs : s.Sound) (line : String) : Behaves (fun _ _ => True) (run line s) := by
  rcases Command.parse_cases line with ⟨text, he⟩ | hnone | ⟨c, hc, hplain⟩
  · rw [Session.run, bind_error (answer_error he)]
    exact ⟨hs, _, rfl, by simp [Proper]⟩
  · rw [Session.run, bind_ok (answer_ok hnone)]
    exact hs.pure trivial
  · rw [Session.run, bind_ok (answer_ok hc)]
    refine (hs.perform hplain).bind ?_
    rintro text t ht -
    exact ht.pure trivial

/-! ## Turns -/

/-- What happens in a session. -/
inductive Turn where
  | line (text : String)
  /-- The system has other memory to give from now on. -/
  | supply (memory : Paging.Supply)

/-- The session after a turn, whether a line failed or not. -/
def Turn.after : Turn → Session → Session
  | line text, s => Outcome.state (run text s)
  | supply memory, s => { s with memory := { s.memory with heap := s.memory.heap.supplied memory } }

/-- The session after a list of turns. -/
def after (s : Session) (turns : List Turn) : Session := turns.foldl (fun s turn => turn.after s) s

theorem after_cons (s : Session) (turn : Turn) (turns : List Turn) :
    s.after (turn :: turns) = (turn.after s).after turns := rfl

theorem Sound.turn (hs : s.Sound) (turn : Turn) : (turn.after s).Sound := by
  cases turn with
  | line text =>
    have h := hs.run text
    rw [Turn.after]
    cases hrun : Session.run text s with
    | ok a t =>
      rw [hrun] at h
      exact h.1
    | error f t =>
      rw [hrun] at h
      exact h.1
  | supply memory => exact ⟨⟨hs.memory.sound.supplied memory, hs.memory.safe⟩, hs.names, hs.accepted, hs.simple⟩

theorem Sound.after (hs : s.Sound) (turns : List Turn) : (s.after turns).Sound := by
  induction turns generalizing s with
  | nil => exact hs
  | cons turn turns ih => exact ih (hs.turn turn)

/-- **In every state of a session, every name that is bound to a cons is bound to a live cell. A sweep or a
collection that succeeds drops the names of the cells that it reclaimed and reports them in rising order, and
leaves every other name bound as it was. No line fails because a handle is of a dead cell or of another heap,
or because a table is broken, and every audit finds nothing.** -/
theorem bindings_never_dangle (sizing : Sizing) (turns : List Turn) :
    let s := (new sizing).after turns
    (∀ name tag handle, s.names.find? name = some (.cons tag handle) →
        s.memory.heap.resolve handle = some handle.location ∧
          s.memory.heap.tables.color? handle.location ≠ none) ∧
      (∀ line text t, run line s = .ok (some text) t →
        (Command.parse line = .ok (some .sweep) → ∃ dead, s.Drops Heap.sweep dead text t) ∧
          (Command.parse line = .ok (some .collect) → ∃ dead, s.Drops Heap.collect dead text t)) ∧
      (∀ line f t, run line s = .error f t →
        ∃ r, f = .error r ∧ r ≠ .heap .foreign ∧ ∀ reason, r ≠ .heap (.corrupt reason)) ∧
      ∀ line, Command.parse line = .ok (some .check) → run line s = .ok (some "ok") s := by
  intro s
  have hs : s.Sound := (sound_new sizing).after turns
  refine ⟨?_, ?_, ?_, ?_⟩
  · intro name tag handle hfind
    have hres := Heap.live_of_accepts (hs.accepted hfind)
    obtain ⟨-, -, hlive, -⟩ := Heap.resolve_eq_some_iff.1 hres
    exact ⟨hres, Option.isSome_iff_ne_none.1 hlive⟩
  · intro line text t hrun
    have hdrops : ∀ {c act} (op : Operation Value), Command.parse line = .ok (some c) →
        perform c = (onHeap act >>= fun count => dropDead count) →
        op.run = Result.count <$> Memory.onHeap act → op.operands = [] → (∀ items, op ≠ .list items) →
        ∃ dead, s.Drops act dead text t := by
      intro c act op hc hperform hop hops hlist
      have h := hs.reclaim op hop hops hlist
      rw [run_of_parse hc, hperform] at hrun
      cases hact : (onHeap act >>= fun count => dropDead count) s with
      | ok a u =>
        rw [map_ok hact] at hrun
        rw [hact] at h
        cases hrun
        exact h.2
      | error e u =>
        rw [map_error hact] at hrun
        cases hrun
    exact ⟨fun hc => hdrops .sweep hc rfl rfl rfl (by simp),
      fun hc => hdrops .collect hc rfl rfl rfl (by simp)⟩
  · intro line f t hrun
    have h := hs.run line
    rw [hrun] at h
    exact h.2
  · intro line hc
    rw [run_of_parse hc, map_ok hs.check_eq]

end Session

end ConsHeap.Console
