import ConsHeap.Proofs.Script.Heaps
import ConsHeap.Proofs.Staleness
import Mathlib.Data.Nat.ModEq

/-!
# Hosts refine registers of handles

Every heap of a host has a register: the directory of what its handles stand for, and the handles that it has
issued. Whatever is done to the host, the registers follow, and the heaps answer as they say. Heaps know their own
handles by an identity of 32 bits. It is the number of the heap, counted from the identity of the first one, and
comes back after `2 ^ 32` heaps.

* `Register`, `Registers`: what a heap has issued and what it stands for.
* `Host.Follows`: what a deed does to the registers.
* `Host.Conforms`: heaps answer as their registers say, and reject what other heaps issued.
* `Host.Refines`: a run that the registers follow, with such answers in every state.
* `Host.uses`: how often storage of a heap is taken into use in a run.
* `Host.Registered`: the invariant.
* `Host.runs_refine_registers`: **every run refines the registers, when no storage is reused `2 ^ 32` times or more.
  A handle is rejected by the heaps that did not issue it, unless their numbers differ from that of the heap that did
  by a multiple of `2 ^ 32`.**
* `Host.identity_comes_back`: the heap that is made `2 ^ 32` heaps later takes it for its own.
-/

namespace ConsHeap

open Script

/-- What the handles of a heap stand for, and the handles that the heap has issued. -/
structure Register where
  directory : Directory
  issued : Set Handle

namespace Register

/-- Nothing was issued. -/
def empty : Register := ⟨.empty, ∅⟩

/-- Whatever stands for something was issued. -/
def advance (r : Register) (d : Directory) : Register := ⟨d, r.issued ∪ d.handles⟩

/-- The register is that of a heap with identity `id`, whose storage was taken into use as often as `b` says. No
handle was issued for an older cell. -/
structure Records (id : UInt32) (b : Location → Nat) (v : View) (r : Register) : Prop where
  identity : v.id = id
  aged : v.Aged b
  directory : r.directory = v.directory
  issued : r.issued ⊆ View.past id b

variable {id : UInt32} {b : Location → Nat} {m : Memory} {r : Register} {op : Operation Value}

theorem records_start (id : UInt32) (sizing : Sizing) :
    Records id (fun _ => 0) (Heap.new id sizing).view empty where
  identity := rfl
  aged := Memory.aged_start id sizing .empty
  directory := (Memory.directory_start id sizing .empty).symm
  issued := Set.empty_subset _

/-- **The register of a heap takes the step of every operation.** -/
theorem Records.step (hr : Records id b m.heap.view r) (hg : m.Good)
    (hage : ∀ l, m.heap.view.age ((Move.operate op).after m).heap.view b l ≤ UInt32.size) :
    ∃ result, Outcome.answer (op.run m) = result.mapError Failure.error ∧
      r.directory.Step r.issued op result ((Move.operate op).after m).heap.view.directory ∧
      Records id (m.heap.view.age ((Move.operate op).after m).heap.view b) ((Move.operate op).after m).heap.view
        (r.advance ((Move.operate op).after m).heap.view.directory) := by
  obtain ⟨hid, haged, hdirectory, hissued⟩ := hr
  obtain ⟨haged', hid'⟩ := hg.aged_after haged (.operate op)
  rw [← hid] at hissued
  obtain ⟨result, hanswer, hstep⟩ := hg.step haged hissued op hage
  have hsame : ((Move.operate op).after m).heap.view.id = id := Eq.trans hid' hid
  refine ⟨result, hanswer, hdirectory ▸ hstep, hsame, haged', rfl, Set.union_subset ?_ ?_⟩
  · rw [← hid]
    exact hissued.trans (View.past_mono (View.le_age _ _ _))
  · rw [← hsame]
    exact haged'.handles_subset

end Register

/-- The registers of the heaps of a host, by number. -/
abbrev Registers := Nat → Register

namespace Script.Host

variable {host t : Host} {d : Deed} {deeds : List Deed} {r : Registers} {first : UInt32} {b : Nat → Location → Nat}
  {n k : Nat} {h : Heap} {v w : View} {l : Location} {handle : Handle}

/-! ## The specification -/

/-- Registers follow a deed. When it lets a heap run an operation, the directory of that heap takes the step of the
operation, with the same answer. All other registers stay, and all of them do in any other deed. -/
inductive Follows (host : Host) (r : Registers) (d : Deed) : Registers → Prop where
  | operation {n : Nat} {h : Heap} {op : Operation Value} {result : Except HeapError Result} {d' : Directory} :
    d.Runs host n h op → Outcome.answer (op.run ⟨h, host.ledger⟩) = result.mapError Failure.error →
    (r n).directory.Step (r n).issued op result d' → Follows host r d (Function.update r n ((r n).advance d'))
  | other : (∀ n h op, ¬ d.Runs host n h op) → Follows host r d r

/-- Every heap answers as its register says. Heaps issue different handles and reject those of others, unless their
numbers differ by a multiple of `2 ^ 32`. -/
structure Conforms (host : Host) (r : Registers) : Prop where
  own : ∀ {n h}, host.heaps[n]? = some h → (r n).directory.Answers h
  apart : ∀ {n k handle}, ¬ n ≡ k [MOD UInt32.size] → handle ∈ (r n).issued → handle ∉ (r k).issued
  foreign : ∀ {n k h handle}, ¬ n ≡ k [MOD UInt32.size] → host.heaps[n]? = some h → handle ∈ (r k).issued →
    Memory.Rejects ⟨h, host.ledger⟩ handle

/-- Registers follow all deeds of a run, and the heaps answer as they say in every state. -/
inductive Refines : Host → Registers → List Deed → Prop where
  | nil {host : Host} {r : Registers} : host.Conforms r → Refines host r []
  | cons {host : Host} {r r' : Registers} {d : Deed} {deeds : List Deed} :
    host.Conforms r → Follows host r d r' → Refines (d.after host) r' deeds → Refines host r (d :: deeds)

/-- One where a cell of heap `n` comes to life, and zero elsewhere. -/
def births (host t : Host) (n : Nat) (l : Location) : Nat :=
  match host.views[n]?, t.views[n]? with
  | some v, some w => v.births w l
  | _, _ => 0

/-- How often storage of heap `n` at a location is taken into use in a run. -/
def uses (n : Nat) (l : Location) : Host → List Deed → Nat
  | _, [] => 0
  | host, d :: deeds => births host (d.after host) n l + uses n l (d.after host) deeds

theorem births_le_one (host t : Host) (n : Nat) (l : Location) : births host t n l ≤ 1 := by
  unfold births
  split
  · exact View.births_le_one ..
  · exact Nat.zero_le 1

theorem uses_le_length (n : Nat) (l : Location) (host : Host) (deeds : List Deed) :
    uses n l host deeds ≤ deeds.length := by
  induction deeds generalizing host with
  | nil => exact Nat.le_refl 0
  | cons d deeds ih =>
    have hfirst := births_le_one host (d.after host) n l
    have hrest := ih (d.after host)
    rw [uses, List.length_cons]
    omega

theorem uses_append (n : Nat) (l : Location) (host : Host) (deeds deeds' : List Deed) :
    uses n l host (deeds ++ deeds') = uses n l host deeds + uses n l (host.runs deeds) deeds' := by
  induction deeds generalizing host with
  | nil => exact (Nat.zero_add _).symm
  | cons d deeds ih => rw [List.cons_append, uses, uses, ih, Nat.add_assoc, runs, runs, List.foldl_cons]

/-! ## Identities -/

/-- The identity of heap `n`, where that of the first one is `first`. -/
def identity (first : UInt32) (n : Nat) : UInt32 := first + UInt32.ofNat n

theorem identity_zero (first : UInt32) : identity first 0 = first := UInt32.add_zero first

theorem identity_succ (first : UInt32) (n : Nat) : identity first n + 1 = identity first (n + 1) := by
  rw [identity, identity, UInt32.ofNat_add, ← UInt32.add_assoc]
  rfl

theorem identity_add_one (first : UInt32) (n : Nat) : identity (first + 1) n = identity first (n + 1) := by
  rw [← identity_succ, identity, identity, UInt32.add_assoc, UInt32.add_comm 1, UInt32.add_assoc]

/-- Two heaps have one identity just when their numbers differ by a multiple of `2 ^ 32`. -/
theorem identity_eq_iff : identity first n = identity first k ↔ n ≡ k [MOD UInt32.size] := by
  rw [identity, identity, UInt32.add_right_inj, ← UInt32.toNat_inj, UInt32.toNat_ofNat', UInt32.toNat_ofNat']
  rfl

/-! ## The invariant -/

/-- The registers are those of the heaps, whose identities are counted from `first`. Storage of heap `n` was taken
into use as often as `b n` says. -/
structure Registered (first : UInt32) (b : Nat → Location → Nat) (host : Host) (r : Registers) : Prop where
  counted : host.Counted []
  next : host.nextId = identity first host.heaps.size
  records : ∀ {n : Nat} {v : View}, host.views[n]? = some v → (r n).Records (identity first n) (b n) v
  unused : ∀ {n}, host.heaps.size ≤ n → r n = .empty ∧ b n = fun _ => 0

theorem registered_start (first : UInt32) (sizing : Sizing) :
    Registered first (fun _ _ => 0) (start first sizing) fun _ => .empty where
  counted := counted_start first sizing
  next := rfl
  records := by
    intro n v hv
    have hview : (start first sizing).views = #[(Heap.new first sizing).view] := by simp [views, start]
    rw [hview, List.getElem?_toArray, List.getElem?_singleton] at hv
    split at hv
    · next heq =>
      cases hv
      rw [heq, identity_zero]
      exact Register.records_start first sizing
    · cases hv
  unused := fun _ => ⟨rfl, rfl⟩

namespace Registered

variable (hr : Registered first b host r)
include hr

/-- Handles have the identity of the heap that issued them. -/
theorem heap_of_issued (hmem : handle ∈ (r n).issued) : handle.heap = identity first n := by
  cases hn : host.views[n]? with
  | some v => exact ((hr.records hn).issued hmem).1
  | none =>
    rw [Array.getElem?_eq_none_iff, size_views] at hn
    rw [(hr.unused hn).1] at hmem
    cases hmem

/-- **The heaps answer as the registers say.** -/
theorem conforms : host.Conforms r := by
  have hother : ∀ {n k : Nat} {handle : Handle}, ¬ n ≡ k [MOD UInt32.size] → handle ∈ (r k).issued →
      handle.heap ≠ identity first n := by
    intro n k handle hne hmem heq
    exact hne (identity_eq_iff.1 (heq.symm.trans (hr.heap_of_issued hmem)))
  constructor
  · intro n h hn
    rw [(hr.records (view? hn)).directory]
    exact (hr.counted.memory hn).answers
  · intro n k handle hne hmem hmem'
    exact hother hne hmem' (hr.heap_of_issued hmem)
  · intro n k h handle hne hn hmem
    refine Memory.rejects_of_not_resolve (Heap.resolve_eq_none_iff.2 fun hres => ?_)
    exact hother hne hmem ((Heap.resolve_eq_some_iff.1 hres).1.trans (hr.records (view? hn)).identity)

/-- One heap has another view, and its register is that of this view. -/
theorem update {c : Location → Nat} {q : Register} (hlt : n < host.heaps.size)
    (hviews : t.views = host.views.setIfInBounds n w) (hnext : t.nextId = host.nextId) (hc : t.Counted [])
    (hq : q.Records (identity first n) c w) :
    Registered first (Function.update b n c) t (Function.update r n q) := by
  have hsize : t.heaps.size = host.heaps.size := by
    rw [← size_views, hviews, Array.size_setIfInBounds, size_views]
  refine ⟨hc, ?_, ?_, ?_⟩
  · rw [hnext, hsize, hr.next]
  · intro k v hv
    by_cases hk : k = n
    · subst hk
      rw [hviews, Array.getElem?_setIfInBounds_self_of_lt (by rwa [size_views])] at hv
      cases hv
      rw [Function.update_self, Function.update_self]
      exact hq
    · rw [hviews, Array.getElem?_setIfInBounds_ne (Ne.symm hk)] at hv
      rw [Function.update_of_ne hk, Function.update_of_ne hk]
      exact hr.records hv
  · intro k hk
    have hne : k ≠ n := by omega
    rw [Function.update_of_ne hne, Function.update_of_ne hne]
    exact hr.unused (by omega)

/-- A heap runs an operation, and its register takes the step. -/
theorem operation {op : Operation Value} (hruns : d.Runs host n h op)
    (hviews : (d.after host).views = host.views.setIfInBounds n ((Move.operate op).after ⟨h, host.ledger⟩).heap.view)
    (hnext : (d.after host).nextId = host.nextId)
    (huses : ∀ k l, b k l + births host (d.after host) k l ≤ UInt32.size) :
    ∃ b' r', Registered first b' (d.after host) r' ∧ Follows host r d r' ∧
      ∀ k l, b' k l ≤ b k l + births host (d.after host) k l := by
  have hn := hruns.heap?
  have hlt : n < host.heaps.size := (Array.getElem?_eq_some_iff.1 hn).1
  have hborn : ∀ l, b n l + births host (d.after host) n l =
      h.view.age ((Move.operate op).after ⟨h, host.ledger⟩).heap.view (b n) l := by
    intro l
    rw [births, view? hn, hviews, Array.getElem?_setIfInBounds_self_of_lt (by rwa [size_views]), View.age]
  have hrecorded : (r n).Records (identity first n) (b n) (⟨h, host.ledger⟩ : Memory).heap.view := hr.records (view? hn)
  obtain ⟨result, hanswer, hstep, hrecords⟩ :=
    hrecorded.step (hr.counted.memory hn) fun l => (hborn l).ge.trans (huses n l)
  refine ⟨_, _, hr.update hlt hviews hnext (hr.counted.deed d).1 hrecords, .operation hruns hanswer hstep, ?_⟩
  intro k l
  by_cases hk : k = n
  · subst hk
    rw [Function.update_self, hborn]
  · rw [Function.update_of_ne hk]
    exact Nat.le_add_right _ _

/-- A heap is added, and its register is empty. -/
theorem addHeap {sizing : Sizing} (hviews : t.views = host.views.push (Heap.new host.nextId sizing).view)
    (hnext : t.nextId = host.nextId + 1) (hc : t.Counted []) : Registered first b t r := by
  have hsize : t.heaps.size = host.heaps.size + 1 := by rw [← size_views, hviews, Array.size_push, size_views]
  refine ⟨hc, ?_, ?_, fun hk => hr.unused (by omega)⟩
  · rw [hnext, hsize, hr.next, identity_succ]
  · intro k v hv
    rw [hviews, Array.getElem?_push, size_views] at hv
    split at hv
    · next heq =>
      cases hv
      obtain ⟨hempty, hzero⟩ := hr.unused heq.ge
      rw [hempty, hzero, heq, ← hr.next]
      exact Register.records_start host.nextId sizing
    · exact hr.records hv

/-- **The registers follow every deed.** -/
theorem deed (d : Deed) (huses : ∀ k l, b k l + births host (d.after host) k l ≤ UInt32.size) :
    ∃ b' r', Registered first b' (d.after host) r' ∧ Follows host r d r' ∧
      ∀ k l, b' k l ≤ b k l + births host (d.after host) k l := by
  have hc := (hr.counted.deed d).1
  cases host.changes d with
  | operation hruns hviews hnext => exact hr.operation hruns hviews hnext huses
  | addHeap sizing _ hruns hviews hnext =>
    exact ⟨b, r, hr.addHeap hviews hnext hc, .other hruns, fun _ _ => Nat.le_add_right _ _⟩
  | nothing hruns hviews hnext =>
    have hsize : (d.after host).heaps.size = host.heaps.size := by rw [← size_views, hviews, size_views]
    refine ⟨b, r, ⟨hc, ?_, ?_, ?_⟩, .other hruns, fun _ _ => Nat.le_add_right _ _⟩
    · rw [hnext, hsize, hr.next]
    · rw [hviews]
      exact hr.records
    · rw [hsize]
      exact hr.unused

/-- The registers follow every run. -/
theorem refines (deeds : List Deed) (huses : ∀ k l, b k l + uses k l host deeds ≤ UInt32.size) :
    host.Refines r deeds := by
  induction deeds generalizing host b r with
  | nil => exact .nil hr.conforms
  | cons d deeds ih =>
    have hsplit : ∀ k l, b k l + births host (d.after host) k l + uses k l (d.after host) deeds ≤ UInt32.size := by
      intro k l
      have hl := huses k l
      rwa [uses, ← Nat.add_assoc] at hl
    obtain ⟨b', r', hr', hfollows, hb⟩ := hr.deed d fun k l => (Nat.le_add_right _ _).trans (hsplit k l)
    refine .cons hr.conforms hfollows (ih hr' fun k l => ?_)
    exact (Nat.add_le_add_right (hb k l) _).trans (hsplit k l)

end Registered

/-! ## Runs -/

/-- **Every run of a host refines the registers of its heaps, when no storage is taken into use more than `2 ^ 32`
times.** The identity of the first heap is what the counter of the process gives. -/
theorem runs_refine_registers (first : UInt32) (sizing : Sizing) (deeds : List Deed)
    (huses : ∀ n l, uses n l (start first sizing) deeds ≤ UInt32.size) :
    (start first sizing).Refines (fun _ => .empty) deeds := by
  refine (registered_start first sizing).refines deeds fun n l => ?_
  rw [Nat.zero_add]
  exact huses n l

/-- A new cons on heap `n` with a number in it. -/
def makeCons (n : Nat) (target : Option String) (i : Int64) : Deed :=
  .command n target ⟨.act (.cons .cons (.literal (.integer i)) (.literal .nil)),
    by simp [Command.operands, Operation.operands, Operand.Plain, Value.IsAtom], by simp⟩

theorem plain_newHeap (sizing : Sizing) : (Command.newHeap sizing).Plain := ⟨by simp [Command.operands], by simp⟩

/-- One heap more. -/
def makeHeap (sizing : Sizing) : Deed := .command 0 none ⟨.newHeap sizing, plain_newHeap sizing⟩

/-- Two heaps with a cons each, of which either is asked to root the other's. -/
def crossed : List Deed :=
  [makeCons 0 (some "first") 1, makeHeap .standard, makeCons 1 (some "second") 2,
    .command 0 none ⟨.act (.root (.named "second")), by simp [Command.operands, Operation.operands], by simp⟩,
    .command 1 none ⟨.act (.root (.named "first")), by simp [Command.operands, Operation.operands], by simp⟩,
    .command 0 none ⟨.act .sweep, by simp [Command.operands, Operation.operands], by simp⟩]

/-- The counter of identities wraps between the two heaps. -/
theorem crossed_refines_registers :
    (∀ n l, uses n l (start (UInt32.ofNat (UInt32.size - 1)) .standard) crossed ≤ UInt32.size) ∧
      (start (UInt32.ofNat (UInt32.size - 1)) .standard).Refines (fun _ => .empty) crossed := by
  have huses : ∀ n l, uses n l (start (UInt32.ofNat (UInt32.size - 1)) .standard) crossed ≤ UInt32.size :=
    fun n l => (uses_le_length n l _ _).trans (by decide)
  exact ⟨huses, runs_refine_registers _ .standard crossed huses⟩

/-! ## Identities that come back -/

theorem after_makeHeap (sizing : Sizing) (host : Host) : (makeHeap sizing).after host = host.addHeap sizing := rfl

/-- Many heaps are made. They get the next identities, and nothing else changes. -/
theorem runs_makeHeap (sizing : Sizing) (count : Nat) : ∀ host : Host,
    let t := host.runs (List.replicate count (makeHeap sizing))
    t.ledger = host.ledger ∧ t.bindings = host.bindings ∧
      (∀ k < host.heaps.size, t.heaps[k]? = host.heaps[k]?) ∧
      ∀ k < count, t.heaps[host.heaps.size + k]? = some (.new (identity host.nextId k) sizing) := by
  induction count with
  | zero =>
    intro host
    exact ⟨rfl, rfl, fun _ _ => rfl, by simp⟩
  | succ count ih =>
    intro host
    obtain ⟨hledger, hbindings, hold, hnew⟩ := ih (host.addHeap sizing)
    rw [size_addHeap] at hold hnew
    rw [List.replicate_succ, runs, List.foldl_cons, after_makeHeap, ← runs]
    refine ⟨hledger, hbindings, fun k hk => ?_, fun k hk => ?_⟩
    · rw [hold k (by omega), addHeap, Array.getElem?_push, if_neg (by omega)]
    · cases k with
      | zero =>
        rw [hold _ (by omega), addHeap, identity_zero]
        exact Array.getElem?_push_size
      | succ k =>
        rw [← identity_add_one, ← Nat.add_assoc, Nat.add_right_comm]
        exact hnew k (by omega)

/-- No storage is taken into use when a heap is added. -/
theorem births_addHeap (host : Host) (sizing : Sizing) (n : Nat) (l : Location) :
    births host (host.addHeap sizing) n l = 0 := by
  have hviews : (host.addHeap sizing).views = host.views.push (Heap.new host.nextId sizing).view := Array.map_push
  rw [births, hviews]
  split
  · next v w hv hw =>
    have hlt : n < host.views.size := (Array.getElem?_eq_some_iff.1 hv).1
    rw [Array.getElem?_push, if_neg (Nat.ne_of_lt hlt), hv] at hw
    cases hw
    exact if_neg fun h => h.2 h.1
  · rfl

theorem uses_makeHeap (n : Nat) (l : Location) (sizing : Sizing) (count : Nat) (host : Host) :
    uses n l host (List.replicate count (makeHeap sizing)) = 0 := by
  induction count generalizing host with
  | zero => rfl
  | succ count ih => rw [List.replicate_succ, uses, after_makeHeap, births_addHeap, ih]

/-- What a cons has in it, when its variable and the heap are there. -/
theorem answer_child {name : String} {x y : Value} (side : Side) (hx : host.bindings.find? name = some x)
    (hn : host.heaps[n]? = some h) (hchild : h.child side x = .ok y) :
    Outcome.answer (host.perform n none (.child side (.named name))) = .ok (.value y) := by
  have heval : eval (.named name) host = .ok x host := by
    rw [eval, bind_get, Operand.value?]
    simp only [hx]
    rfl
  have hask : ask n (·.child side x) host = .ok y host := by
    rw [ask, heapAt, bind_assoc, bind_get, hn]
    simp only [pure_bind, hchild]
    rfl
  rw [perform, bind_ok heval, bind_ok hask]
  rfl

/-- A new heap with one cons, in which there is a number. -/
def withOne (i : Int64) : Memory :=
  Outcome.state ((Operation.cons .cons (.integer i) .nil).run ⟨.new 0 ⟨1, 1, none⟩, .empty⟩)

/-- The cons goes to heap `n`, and no variable changes. -/
theorem after_makeCons (hn : host.heaps[n]? = some (.new 0 ⟨1, 1, none⟩)) (hledger : host.ledger = .empty) :
    ((makeCons n none 2).after host).bindings = host.bindings ∧
      ((makeCons n none 2).after host).heaps = host.heaps.setIfInBounds n (withOne 2).heap := by
  have hoperands : (Operation.cons .cons (.literal (.integer 2)) (.literal .nil)).mapM eval host =
      .ok (.cons .cons (.integer 2) .nil) host := rfl
  have hrun : (Operation.cons .cons (.integer 2) .nil).run ⟨.new 0 ⟨1, 1, none⟩, .empty⟩ =
      .ok (.value (.cons .cons ⟨0, ⟨0, 0⟩, 1⟩)) (withOne 2) := rfl
  have hmade : onMemory n (Operation.cons .cons (.integer 2) .nil).run host =
      .ok (.value (.cons .cons ⟨0, ⟨0, 0⟩, 1⟩)) (host.put n (withOne 2)) := by
    rw [Counted.onMemory_eq _ hn, hledger, hrun]
  rw [makeCons, Deed.after, step_once, perform, bind_ok hoperands, bind_ok hmade]
  exact ⟨rfl, rfl⟩

/-- Two heaps of one identity answer for one handle, each with its own cell. -/
theorem answers_twice (hne : n ≠ 0) (hx : host.bindings.find? "x" = some (.cons .cons ⟨0, ⟨0, 0⟩, 1⟩))
    (hledger : host.ledger = .empty) (hfirst : host.heaps[0]? = some (withOne 1).heap)
    (hlast : host.heaps[n]? = some (.new 0 ⟨1, 1, none⟩)) :
    let t := (makeCons n none 2).after host
    Outcome.answer (t.perform 0 none (.child .car (.named "x"))) = .ok (.value (.integer 1)) ∧
      Outcome.answer (t.perform n none (.child .car (.named "x"))) = .ok (.value (.integer 2)) := by
  intro t
  obtain ⟨hbindings, hheaps⟩ := after_makeCons hlast hledger
  have hx : t.bindings.find? "x" = some (.cons .cons ⟨0, ⟨0, 0⟩, 1⟩) := by rw [hbindings, hx]
  constructor
  · refine answer_child (h := (withOne 1).heap) .car hx ?_ rfl
    rw [hheaps, Array.getElem?_setIfInBounds_ne hne, hfirst]
  · refine answer_child (h := (withOne 2).heap) .car hx ?_ rfl
    rw [hheaps, Array.getElem?_setIfInBounds_self_of_lt (Array.getElem?_eq_some_iff.1 hlast).1]

/-- The first heap makes a cons for the variable `x`, and the heap that is made `count` heaps later makes one too. -/
def twins (count : Nat) : List Deed :=
  makeCons 0 (some "x") 1 :: (List.replicate count (makeHeap ⟨1, 1, none⟩) ++ [makeCons count none 2])

theorem uses_twins_le (n : Nat) (l : Location) (count : Nat) : uses n l (.new ⟨1, 1, none⟩) (twins count) ≤ 2 := by
  rw [twins, uses, uses_append, uses_makeHeap, uses, uses, Nat.zero_add, Nat.add_zero]
  exact Nat.add_le_add (births_le_one ..) (births_le_one ..)

theorem answers_twins {count : Nat} (hcount : identity 1 count = 0) :
    let t := (Host.new ⟨1, 1, none⟩).runs (twins (count + 1))
    Outcome.answer (t.perform 0 none (.child .car (.named "x"))) = .ok (.value (.integer 1)) ∧
      Outcome.answer (t.perform (count + 1) none (.child .car (.named "x"))) = .ok (.value (.integer 2)) := by
  obtain ⟨begun, hbegun⟩ : ∃ begun, (makeCons 0 (some "x") 1).after (.new ⟨1, 1, none⟩) = begun := ⟨_, rfl⟩
  have hx : begun.bindings.find? "x" = some (.cons .cons ⟨0, ⟨0, 0⟩, 1⟩) := hbegun ▸ rfl
  have hfirst : begun.heaps[0]? = some (withOne 1).heap := hbegun ▸ rfl
  have hsize : begun.heaps.size = 1 := hbegun ▸ rfl
  have hnext : begun.nextId = 1 := hbegun ▸ rfl
  obtain ⟨hledger, hbindings, hold, hnew⟩ := runs_makeHeap ⟨1, 1, none⟩ (count + 1) begun
  have hlast := hnew count (Nat.lt_succ_self count)
  rw [hsize, hnext, hcount, Nat.add_comm 1] at hlast
  rw [twins, runs, List.foldl_cons, List.foldl_append, hbegun]
  refine answers_twice (Nat.succ_ne_zero count) (hbindings ▸ hx) (hledger.trans (hbegun ▸ rfl)) ?_ hlast
  exact (hold 0 (by omega)).trans hfirst

/-- **The heap that is made `2 ^ 32` heaps after the first one takes the handle of the first one's cell for its own**,
though no storage is taken into use too often. -/
theorem identity_comes_back :
    (∀ n l, uses n l (.new ⟨1, 1, none⟩) (twins UInt32.size) ≤ UInt32.size) ∧
      let t := (Host.new ⟨1, 1, none⟩).runs (twins UInt32.size)
      Outcome.answer (t.perform 0 none (.child .car (.named "x"))) = .ok (.value (.integer 1)) ∧
        Outcome.answer (t.perform UInt32.size none (.child .car (.named "x"))) = .ok (.value (.integer 2)) := by
  have hcount : identity 1 (UInt32.size - 1) = 0 := by decide
  have hsize : UInt32.size - 1 + 1 = UInt32.size := by decide
  have htwo : 2 ≤ UInt32.size := by decide
  have hanswers := answers_twins hcount
  rw [hsize] at hanswers
  exact ⟨fun n l => (uses_twins_le n l _).trans htwo, hanswers⟩

end Script.Host

end ConsHeap
