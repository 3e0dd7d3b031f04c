import ConsHeap.Proofs.Ledger.Deaths
import Mathlib.Algebra.BigOperators.Pi
import Mathlib.Algebra.Ring.Nat

/-!
# Balance of a ledger

Every object is counted as often as it is held: from outside, or by an object that is not destroyed. A
release takes one holder away. If it was the last, what the object held is released in its place, so that the
balance is kept all the way down. It ends because an object holds only objects that are older.

* `Value.isObject`, `Ledger.holdersIn`: how often an object is among values.
* `Ledger.Knows`: the values whose object is the one of that number.
* `Ledger.Sound`: objects hold older ones, and are logged as they die and not before.
* `Ledger.captured`, `Ledger.Balanced`: the balance.
* `Ledger.released`, `Ledger.releasedAll`: **a release of what is held keeps the ledger sound and balanced.**
-/

namespace ConsHeap

/-- Holds of object number `i`. -/
def Value.isObject (i : Nat) : Value → Bool
  | .object header _ => header.id == i
  | _ => false

namespace Ledger

variable {ledger ledger' : Ledger} {held : Nat → Nat} {i j n : Nat} {o p : Object} {v w : Value}
  {vs : List Value} {es : List Event}

/-! ## Holders -/

/-- How often an object is among values. -/
def holdersIn (vs : List Value) (i : Nat) : Nat := vs.countP (·.isObject i)

@[simp] theorem holdersIn_nil : holdersIn [] = 0 := rfl

theorem holdersIn_cons (v : Value) (vs : List Value) : holdersIn (v :: vs) = holdersIn vs + holdersIn [v] := by
  funext i
  simp [holdersIn, List.countP_cons]

theorem holdersIn_append (vs ws : List Value) : holdersIn (vs ++ ws) = holdersIn vs + holdersIn ws := by
  funext i
  simp [holdersIn, List.countP_append]

theorem holdersIn_flatMap {α : Type} (f : α → List Value) (as : List α) :
    holdersIn (as.flatMap f) = (as.map fun a => holdersIn (f a)).sum := by
  induction as with
  | nil => rfl
  | cons a as ih => rw [List.flatMap_cons, holdersIn_append, ih, List.map_cons, List.sum_cons]

theorem holdersIn_perm {ws : List Value} (h : vs.Perm ws) : holdersIn vs = holdersIn ws := by
  funext i
  exact h.countP_eq _

theorem holdersIn_value (o : Object) (i : Nat) :
    holdersIn [o.value] i = if o.header.id = i then 1 else 0 := by
  simp [holdersIn, Object.value, Value.isObject, List.countP_cons]

theorem holdersIn_eq_zero (h : v.object? = none) : holdersIn [v] = 0 := by
  funext i
  cases v with
  | object => cases h
  | _ => rfl

/-- Values that are no objects can be left out. -/
theorem holdersIn_filter {test : Value → Bool} (h : ∀ v ∈ vs, test v = false → v.object? = none) :
    holdersIn (vs.filter test) = holdersIn vs := by
  induction vs with
  | nil => rfl
  | cons v vs ih =>
    have hrest := ih fun w hw => h w (List.mem_cons_of_mem _ hw)
    cases htest : test v with
    | true => rw [List.filter_cons_of_pos htest, holdersIn_cons, hrest, ← holdersIn_cons]
    | false =>
      have hnone := h v List.mem_cons_self htest
      rw [List.filter_cons_of_neg (by simp [htest]), hrest, holdersIn_cons, holdersIn_eq_zero hnone, add_zero]

theorem holdersIn_pos (h : o.value ∈ vs) : 0 < holdersIn vs o.header.id :=
  List.countP_pos_iff.2 ⟨_, h, beq_self_eq_true _⟩

theorem holdersIn_le_of_mem (h : v ∈ vs) (i : Nat) : holdersIn [v] i ≤ holdersIn vs i :=
  (List.singleton_sublist.2 h).countP_le

theorem exists_of_holdersIn_pos (h : 0 < holdersIn vs i) : ∃ o : Object, o.value ∈ vs ∧ o.header.id = i := by
  obtain ⟨v, hmem, hv⟩ := List.countP_pos_iff.1 h
  cases v with
  | object header body => exact ⟨⟨header, body⟩, hmem, by simpa [Value.isObject] using hv⟩
  | _ => cases hv

/-! ## Known values -/

/-- A value is known when it is no object, or the object of that number. -/
def Knows (ledger : Ledger) : Value → Prop
  | .object header body => ledger.objectOf? header.id = some ⟨header, body⟩
  | _ => True

theorem knows_of_object?_eq_none (h : v.object? = none) : ledger.Knows v := by
  cases v with
  | object => cases h
  | _ => trivial

/-- What is known stays known as long as no object changes. -/
theorem Knows.of_objects (h : ledger.Knows v)
    (hobjects : ∀ i o, ledger.objectOf? i = some o → ledger'.objectOf? i = some o) : ledger'.Knows v := by
  cases v with
  | object header body => exact hobjects _ _ h
  | _ => trivial

/-- The log has the events of every death in order: the finalizer runs right after the death, and what the
object held dies after that. -/
def Ordered (ledger : Ledger) : Prop :=
  ∀ k o, ledger.log[k]? = some (.died o) →
    (∀ (j : Nat) e, o.opening[j]? = some e → ledger.log[k + j]? = some e) ∧
      ∀ (p : Object) k', p.value ∈ o.body.values → ledger.log[k']? = some (.died p) → k + o.opening.length ≤ k'

/-- Objects have the numbers under which they are kept, and hold older objects. Nothing is logged of an object
that is counted. -/
structure Sound (ledger : Ledger) : Prop where
  id : ∀ {i o}, ledger.objectOf? i = some o → o.header.id = i
  known : ∀ {i o}, ledger.objectOf? i = some o → ∀ v ∈ o.body.values, ledger.Knows v
  older : ∀ {i o} {p : Object}, ledger.objectOf? i = some o → p.value ∈ o.body.values → p.header.id < i
  quiet : ∀ {i}, ledger.count i ≠ 0 → ledger.eventsOf i = []
  ordered : ledger.Ordered

/-! ## Balance -/

/-- What an object holds as long as it is counted. -/
def heldBy (ledger : Ledger) (j : Nat) : Nat → Nat :=
  if ledger.count j = 0 then 0 else holdersIn ((ledger.objectOf? j).elim [] (·.body.values))

/-- How often an object is held by objects that are counted. -/
def captured (ledger : Ledger) : Nat → Nat := ∑ j ∈ Finset.range ledger.entries.size, ledger.heldBy j

/-- Every object is counted as often as it is held. -/
def Balanced (ledger : Ledger) (held : Nat → Nat) : Prop :=
  ∀ i, ledger.count i = held i + ledger.captured i

theorem count_eq_zero_of_size_le (h : ledger.entries.size ≤ i) : ledger.count i = 0 := by
  rw [count, Array.getElem?_eq_none h, Option.elim_none]

/-- What objects hold depends on which of them are counted. -/
theorem captured_congr (hobjects : ledger'.objectOf? = ledger.objectOf?)
    (hsize : ledger'.entries.size = ledger.entries.size)
    (hcount : ∀ i, ledger'.count i = 0 ↔ ledger.count i = 0) : ledger'.captured = ledger.captured := by
  unfold captured heldBy
  rw [hsize, hobjects]
  exact Finset.sum_congr rfl fun j _ => by rw [if_congr (hcount j) rfl rfl]

/-- An object that is no longer counted no longer holds what it held. -/
theorem captured_setCount_zero (hcount : ledger.count i ≠ 0) (ho : ledger.objectOf? i = some o) :
    (ledger.setCount i 0).captured + holdersIn o.body.values = ledger.captured := by
  have hi : i ∈ Finset.range ledger.entries.size :=
    Finset.mem_range.2 (lt_size_of_count_pos (Nat.pos_of_ne_zero hcount))
  have hself : (ledger.setCount i 0).heldBy i = 0 := by
    have hzero : (ledger.setCount i 0).count i = 0 := by
      rw [count_setCount, if_pos ⟨rfl, Finset.mem_range.1 hi⟩]
    rw [heldBy, if_pos hzero]
  have hother : ∀ j ∈ (Finset.range ledger.entries.size).erase i,
      (ledger.setCount i 0).heldBy j = ledger.heldBy j := by
    intro j hj
    have hne : ¬ (i = j ∧ j < ledger.entries.size) := fun h => (Finset.mem_erase.1 hj).1 h.1.symm
    rw [heldBy, heldBy, count_setCount, if_neg hne, objectOf?_setCount]
  unfold captured
  rw [size_setCount, ← Finset.sum_erase_add _ _ hi, ← Finset.sum_erase_add (f := ledger.heldBy) _ hi, hself,
    Finset.sum_congr rfl hother, add_zero]
  congr 1
  rw [heldBy, if_neg hcount, ho, Option.elim_some]

/-- An object that a counted object holds is counted. -/
theorem Balanced.count_pos_of_captured (h : ledger.Balanced held) (ho : ledger.objectOf? i = some o)
    (hcount : ledger.count i ≠ 0) (hp : p.value ∈ o.body.values) : 0 < ledger.count p.header.id := by
  have hsum := congrFun (captured_setCount_zero hcount ho) p.header.id
  have hpos : 0 < holdersIn o.body.values p.header.id := holdersIn_pos hp
  rw [Pi.add_apply] at hsum
  rw [h]
  omega

/-- An object that is held from outside is counted. -/
theorem Balanced.holds (h : ledger.Balanced held) (hv : ∀ i, holdersIn [v] i ≤ held i) : ledger.Holds v := by
  cases v with
  | object header body =>
    have hle := hv header.id
    rw [show Value.object header body = (⟨header, body⟩ : Object).value from rfl, holdersIn_value,
      if_pos rfl] at hle
    rw [Holds, h]
    omega
  | _ => trivial

/-! ## Changes of one ledger -/

theorem knows_congr (hobjects : ledger'.objectOf? = ledger.objectOf?) :
    ledger'.Knows v ↔ ledger.Knows v := by
  cases v with
  | object header body => rw [Knows, Knows, hobjects]
  | _ => exact Iff.rfl

/-- A count may change as long as none comes back from zero. -/
theorem Sound.setCount (h : ledger.Sound) (hn : n ≠ 0 → ledger.count i ≠ 0) : (ledger.setCount i n).Sound where
  id := by
    rw [objectOf?_setCount]
    exact h.id
  known := by
    intro j o ho v hv
    rw [objectOf?_setCount] at ho
    exact (knows_congr (objectOf?_setCount ..)).2 (h.known ho v hv)
  older := by
    rw [objectOf?_setCount]
    exact h.older
  quiet := by
    intro j hj
    rw [eventsOf_setCount]
    refine h.quiet ?_
    rw [count_setCount] at hj
    split at hj
    · next heq =>
      rw [← heq.1]
      exact hn hj
    · exact hj
  ordered := h.ordered

/-- Events may be logged of objects that are not counted, if they come in order. -/
theorem Sound.recordAll (h : ledger.Sound) (hes : ∀ e ∈ es, ledger.count e.object.header.id = 0)
    (hordered : (ledger.recordAll es).Ordered) : (ledger.recordAll es).Sound where
  id := h.id
  known := fun ho v hv => (knows_congr (objectOf?_recordAll ..)).2 (h.known ho v hv)
  older := h.older
  quiet := by
    intro j hj
    rw [eventsOf_recordAll, h.quiet hj, List.nil_append, List.filter_eq_nil_iff]
    intro e he hid
    rw [Event.isOf, beq_iff_eq] at hid
    exact hj (hid ▸ hes e he)
  ordered := hordered

/-- The log after more events, by position. -/
theorem getElem?_recordAll (ledger : Ledger) (es : List Event) (k : Nat) :
    (ledger.recordAll es).log[k]? =
      if k < ledger.log.size then ledger.log[k]? else es[k - ledger.log.size]? := by
  rw [recordAll, ← Array.getElem?_toList, Array.toList_appendList, List.getElem?_append]
  simp

/-- The events at the death of an object are in the log by the time of the next event. -/
theorem Ordered.opening_le (h : ledger.Ordered) {k : Nat} (hk : ledger.log[k]? = some (.died o)) :
    k + o.opening.length ≤ ledger.log.size := by
  obtain ⟨es, hes, -⟩ := o.opening_eq
  have hlast : o.opening[es.length]? ≠ none := by simp [hes]
  obtain ⟨e, he⟩ := Option.ne_none_iff_exists'.1 hlast
  have hlt := (Array.getElem?_eq_some_iff.1 ((h k o hk).1 _ _ he)).1
  rw [hes, List.length_cons]
  omega

/-- The events that are in the log stay in order when others come after them. -/
theorem Ordered.append (h : ledger.Ordered) (es : List Event) {k : Nat}
    (hk : ledger.log[k]? = some (.died o)) :
    (∀ (j : Nat) e, o.opening[j]? = some e → (ledger.recordAll es).log[k + j]? = some e) ∧
      ∀ (p : Object) k', p.value ∈ o.body.values → (ledger.recordAll es).log[k']? = some (.died p) →
        k + o.opening.length ≤ k' := by
  obtain ⟨hopening, hheld⟩ := h k o hk
  refine ⟨fun j e he => ?_, fun p k' hp hk' => ?_⟩
  · have hj := hopening j e he
    rw [getElem?_recordAll, if_pos (Array.getElem?_eq_some_iff.1 hj).1, hj]
  · rw [getElem?_recordAll] at hk'
    split at hk'
    · exact hheld p k' hp hk'
    · have hle := h.opening_le hk
      omega

/-- Events that are no deaths come in order after those of the log. -/
theorem Ordered.recordAll (h : ledger.Ordered) (hes : ∀ p, Event.died p ∉ es) :
    (ledger.recordAll es).Ordered := by
  intro k o hk
  rw [getElem?_recordAll] at hk
  split at hk
  · exact h.append es hk
  · exact absurd (List.mem_of_getElem? hk) (hes o)

/-- The death of an object comes in order when none of those that it holds has died. -/
theorem Ordered.opening (h : ledger.Ordered) (hheld : ∀ p : Object, p.value ∈ o.body.values →
      p ≠ o ∧ Event.died p ∉ ledger.log.toList) : (ledger.recordAll o.opening).Ordered := by
  obtain ⟨es, hes, hnot⟩ := o.opening_eq
  have hfirst : ∀ {k : Nat} {p}, o.opening[k]? = some (.died p) → k = 0 ∧ p = o := by
    intro k p hk
    rw [hes] at hk
    cases k with
    | zero =>
      cases hk
      exact ⟨rfl, rfl⟩
    | succ k =>
      rw [List.getElem?_cons_succ] at hk
      exact absurd (List.mem_of_getElem? hk) (hnot p).1
  intro k o' hk
  rw [getElem?_recordAll] at hk
  split at hk
  · exact h.append _ hk
  next hge =>
  obtain ⟨hzero, rfl⟩ := hfirst hk
  obtain rfl : k = ledger.log.size := by omega
  refine ⟨fun j e he => ?_, fun p k' hp hk' => ?_⟩
  · rw [getElem?_recordAll, if_neg (by omega), Nat.add_sub_cancel_left, he]
  · obtain ⟨hne, hlog⟩ := hheld p hp
    rw [getElem?_recordAll] at hk'
    split at hk'
    · exact absurd (List.mem_of_getElem? (by rw [Array.getElem?_toList]; exact hk')) hlog
    · exact absurd (hfirst hk').2 hne

/-! ## Releases -/

/-- What releases of values leave of a ledger in which these values were held. -/
structure Released (ledger ledger' : Ledger) (held : Nat → Nat) : Prop where
  sound : ledger'.Sound
  balanced : ledger'.Balanced held
  releases : ledger.Releases ledger'

/-- Nothing is released. -/
theorem Released.nothing (hs : ledger.Sound) (hb : ledger.Balanced held) : Released ledger ledger held :=
  ⟨hs, hb, .refl ledger⟩

/-- The release of a value that is not counted. -/
theorem Released.atom (hs : ledger.Sound) (hv : v.object? = none)
    (hb : ledger.Balanced (held + holdersIn [v])) : Released ledger (release v ledger) held := by
  rw [holdersIn_eq_zero hv, add_zero] at hb
  rw [release_of_object?_eq_none hv]
  exact .nothing hs hb

/-- The release of one of several holders. -/
theorem released_again (hs : ledger.Sound) (hb : ledger.Balanced (held + holdersIn [o.value]))
    (hcount : ledger.count o.header.id = n + 2) : Released ledger (release o.value ledger) held := by
  have hsize : o.header.id < ledger.entries.size := lt_size_of_count_pos (by omega)
  have hnew : ∀ i, (ledger.setCount o.header.id (n + 1)).count i =
      if o.header.id = i then n + 1 else ledger.count i := by
    intro i
    rw [count_setCount]
    by_cases hi : o.header.id = i
    · rw [if_pos hi, if_pos ⟨hi, hi ▸ hsize⟩]
    · rw [if_neg hi, if_neg fun h => hi h.1]
  have hzero : ∀ i, (ledger.setCount o.header.id (n + 1)).count i = 0 ↔ ledger.count i = 0 := by
    intro i
    rw [hnew]
    split
    · next hi =>
      rw [← hi, hcount]
      omega
    · exact Iff.rfl
  rw [release_again hcount]
  refine ⟨hs.setCount (by omega), fun i => ?_, objectOf?_setCount .., size_setCount .., fun i => ?_, fun i => ?_⟩
  · have hi := hb i
    rw [Pi.add_apply, holdersIn_value] at hi
    rw [hnew, captured_congr (objectOf?_setCount ..) (size_setCount ..) hzero]
    by_cases hid : o.header.id = i
    · subst hid
      rw [if_pos rfl] at hi ⊢
      omega
    · rw [if_neg hid] at hi ⊢
      omega
  · rw [hnew]
    split
    · next hi =>
      rw [← hi]
      omega
    · exact Nat.le_refl _
  · rw [if_neg fun h => h.1 ((hzero i).1 h.2), List.append_nil, eventsOf_setCount]

/-- As the last holder of an object goes, the object holds nothing any more. What it held is held from
outside, until it is released. -/
theorem Sound.dying (hs : ledger.Sound) (ho : ledger.objectOf? o.header.id = some o)
    (hb : ledger.Balanced (held + holdersIn [o.value])) (hcount : ledger.count o.header.id = 1) :
    (ledger.dying o).Sound ∧ (ledger.dying o).Balanced (held + holdersIn o.body.values) := by
  have hne : ledger.count o.header.id ≠ 0 := by omega
  -- what the object holds is counted, so that none of it has died
  have hordered : (ledger.dying o).Ordered := by
    refine Ordered.opening (hs.setCount (fun h => absurd rfl h)).ordered fun p hp => ⟨?_, fun hmem => ?_⟩
    · rintro rfl
      exact Nat.lt_irrefl _ (hs.older ho hp)
    · have hquiet := hs.quiet (Nat.pos_iff_ne_zero.1 (hb.count_pos_of_captured ho hne hp))
      have hevent : Event.died p ∈ ledger.eventsOf p.header.id :=
        List.mem_filter.2 ⟨hmem, beq_self_eq_true _⟩
      rw [hquiet] at hevent
      cases hevent
  refine ⟨(hs.setCount (fun h => absurd rfl h)).recordAll (fun e he => ?_) hordered, fun i => ?_⟩
  · rw [Object.id_of_mem_opening he]
    exact (count_dying hne _).trans (if_pos rfl)
  · have hi := hb i
    have hcaptured := congrFun (captured_setCount_zero hne ho) i
    have hsame : (ledger.dying o).captured = (ledger.setCount o.header.id 0).captured := rfl
    rw [Pi.add_apply, holdersIn_value] at hi
    rw [Pi.add_apply] at hcaptured
    rw [count_dying hne, hsame, Pi.add_apply]
    by_cases hid : o.header.id = i
    · subst hid
      rw [if_pos rfl] at hi ⊢
      omega
    · rw [if_neg hid] at hi ⊢
      omega

/-- When the values that a dying object held have been released, the object has died. -/
theorem Released.closing (ho : ledger.objectOf? o.header.id = some o) (hcount : ledger.count o.header.id ≠ 0)
    (h : Released (ledger.dying o) ledger' held) : Released ledger (ledger'.recordAll o.closing) held := by
  obtain ⟨hsound, hbal, hrel⟩ := h
  have hle : ∀ i, ledger'.count i ≤ if o.header.id = i then 0 else ledger.count i := by
    intro i
    rw [← count_dying hcount]
    exact hrel.le i
  have hzero : ledger'.count o.header.id = 0 := by
    have h := hle o.header.id
    rw [if_pos rfl] at h
    omega
  refine ⟨?_, hbal, ?_, ?_, fun i => ?_, fun i => ?_⟩
  · refine hsound.recordAll (fun e he => ?_) (hsound.ordered.recordAll fun p => ?_)
    · rw [Object.id_of_mem_closing he]
      exact hzero
    · exact (o.opening_eq.choose_spec.2 p).2
  · rw [objectOf?_recordAll, hrel.objects, objectOf?_dying]
  · rw [entries_recordAll, hrel.size, size_dying]
  · have h := hle i
    rw [count_recordAll]
    split at h <;> omega
  · have hevents := hrel.events i
    rw [count_dying hcount, objectOf?_dying, eventsOf_dying] at hevents
    rw [eventsOf_recordAll, hevents, filter_closing, count_recordAll]
    by_cases hid : o.header.id = i
    · subst hid
      simp [ho, hcount, hzero, Object.lastEvents]
    · simp [hid, Ne.symm hid]

mutual

/-- **The release of a value that is held keeps the balance, all the way down.** -/
theorem released (v : Value) {ledger : Ledger} {held : Nat → Nat} (hs : ledger.Sound)
    (hknown : ledger.Knows v) (hb : ledger.Balanced (held + holdersIn [v])) :
    Released ledger (release v ledger) held :=
  match v with
  | .object header body => by
    let o : Object := ⟨header, body⟩
    have ho : ledger.objectOf? o.header.id = some o := hknown
    have hb : ledger.Balanced (held + holdersIn [o.value]) := hb
    have hcount := hb o.header.id
    rw [Pi.add_apply, holdersIn_value, if_pos rfl] at hcount
    obtain ⟨n, hn⟩ : ∃ n, ledger.count o.header.id = n + 1 := ⟨held o.header.id + ledger.captured o.header.id, by omega⟩
    cases n with
    | zero =>
      obtain ⟨hsound, hbal⟩ := hs.dying ho hb hn
      have hvalues : ∀ v ∈ o.body.values, (ledger.dying o).Knows v := fun v hv =>
        (knows_congr (objectOf?_dying ..)).2 (hs.known ho v hv)
      have h : Released ledger (release o.value ledger) held := by
        rw [release_last hn]
        exact (releasedBody body hsound hvalues hbal).closing ho (by omega)
      exact h
    | succ n => exact released_again (o := o) hs hb hn
  | .nil | .integer _ | .character _ | .boolean _ | .cons _ _ => Released.atom hs rfl hb

theorem releasedBody (body : Body Value) {ledger : Ledger} {held : Nat → Nat} (hs : ledger.Sound)
    (hknown : ∀ v ∈ body.values, ledger.Knows v) (hb : ledger.Balanced (held + holdersIn body.values)) :
    Released ledger (releaseAll body.values ledger) held :=
  match body with
  | .closure _ _ captured => releasedAll captured hs hknown hb
  | .text _ | .symbol _ | .bytes _ => Released.nothing hs hb

theorem releasedAll (vs : List Value) {ledger : Ledger} {held : Nat → Nat} (hs : ledger.Sound)
    (hknown : ∀ v ∈ vs, ledger.Knows v) (hb : ledger.Balanced (held + holdersIn vs)) :
    Released ledger (releaseAll vs ledger) held :=
  match vs with
  | [] => Released.nothing hs hb
  | v :: vs => by
    rw [holdersIn_cons, ← add_assoc] at hb
    obtain ⟨hsound, hbal, hrel⟩ := released v hs (hknown v List.mem_cons_self) hb
    have hrest : ∀ w ∈ vs, (release v ledger).Knows w := fun w hw =>
      (knows_congr hrel.objects).2 (hknown w (List.mem_cons_of_mem _ hw))
    obtain ⟨hsound', hbal', hrel'⟩ := releasedAll vs hsound hrest hbal
    rw [releaseAll]
    exact ⟨hsound', hbal', hrel.trans hrel'⟩

end

end Ledger

end ConsHeap
