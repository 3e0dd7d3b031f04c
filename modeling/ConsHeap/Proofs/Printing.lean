import ConsHeap.Proofs.Drawing
import Mathlib.Data.List.Infix
import Mathlib.Logic.Relation

/-!
# What is printed

A way along cars and cdrs leads from a value to an occurrence of another value in it. A cell may occur at many
places, and in a cyclic structure there is no end to them. A cell recurs where it is one of those that the way
to it has been through. It is left out there, and so nothing that comes after is shown.

* `Heap.valueAt?`, `Heap.cellAt?`: the value and the cell at an occurrence.
* `Heap.Recurs`, `Heap.Shown`: the occurrences that are left out, and those that no such one comes before.
* `Heap.Depicts`: a drawing shows just what it should at every occurrence. There is one at most.
* `Heap.Renders.depicts`: the drawing of a value does.
* `Heap.Dead`: conses whose handle does not resolve.
* `Heap.Links`, `Heap.Acyclic`: values below which no cell leads back to itself.
* `Heap.Unfolds`: a drawing in which nothing is left out. That of an acyclic value is one.
* `Memory.print_shows_the_structure`: **what is printed, after any run.**
-/

namespace ConsHeap

/-- The way `q` is the start of another one `p`. -/
def Earlier (q p : List Side) : Prop := q <+: p ∧ q ≠ p

theorem not_earlier_nil (q : List Side) : ¬ Earlier q [] := fun h => h.2 (List.prefix_nil.1 h.1)

theorem earlier_cons_iff {q p : List Side} {side : Side} :
    Earlier q (side :: p) ↔ q = [] ∨ ∃ r, q = side :: r ∧ Earlier r p := by
  cases q with
  | nil => simp [Earlier]
  | cons side' r =>
    constructor
    · rintro ⟨hpre, hne⟩
      obtain ⟨rfl, hr⟩ := List.cons_prefix_cons.1 hpre
      exact .inr ⟨r, rfl, hr, fun heq => hne (by rw [heq])⟩
    · rintro (hnil | ⟨r', heq, hr, hne⟩)
      · cases hnil
      · cases heq
        exact ⟨List.cons_prefix_cons.2 ⟨rfl, hr⟩, fun heq => hne (List.cons.inj heq).2⟩

namespace Drawing

/-- What is drawn at an occurrence. -/
def at? : Drawing → List Side → Option Drawing
  | d, [] => some d
  | pair car _, .car :: p => car.at? p
  | pair _ cdr, .cdr :: p => cdr.at? p
  | _, _ :: _ => none

@[simp] theorem at?_nil (d : Drawing) : d.at? [] = some d := by
  rw [at?]

@[simp] theorem at?_atom_cons (x : Value) (side : Side) (p : List Side) :
    (atom x).at? (side :: p) = none := by
  cases side <;> rfl

@[simp] theorem at?_elided_cons (side : Side) (p : List Side) : elided.at? (side :: p) = none := by
  cases side <;> rfl

/-- Two drawings are the same when the same kind of thing is drawn at every occurrence. -/
theorem eq_of_at? {d d' : Drawing} (helided : ∀ p, d.at? p = some elided ↔ d'.at? p = some elided)
    (hpair : ∀ p, (∃ car cdr, d.at? p = some (pair car cdr)) ↔ ∃ car cdr, d'.at? p = some (pair car cdr))
    (hatom : ∀ p x, d.at? p = some (atom x) ↔ d'.at? p = some (atom x)) : d = d' := by
  induction d generalizing d' with
  | atom x =>
    have h := (hatom [] x).1 (at?_nil _)
    rw [at?_nil, Option.some.injEq] at h
    exact h.symm
  | elided =>
    have h := (helided []).1 (at?_nil _)
    rw [at?_nil, Option.some.injEq] at h
    exact h.symm
  | pair car cdr ihcar ihcdr =>
    obtain ⟨car', cdr', h⟩ := (hpair []).1 ⟨car, cdr, at?_nil _⟩
    rw [at?_nil, Option.some.injEq] at h
    subst h
    have hcar : car = car' :=
      ihcar (fun p => helided (.car :: p)) (fun p => hpair (.car :: p)) fun p => hatom (.car :: p)
    have hcdr : cdr = cdr' :=
      ihcdr (fun p => helided (.cdr :: p)) (fun p => hpair (.cdr :: p)) fun p => hatom (.cdr :: p)
    rw [hcar, hcdr]

end Drawing

namespace Heap

variable {h : Heap} {path : List Location} {x y : Value} {l m : Location} {c : Cell} {d d' : Drawing}
  {side : Side} {p q : List Side}

/-- The value at an occurrence in a value. -/
def valueAt? (h : Heap) (x : Value) : List Side → Option Value
  | [] => some x
  | side :: p =>
    match h.child side x with
    | .ok y => h.valueAt? y p
    | .error _ => none

/-- The cell at an occurrence, where the value is a live cons. -/
def cellAt? (h : Heap) (x : Value) (p : List Side) : Option Location :=
  (h.valueAt? x p).bind fun y => (h.live y).toOption

/-- The cell at an occurrence is one of `path`, or is at an earlier occurrence on the way. -/
def Recurs (h : Heap) (path : List Location) (x : Value) (p : List Side) : Prop :=
  ∃ l, h.cellAt? x p = some l ∧ (l ∈ path ∨ ∃ q, Earlier q p ∧ h.cellAt? x q = some l)

/-- No cell on the way to an occurrence is left out. -/
def Shown (h : Heap) (path : List Location) (x : Value) (p : List Side) : Prop :=
  ∀ q, Earlier q p → ¬ h.Recurs path x q

/-- What is drawn at an occurrence, if anything. A cell that recurs is left out, any other one is a pair, and
any other value is an atom. -/
structure Shows (h : Heap) (path : List Location) (x : Value) (p : List Side) (o : Option Drawing) : Prop where
  elided : o = some .elided ↔ h.Shown path x p ∧ h.Recurs path x p
  pair : (∃ car cdr, o = some (.pair car cdr)) ↔
    h.Shown path x p ∧ ¬ h.Recurs path x p ∧ ∃ l, h.cellAt? x p = some l
  atom : ∀ y, o = some (.atom y) ↔ h.Shown path x p ∧ h.valueAt? x p = some y ∧ y.isCons = false

/-- A drawing shows what it should at every occurrence. -/
def Depicts (h : Heap) (path : List Location) (x : Value) (d : Drawing) : Prop :=
  ∀ p, h.Shows path x p (d.at? p)

/-! ## Occurrences -/

/-- What a live cons has on one side is found in its cell. -/
theorem child_of_live (hx : h.live x = .ok l) (hc : h.cell? l = some c) (side : Side) :
    h.child side x = .ok (c.child side) := by
  obtain ⟨tag, handle, rfl, hres⟩ := live_eq_ok_iff.1 hx
  rw [child, liveCell_of_resolve hres hc]
  rfl

/-- A value with something on one side is a live cons. -/
theorem exists_live_of_child (hy : h.child side x = .ok y) :
    ∃ l c, h.live x = .ok l ∧ h.cell? l = some c ∧ y = c.child side := by
  rcases h.liveCell_cases x with ⟨e, -, he⟩ | ⟨tag, handle, c, rfl, hres, hc, hlive⟩
  · rw [child, he] at hy
    cases hy
  · rw [child, hlive] at hy
    cases hy
    exact ⟨_, c, live_eq_ok_iff.2 ⟨tag, handle, rfl, hres⟩, hc, rfl⟩

theorem cellAt?_nil : h.cellAt? x [] = some l ↔ h.live x = .ok l := by
  rw [cellAt?, valueAt?, Option.bind_some]
  cases h.live x <;> simp [Except.toOption]

theorem valueAt?_cons (hy : h.child side x = .ok y) (p : List Side) :
    h.valueAt? x (side :: p) = h.valueAt? y p := by
  rw [valueAt?, hy]

theorem cellAt?_cons (hy : h.child side x = .ok y) (p : List Side) :
    h.cellAt? x (side :: p) = h.cellAt? y p := by
  rw [cellAt?, valueAt?_cons hy, cellAt?]

/-- There is nothing in a value that is no live cons. -/
theorem valueAt?_cons_eq_none (hx : ∀ l, h.live x ≠ .ok l) (side : Side) (p : List Side) :
    h.valueAt? x (side :: p) = none := by
  rw [valueAt?]
  cases hy : h.child side x with
  | error e => rfl
  | ok y =>
    obtain ⟨l, -, hl, -⟩ := exists_live_of_child hy
    exact absurd hl (hx l)

theorem recurs_nil : h.Recurs path x [] ↔ ∃ l, h.live x = .ok l ∧ l ∈ path := by
  simp only [Recurs, cellAt?_nil, not_earlier_nil, false_and, exists_false, or_false]

/-- One step on the way, the cell that is left is one of the path. -/
theorem recurs_cons (hx : h.live x = .ok l) (hy : h.child side x = .ok y) :
    h.Recurs path x (side :: p) ↔ h.Recurs (l :: path) y p := by
  have hback : ∀ m, (∃ q, Earlier q (side :: p) ∧ h.cellAt? x q = some m) ↔
      m = l ∨ ∃ q, Earlier q p ∧ h.cellAt? y q = some m := by
    intro m
    constructor
    · rintro ⟨q, hq, hm⟩
      rcases earlier_cons_iff.1 hq with rfl | ⟨r, rfl, hr⟩
      · rw [cellAt?_nil, hx] at hm
        cases hm
        exact .inl rfl
      · rw [cellAt?_cons hy] at hm
        exact .inr ⟨r, hr, hm⟩
    · rintro (rfl | ⟨r, hr, hm⟩)
      · exact ⟨[], earlier_cons_iff.2 (.inl rfl), cellAt?_nil.2 hx⟩
      · exact ⟨side :: r, earlier_cons_iff.2 (.inr ⟨r, rfl, hr⟩), by rw [cellAt?_cons hy, hm]⟩
  simp only [Recurs, cellAt?_cons hy, hback, List.mem_cons]
  refine exists_congr fun m => and_congr_right fun _ => ?_
  rw [← or_assoc, or_comm (a := m ∈ path)]

theorem shown_nil : h.Shown path x [] := fun q hq => absurd hq (not_earlier_nil q)

theorem shown_cons (hx : h.live x = .ok l) (hy : h.child side x = .ok y) :
    h.Shown path x (side :: p) ↔ l ∉ path ∧ h.Shown (l :: path) y p := by
  have hfirst : h.Recurs path x [] ↔ l ∈ path := by
    rw [recurs_nil, hx]
    simp
  constructor
  · intro hshown
    refine ⟨?_, fun q hq => ?_⟩
    · rw [← hfirst]
      exact hshown [] (earlier_cons_iff.2 (.inl rfl))
    · rw [← recurs_cons hx hy]
      exact hshown (side :: q) (earlier_cons_iff.2 (.inr ⟨q, rfl, hq⟩))
  · rintro ⟨hpath, hshown⟩ q hq
    rcases earlier_cons_iff.1 hq with rfl | ⟨r, rfl, hr⟩
    · rwa [hfirst]
    · rw [recurs_cons hx hy]
      exact hshown r hr

/-! ## Drawings -/

/-- One step on the way, the same is to be shown. -/
theorem shows_cons (hx : h.live x = .ok l) (hpath : l ∉ path) (hy : h.child side x = .ok y)
    {o : Option Drawing} (ho : h.Shows (l :: path) y p o) : h.Shows path x (side :: p) o := by
  obtain ⟨helided, hpair, hatom⟩ := ho
  constructor
  · rw [helided, shown_cons hx hy, recurs_cons hx hy]
    simp [hpath]
  · rw [hpair, shown_cons hx hy, recurs_cons hx hy, cellAt?_cons hy]
    simp [hpath]
  · intro z
    rw [hatom, shown_cons hx hy, valueAt?_cons hy]
    simp [hpath]

/-- Nothing is to be shown where there is no value, or after a cell that is left out. -/
theorem shows_none (hnone : ¬ h.Shown path x p ∨ h.valueAt? x p = none) : h.Shows path x p none := by
  rcases hnone with hno | hno
  · constructor <;> simp [hno]
  · have hcell : h.cellAt? x p = none := by rw [cellAt?, hno, Option.bind_none]
    constructor <;> simp [Recurs, hno, hcell]

/-- **The drawing of a value shows what it should.** -/
theorem Renders.depicts (hd : h.Renders path x d) : h.Depicts path x d := by
  induction hd with
  | @atom path x hatom =>
    have hx : ∀ l, h.live x ≠ .ok l := by
      intro l hl
      rw [isCons_of_live hl] at hatom
      cases hatom
    intro p
    cases p with
    | nil =>
      have hno : ¬ h.Recurs path x [] := by
        rw [recurs_nil]
        rintro ⟨l, hl, -⟩
        exact hx l hl
      constructor
      · simp [Drawing.at?, hno]
      · simp [Drawing.at?, cellAt?_nil, hx]
      · intro y
        simp only [Drawing.at?, Option.some.injEq, Drawing.atom.injEq, shown_nil, true_and, valueAt?]
        constructor
        · rintro rfl
          exact ⟨rfl, hatom⟩
        · exact fun hy => hy.1
    | cons side p =>
      rw [Drawing.at?_atom_cons]
      exact shows_none (.inr (valueAt?_cons_eq_none hx side p))
  | @elided path x l hl hmem =>
    have hrec : h.Recurs path x [] := recurs_nil.2 ⟨l, hl, hmem⟩
    intro p
    cases p with
    | nil =>
      constructor
      · simp [Drawing.at?, hrec, shown_nil]
      · simp [Drawing.at?, hrec]
      · intro y
        simp only [Drawing.at?, Option.some.injEq, reduceCtorEq, false_iff, valueAt?]
        rintro ⟨-, rfl, hatom⟩
        rw [isCons_of_live hl] at hatom
        cases hatom
    | cons side p =>
      rw [Drawing.at?_elided_cons]
      exact shows_none (.inl fun hshown => hshown [] (earlier_cons_iff.2 (.inl rfl)) hrec)
  | @pair path x l c car cdr hl hpath hc hcar hcdr ihcar ihcdr =>
    have hno : ¬ h.Recurs path x [] := by
      rw [recurs_nil, hl]
      simpa using hpath
    intro p
    match p with
    | [] =>
      constructor
      · simp [Drawing.at?, hno]
      · simp [Drawing.at?, hno, shown_nil, cellAt?_nil, hl]
      · intro y
        simp only [Drawing.at?, Option.some.injEq, reduceCtorEq, false_iff, valueAt?]
        rintro ⟨-, rfl, hatom⟩
        rw [isCons_of_live hl] at hatom
        cases hatom
    | .car :: p => exact shows_cons hl hpath (child_of_live hl hc .car) (ihcar p)
    | .cdr :: p => exact shows_cons hl hpath (child_of_live hl hc .cdr) (ihcdr p)

/-- What is to be shown at every occurrence leaves one drawing. -/
theorem Depicts.unique (hd : h.Depicts path x d) (hd' : h.Depicts path x d') : d = d' :=
  Drawing.eq_of_at? (fun p => (hd p).elided.trans (hd' p).elided.symm)
    (fun p => (hd p).pair.trans (hd' p).pair.symm) fun p y => ((hd p).atom y).trans ((hd' p).atom y).symm

/-! ## Dead conses -/

/-- The value is a cons, and its handle does not resolve. -/
def Dead (h : Heap) (x : Value) : Prop := ∃ tag handle, x = .cons tag handle ∧ h.resolve handle = none

/-- A cons is live or dead. -/
theorem exists_live_of_not_dead (hx : ¬ h.Dead x) (hcons : x.isCons = true) : ∃ l, h.live x = .ok l := by
  cases x with
  | cons tag handle =>
    cases hres : h.resolve handle with
    | none => exact absurd ⟨tag, handle, rfl, hres⟩ hx
    | some l => exact ⟨l, live_eq_ok_iff.2 ⟨tag, handle, rfl, hres⟩⟩
  | _ => cases hcons

/-- A dead cons is refused. -/
theorem print_of_dead (hx : h.Dead x) : h.print x = .error .foreign := by
  obtain ⟨tag, handle, rfl, hres⟩ := hx
  have hcons : (Value.cons tag handle).isCons = true := rfl
  have hlive : h.live (.cons tag handle) = .error .foreign := by
    simp only [live, Value.handle?, hres]
  rw [print, printItem, if_pos hcons, hlive]
  rfl

/-! ## Structures without cycles -/

/-- The cell at `m` is on one side of the cell at `l`. -/
def Links (h : Heap) (l m : Location) : Prop :=
  ∃ c side, h.cell? l = some c ∧ h.live (c.child side) = .ok m

/-- No cell below a value leads back to itself. -/
def Acyclic (h : Heap) (x : Value) : Prop :=
  ∀ l m, h.live x = .ok l → Relation.ReflTransGen h.Links l m → ¬ Relation.TransGen h.Links m m

/-- A drawing of a value in which no cell is left out. -/
inductive Unfolds (h : Heap) : Value → Drawing → Prop where
  | atom {x : Value} : x.isCons = false → Unfolds h x (.atom x)
  | pair {x : Value} {l : Location} {c : Cell} {car cdr : Drawing} : h.live x = .ok l →
    h.cell? l = some c → Unfolds h c.car car → Unfolds h c.cdr cdr → Unfolds h x (.pair car cdr)

theorem Renders.unfolds (hd : h.Renders path x d) (hfull : ∀ p, d.at? p ≠ some .elided) : h.Unfolds x d := by
  induction hd with
  | atom hatom => exact .atom hatom
  | elided => exact absurd (Drawing.at?_nil _) (hfull [])
  | pair hl hpath hc hcar hcdr ihcar ihcdr =>
    exact .pair hl hc (ihcar fun p => hfull (.car :: p)) (ihcdr fun p => hfull (.cdr :: p))

theorem Unfolds.unique (hd : h.Unfolds x d) (hd' : h.Unfolds x d') : d = d' := by
  induction hd generalizing d' with
  | atom hatom =>
    cases hd' with
    | atom => rfl
    | pair hl =>
      rw [isCons_of_live hl] at hatom
      cases hatom
  | pair hl hc _ _ ihcar ihcdr =>
    cases hd' with
    | atom hatom =>
      rw [isCons_of_live hl] at hatom
      cases hatom
    | pair hl' hc' hcar hcdr =>
      obtain rfl := Except.ok.inj (hl.symm.trans hl')
      obtain rfl := Option.some.inj (hc.symm.trans hc')
      rw [ihcar hcar, ihcdr hcdr]

/-- Two values that stand for the same cell have the same drawing. -/
theorem Unfolds.of_live (hd : h.Unfolds x d) (hx : h.live x = .ok l) (hy : h.live y = .ok l) :
    h.Unfolds y d := by
  cases hd with
  | atom hatom =>
    rw [isCons_of_live hx] at hatom
    cases hatom
  | pair hl hc hcar hcdr =>
    obtain rfl := Except.ok.inj (hl.symm.trans hx)
    exact .pair hy hc hcar hcdr

/-- Every value below another one is drawn in full. -/
theorem Unfolds.exists_at? (hd : h.Unfolds x d) (hy : h.valueAt? x p = some y) :
    ∃ sub, d.at? p = some sub ∧ h.Unfolds y sub := by
  induction p generalizing x d with
  | nil =>
    cases hy
    exact ⟨d, Drawing.at?_nil d, hd⟩
  | cons side p ih =>
    cases hd with
    | atom hatom =>
      rw [valueAt?_cons_eq_none] at hy
      · cases hy
      · intro l hl
        rw [isCons_of_live hl] at hatom
        cases hatom
    | pair hl hc hcar hcdr =>
      rw [valueAt?_cons (child_of_live hl hc side)] at hy
      cases side with
      | car => exact ih hcar hy
      | cdr => exact ih hcdr hy

/-- A value with a cell somewhere in it is a live cons. -/
theorem exists_live_of_cellAt? (hm : h.cellAt? x p = some m) : ∃ l, h.live x = .ok l := by
  cases p with
  | nil => exact ⟨m, cellAt?_nil.1 hm⟩
  | cons side p =>
    by_contra hno
    rw [cellAt?, valueAt?_cons_eq_none (not_exists.1 hno)] at hm
    cases hm

/-- A cell at an occurrence is linked to the first one, by at least one link unless it is the first one. -/
theorem links_of_cellAt? (hx : h.live x = .ok l) (hm : h.cellAt? x p = some m) :
    p = [] ∧ m = l ∨ Relation.TransGen h.Links l m := by
  induction p generalizing x l with
  | nil =>
    rw [cellAt?_nil, hx] at hm
    cases hm
    exact .inl ⟨rfl, rfl⟩
  | cons side p ih =>
    obtain ⟨c, hc⟩ := exists_cell_of_live hx
    rw [cellAt?_cons (child_of_live hx hc side)] at hm
    obtain ⟨k, hk⟩ := exists_live_of_cellAt? hm
    have hlink : h.Links l k := ⟨c, side, hc, hk⟩
    rcases ih hk hm with ⟨-, rfl⟩ | hrest
    · exact .inr (.single hlink)
    · exact .inr (.head hlink hrest)

theorem valueAt?_append (x : Value) (q r : List Side) :
    h.valueAt? x (q ++ r) = (h.valueAt? x q).bind fun y => h.valueAt? y r := by
  induction q generalizing x with
  | nil => rfl
  | cons side q ih =>
    rw [List.cons_append, valueAt?, valueAt?]
    cases h.child side x with
    | error e => rfl
    | ok y => exact ih y

/-- A cell at an occurrence is the one that the value there stands for. -/
theorem cellAt?_eq_some_iff : h.cellAt? x p = some l ↔ ∃ y, h.valueAt? x p = some y ∧ h.live y = .ok l := by
  rw [cellAt?, Option.bind_eq_some_iff]
  refine exists_congr fun y => and_congr_right fun _ => ?_
  cases h.live y <;> simp [Except.toOption]

/-- In a structure without cycles no cell recurs. -/
theorem Acyclic.not_recurs (ha : h.Acyclic x) (p : List Side) : ¬ h.Recurs [] x p := by
  rintro ⟨m, hm, hmem | ⟨q, ⟨⟨r, rfl⟩, hne⟩, hq⟩⟩
  · cases hmem
  obtain ⟨l, hl⟩ := exists_live_of_cellAt? hq
  obtain ⟨y, hy, hlive⟩ := cellAt?_eq_some_iff.1 hq
  -- the way from the first time that the cell occurs to the second one is a cycle
  have hround : h.cellAt? y r = some m := by
    rw [cellAt?, valueAt?_append, hy, Option.bind_some] at hm
    exact hm
  have hbelow : Relation.ReflTransGen h.Links l m := by
    rcases links_of_cellAt? hl hq with ⟨-, rfl⟩ | hlinks
    · exact .refl
    · exact hlinks.to_reflTransGen
  rcases links_of_cellAt? hlive hround with ⟨rfl, -⟩ | hcycle
  · exact hne (List.append_nil q).symm
  · exact ha l m hl hbelow hcycle

/-- What is below a value without cycles has none. -/
theorem Acyclic.of_valueAt? (ha : h.Acyclic x) (hy : h.valueAt? x p = some y) : h.Acyclic y := by
  intro m k hm hk
  have hcell : h.cellAt? x p = some m := cellAt?_eq_some_iff.2 ⟨y, hy, hm⟩
  obtain ⟨l, hl⟩ := exists_live_of_cellAt? hcell
  refine ha l k hl ?_
  rcases links_of_cellAt? hl hcell with ⟨-, rfl⟩ | hlinks
  · exact hk
  · exact hlinks.to_reflTransGen.trans hk

/-- The drawing of a value without cycles leaves nothing out. -/
theorem Renders.unfolds_of_acyclic (hd : h.Renders [] x d) (ha : h.Acyclic x) : h.Unfolds x d := by
  refine hd.unfolds fun p helided => ?_
  exact ha.not_recurs p ((hd.depicts p).elided.1 helided).2

/-- Cells that occur at several places are drawn in full at each. -/
theorem Unfolds.at?_eq (hd : h.Unfolds x d) (hp : h.cellAt? x p = some l) (hq : h.cellAt? x q = some l) :
    d.at? p = d.at? q := by
  obtain ⟨y, hy, hylive⟩ := cellAt?_eq_some_iff.1 hp
  obtain ⟨z, hz, hzlive⟩ := cellAt?_eq_some_iff.1 hq
  obtain ⟨sub, hsub, hyd⟩ := hd.exists_at? hy
  obtain ⟨sub', hsub', hzd⟩ := hd.exists_at? hz
  rw [hsub, hsub', hyd.unique (hzd.of_live hzlive hylive)]

end Heap

namespace Memory

variable {m : Memory} {x y : Value} {p : List Side} {d : Drawing}

/-- No dead cons is below a value that is none. -/
theorem Good.live_of_valueAt? (hg : m.Good) (hx : x.isCons = true → ∃ l, m.heap.live x = .ok l)
    (hy : m.heap.valueAt? x p = some y) : y.isCons = true → ∃ l, m.heap.live y = .ok l := by
  induction p generalizing x with
  | nil =>
    cases hy
    exact hx
  | cons side p ih =>
    rw [Heap.valueAt?] at hy
    cases hchild : m.heap.child side x with
    | error e =>
      rw [hchild] at hy
      cases hy
    | ok z =>
      rw [hchild] at hy
      obtain ⟨l, c, hl, hc, rfl⟩ := Heap.exists_live_of_child hchild
      obtain ⟨tag, handle, rfl, hres⟩ := Heap.live_eq_ok_iff.1 hl
      obtain ⟨-, -, hlive, -⟩ := Heap.resolve_eq_some_iff.1 hres
      refine ih (Heap.exists_live_of_accepts ?_) hy
      refine hg.accepts_child (Option.isSome_iff_ne_none.1 hlive) hc ?_
      cases side with
      | car => exact fun _ => List.mem_append_left _
      | cdr => exact fun _ => List.mem_append_right _

/-- What is below a value without cycles is drawn as it would be on its own. -/
theorem Good.print_below (hg : m.Good) (hx : x.isCons = true → ∃ l, m.heap.live x = .ok l)
    (ha : m.heap.Acyclic x) (hd : m.heap.Unfolds x d) (hy : m.heap.valueAt? x p = some y) :
    ∃ sub, d.at? p = some sub ∧ m.heap.Unfolds y sub ∧ m.heap.print y = .ok (sub.text m.heap) := by
  obtain ⟨sub, hsub, hunfolds⟩ := hd.exists_at? hy
  obtain ⟨sub', hrenders, hprint⟩ := hg.print_eq (hg.live_of_valueAt? hx hy)
  have hsame : sub' = sub := (hrenders.unfolds_of_acyclic (ha.of_valueAt? hy)).unique hunfolds
  rw [hsame] at hprint
  exact ⟨sub, hsub, hunfolds, hprint⟩

/-- **After any run, printing a value ends, also when the value is cyclic. It fails just for a cons whose handle
does not resolve, and says so. Otherwise the text is the list notation of the one drawing in which a cell is
left out at just those occurrences where it is already on the way there, a cell is drawn at all other
occurrences that are shown, and so is an atom.**

**In a structure without cycles nothing is left out. Every value in it is drawn in full and as it would be
printed on its own, so a cell is drawn in the same way at all places that share it.** -/
theorem print_shows_the_structure (id : UInt32) (sizing : Sizing) (ledger : Ledger) (moves : List Move)
    (x : Value) :
    let h := ((start id sizing ledger).runs moves).heap
    (∀ e, h.print x = .error e ↔ e = .foreign ∧ h.Dead x) ∧
      (¬ h.Dead x →
        ∃ d, h.print x = .ok (d.text h) ∧ h.Depicts [] x d ∧ (∀ d', h.Depicts [] x d' → d' = d) ∧
          (h.Acyclic x →
            (∀ p, d.at? p ≠ some .elided) ∧
              (∀ p y, h.valueAt? x p = some y →
                ∃ sub, d.at? p = some sub ∧ h.Unfolds y sub ∧ h.print y = .ok (sub.text h)) ∧
              ∀ p q l, h.cellAt? x p = some l → h.cellAt? x q = some l → d.at? p = d.at? q)) := by
  intro h
  have hg : ((start id sizing ledger).runs moves).Good := good_runs id sizing ledger moves
  have htext : ¬ h.Dead x → ∃ d, h.Renders [] x d ∧ h.print x = .ok (d.text h) :=
    fun hx => hg.print_eq (Heap.exists_live_of_not_dead hx)
  constructor
  · intro e
    by_cases hdead : h.Dead x
    · rw [Heap.print_of_dead hdead, Except.error.injEq, eq_comm]
      exact (and_iff_left hdead).symm
    · obtain ⟨d, -, hprint⟩ := htext hdead
      rw [hprint]
      simp [hdead]
  · intro hx
    obtain ⟨d, hd, hprint⟩ := htext hx
    refine ⟨d, hprint, hd.depicts, fun d' hd' => hd'.unique hd.depicts, fun ha => ?_⟩
    have hunfolds : h.Unfolds x d := hd.unfolds_of_acyclic ha
    refine ⟨fun p helided => ?_, fun p y => hg.print_below (Heap.exists_live_of_not_dead hx) ha hunfolds,
      fun p q l => hunfolds.at?_eq⟩
    exact ha.not_recurs p ((hd.depicts p).elided.1 helided).2

end Memory

end ConsHeap
