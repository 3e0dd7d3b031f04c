import ConsHeap.Heap.Listed
import ConsHeap.Proofs.Queries

/-!
# Drawings

What is shown of a value is a tree. A cell is drawn as a pair, unless it is on the way from the printed value
to this place. Then it is left out, so that the tree is finite. The text is the list notation of the tree.

* `Drawing`, `Drawing.text`: the trees, and their list notation.
* `Heap.Renders`: the drawing of a value after the cells of a path.
* `Heap.Renders.print`: the text of a value is that of its drawing.
* `Memory.Good.exists_renders`: **every value that is no dead cons has a drawing, also when it is cyclic.**
* `Memory.Good.print_ok`, `Memory.Good.print_cases`: values that have a text, and those that are refused.
-/

namespace ConsHeap

/-- What is shown of a value. -/
inductive Drawing where
  | atom (x : Value)
  /-- A cell that has been shown already, and is left out. -/
  | elided
  | pair (car cdr : Drawing)

namespace Drawing

mutual

/-- A drawing in list notation. A pair is the list of the cells along its cdr, in brackets. -/
def text (h : Heap) : Drawing → String
  | atom x => h.printAtom x
  | elided => "(...)"
  | pair car cdr => "(" ++ " ".intercalate (text h car :: words h cdr) ++ ")"

/-- What a drawing adds to the list of which it is the tail. Nil adds nothing, and another atom comes after
a dot. -/
def words (h : Heap) : Drawing → List String
  | atom .nil => []
  | atom x => [".", h.printAtom x]
  | elided => ["..."]
  | pair car cdr => text h car :: words h cdr

end

example (h : Heap) : (pair (atom .nil) (pair elided (atom (.boolean false)))).text h = "(nil (...) . #f)" := rfl

/-- An atom other than nil is a dotted tail. -/
theorem words_atom {x : Value} (hx : x.isNil = false) (h : Heap) :
    (atom x).words h = [".", h.printAtom x] := by
  cases x with
  | nil => cases hx
  | _ => simp only [words]

/-- A drawing of a cell is in brackets. -/
theorem text_eq {d : Drawing} (hd : ∀ x, d ≠ atom x) (h : Heap) :
    d.text h = "(" ++ " ".intercalate (d.words h) ++ ")" := by
  cases d with
  | atom x => exact absurd rfl (hd x)
  | elided => rfl
  | pair car cdr => rw [text, words]

/-- A word, and then the words of a drawing of a cell. -/
theorem intercalate_words {d : Drawing} (hd : ∀ x, d ≠ atom x) (h : Heap) (s : String) :
    " ".intercalate (s :: d.words h) = s ++ " " ++ " ".intercalate (d.words h) := by
  cases d with
  | atom x => exact absurd rfl (hd x)
  | elided => rw [words, String.intercalate_cons_cons]
  | pair car cdr => rw [words, String.intercalate_cons_cons]

end Drawing

namespace Heap

variable {h : Heap} {path : List Location} {x : Value} {l : Location} {c : Cell} {d : Drawing}

/-- A drawing of a value, where the cells of `path` are on the way. -/
inductive Renders (h : Heap) : List Location → Value → Drawing → Prop where
  | atom {path : List Location} {x : Value} : x.isCons = false → Renders h path x (.atom x)
  | elided {path : List Location} {x : Value} {l : Location} :
    h.live x = .ok l → l ∈ path → Renders h path x .elided
  /-- A cell that is not on the way is drawn with both sides, and is on the way to them. -/
  | pair {path : List Location} {x : Value} {l : Location} {c : Cell} {car cdr : Drawing} :
    h.live x = .ok l → l ∉ path → h.cell? l = some c → Renders h (l :: path) c.car car →
    Renders h (l :: path) c.cdr cdr → Renders h path x (.pair car cdr)

/-- The text of a list from its first item on, where `x` is what comes after that. -/
def printTail (h : Heap) (path : List Location) (first : String) (x : Value) : Except HeapError String :=
  match x with
  | .nil => return first
  | .cons tag handle => do
    let next ← h.live (.cons tag handle)
    return first ++ " " ++ (← h.printFrom path next)
  | v => return first ++ " . " ++ h.printAtom v

/-- The text from a cell that is stored, without regard to how the path ends. -/
theorem printFrom_of_cell (hc : h.cell? l = some c) (path : List Location) :
    h.printFrom path l =
      if l ∈ path then .ok "..."
      else (do
        let car ← h.printItem (h.printFrom (l :: path)) c.car
        h.printTail (l :: path) car c.cdr) := by
  rw [printFrom]
  split
  · next hnone => exact absurd (hc.symm.trans hnone) (by simp)
  · next d hd =>
    obtain rfl := Option.some.inj (hc.symm.trans hd)
    split <;> rfl

/-- A value that is live is no atom. -/
theorem isCons_of_live (hx : h.live x = .ok l) : x.isCons = true := by
  obtain ⟨tag, handle, rfl, -⟩ := live_eq_ok_iff.1 hx
  rfl

/-- A live cons has a cell. -/
theorem exists_cell_of_live (hx : h.live x = .ok l) : ∃ c, h.cell? l = some c := by
  obtain ⟨tag, handle, rfl, hres⟩ := live_eq_ok_iff.1 hx
  obtain ⟨-, -, -, c, hc, -⟩ := resolve_eq_some_iff.1 hres
  exact ⟨c, hc⟩

/-- The text of a live cons is that of its cells in brackets. -/
theorem printItem_of_live {inner : Location → Except HeapError String} {s : String} (hx : h.live x = .ok l)
    (hs : inner l = .ok s) : h.printItem inner x = .ok ("(" ++ s ++ ")") := by
  rw [printItem, if_pos (isCons_of_live hx), hx]
  simp only [bind, Except.bind, hs]
  rfl

/-- After the first item of a list come the words of its tail. -/
theorem Renders.printTail_eq (hd : h.Renders path x d)
    (hcells : ∀ l, h.live x = .ok l → h.printFrom path l = .ok (" ".intercalate (d.words h)))
    (first : String) : h.printTail path first x = .ok (" ".intercalate (first :: d.words h)) := by
  have hlive : ∀ l, h.live x = .ok l → (∀ y, d ≠ .atom y) →
      h.printTail path first x = .ok (" ".intercalate (first :: d.words h)) := by
    intro l hl hpair
    have hrest := hcells l hl
    obtain ⟨tag, handle, rfl, -⟩ := live_eq_ok_iff.1 hl
    rw [Drawing.intercalate_words hpair, printTail, hl]
    simp only [bind, Except.bind, hrest]
    rfl
  have hdot : " . " = " " ++ ("." ++ " ") := rfl
  cases hd with
  | atom hno =>
    cases x with
    | cons tag handle => cases hno
    | nil => rw [Drawing.words, String.intercalate_singleton, printTail]; rfl
    | _ =>
      rw [Drawing.words_atom rfl, String.intercalate_cons_cons, String.intercalate_cons_cons,
        String.intercalate_singleton]
      simp only [printTail, hdot, String.append_assoc]
      rfl
  | elided hl hmem => exact hlive _ hl (by simp)
  | pair hl hpath hc hcar hcdr => exact hlive _ hl (by simp)

/-- **The text of a value is that of its drawing.** The cells of a live cons are its words. -/
theorem Renders.print (hd : h.Renders path x d) :
    h.printItem (h.printFrom path) x = .ok (d.text h) ∧
      ∀ l, h.live x = .ok l → h.printFrom path l = .ok (" ".intercalate (d.words h)) := by
  induction hd with
  | @atom path x hno =>
    refine ⟨?_, fun l hl => ?_⟩
    · rw [printItem, if_neg (by simp [hno])]
      rfl
    · rw [isCons_of_live hl] at hno
      cases hno
  | @elided path x l hl hmem =>
    obtain ⟨c, hc⟩ := exists_cell_of_live hl
    have hcells : h.printFrom path l = .ok "..." := by rw [printFrom_of_cell hc, if_pos hmem]
    refine ⟨printItem_of_live hl hcells, fun m hm => ?_⟩
    rw [hl, Except.ok.injEq] at hm
    subst hm
    exact hcells
  | @pair path x l c car cdr hl hpath hc hcar hcdr ihcar ihcdr =>
    have hcells : h.printFrom path l = .ok (" ".intercalate ((Drawing.pair car cdr).words h)) := by
      rw [printFrom_of_cell hc, if_neg hpath, ihcar.1, Drawing.words]
      exact hcdr.printTail_eq ihcdr.2 (car.text h)
    refine ⟨?_, fun m hm => ?_⟩
    · rw [Drawing.text_eq (by simp)]
      exact printItem_of_live hl hcells
    · rw [hl, Except.ok.injEq] at hm
      subst hm
      exact hcells

/-- A cons that may be stored is live. -/
theorem exists_live_of_accepts (hx : h.accepts x) (hcons : x.isCons = true) : ∃ l, h.live x = .ok l := by
  cases x with
  | cons tag handle => exact ⟨_, live_eq_ok_iff.2 ⟨tag, handle, rfl, live_of_accepts hx⟩⟩
  | _ => cases hcons

end Heap

namespace Memory.Good

variable {m : Memory} (hg : m.Good) {x : Value}
include hg

/-- **Every value that is no dead cons has a drawing.** The path grows with every cell, so that fewer are
left. -/
theorem exists_renders (path : List Location) (hx : x.isCons = true → ∃ l, m.heap.live x = .ok l) :
    ∃ d, m.heap.Renders path x d := by
  induction hn : (m.heap.offPath path).length using Nat.strong_induction_on generalizing path x with
  | _ n ih =>
  subst hn
  cases hcons : x.isCons with
  | false => exact ⟨_, .atom hcons⟩
  | true =>
    obtain ⟨l, hl⟩ := hx hcons
    by_cases hpath : l ∈ path
    · exact ⟨.elided, .elided hl hpath⟩
    obtain ⟨tag, handle, rfl, hres⟩ := Heap.live_eq_ok_iff.1 hl
    obtain ⟨-, -, hlive, c, hc, -⟩ := Heap.resolve_eq_some_iff.1 hres
    have hcolor : m.heap.tables.color? l ≠ none := Option.isSome_iff_ne_none.1 hlive
    -- what the cell refers to is live, and the cell is on the way to it
    have hrest : ∀ y, (∀ handle ∈ y.handles, handle ∈ c.handles) → ∃ d, m.heap.Renders (l :: path) y d := by
      intro y hy
      exact ih _ (Heap.length_offPath_lt hc hpath) (l :: path)
        (Heap.exists_live_of_accepts (hg.accepts_child hcolor hc hy)) rfl
    obtain ⟨car, hcar⟩ := hrest c.car fun _ => List.mem_append_left _
    obtain ⟨cdr, hcdr⟩ := hrest c.cdr fun _ => List.mem_append_right _
    exact ⟨.pair car cdr, .pair hl hpath hc hcar hcdr⟩

/-- A value that is no dead cons has the text of its drawing. -/
theorem print_eq (hx : x.isCons = true → ∃ l, m.heap.live x = .ok l) :
    ∃ d, m.heap.Renders [] x d ∧ m.heap.print x = .ok (d.text m.heap) := by
  obtain ⟨d, hd⟩ := hg.exists_renders [] hx
  exact ⟨d, hd, hd.print.1⟩

/-- Every value that may be stored has a text. -/
theorem print_ok (hx : m.heap.accepts x) : ∃ text, m.heap.print x = .ok text := by
  obtain ⟨d, -, hprint⟩ := hg.print_eq (Heap.exists_live_of_accepts hx)
  exact ⟨_, hprint⟩

/-- A value has a text, unless it is a cons that is not live. What it refers to is always found. -/
theorem print_cases (x : Value) :
    (∃ text, m.heap.print x = .ok text) ∨ ∃ e, m.heap.print x = .error e ∧ m.heap.live x = .error e := by
  cases hl : m.heap.live x with
  | ok l =>
    obtain ⟨d, -, hprint⟩ := hg.print_eq fun _ => ⟨l, hl⟩
    exact .inl ⟨_, hprint⟩
  | error e =>
    cases hcons : x.isCons with
    | false =>
      have hatom : x.isCons = true → ∃ l, m.heap.live x = .ok l := by simp [hcons]
      obtain ⟨d, -, hprint⟩ := hg.print_eq hatom
      exact .inl ⟨_, hprint⟩
    | true =>
      right
      refine ⟨e, ?_, rfl⟩
      rw [Heap.print, Heap.printItem, if_pos hcons, hl]
      rfl

end Memory.Good

end ConsHeap
