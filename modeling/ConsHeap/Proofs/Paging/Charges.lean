import ConsHeap.Paging.Page
import ConsHeap.Proofs.Outcome
import Mathlib.Data.Nat.Prime.Basic
import Mathlib.Order.Bounds.Basic

/-!
# Pages and their charge

A page takes the smallest block that holds its slots, and one charge. What a request for a page comes to
depends on the size first, on the budget next and on the system last, and only a page that is made is paid
for.

* `Layout.Sound`: the layouts that types have.
* `Layout.Fits`, `Layout.Oversized`: the blocks that a page of slots may have, and when there is none.
* `Layout.blockSize_eq_ok`: the size of a block is the least that fits.
* `Page.make_eq`: what a request for a page comes to.
* `Budget.Served`: the budgets that requests lead to, with the pages that were made and given back.
* `Page.pages_are_charged_when_made`: **a page is made in the least block that fits, with every slot inside
  it and aligned, or refused for the first reason that there is. The charge is that of the pages made and
  not given back, and within the limit.**
-/

namespace ConsHeap.Paging

/-! ## Powers of two -/

/-- The least power is the power of two of some number. -/
theorem exists_leastPower (n : Nat) : ∃ k, leastPower n = 2 ^ k := by
  unfold leastPower
  split
  · exact ⟨0, rfl⟩
  · exact ⟨_, Nat.one_shiftLeft _⟩

/-- The least power is the first power of two that is not below the number. -/
theorem leastPower_le_two_pow_iff {n k : Nat} : leastPower n ≤ 2 ^ k ↔ n ≤ 2 ^ k := by
  rw [← Nat.one_shiftLeft, leastPower_le_shiftLeft_iff]

theorem isPower_two_pow (k : Nat) : isPower (2 ^ k) = true := by
  rw [isPower, Nat.log2_two_pow, Nat.one_shiftLeft]
  exact beq_self_eq_true _

/-! ## The size of a block -/

namespace Layout

variable {slot : Layout} {count size : Nat}

/-- Types are aligned to a power of two, and their sizes are multiples of it. -/
structure Sound (slot : Layout) : Prop where
  power : ∃ k, slot.align = 2 ^ k
  dvd : slot.align ∣ slot.size

/-- A block of this size holds so many slots and is aligned for one. -/
structure Fits (slot : Layout) (count size : Nat) : Prop where
  power : ∃ k, size = 2 ^ k
  holds : slot.size * count ≤ size
  aligned : slot.align ≤ size

/-- There is nothing to hold, or no block whose size is a word holds it. -/
def Oversized (slot : Layout) (count : Nat) : Prop :=
  count = 0 ∨ slot.size = 0 ∨ 2 ^ 64 ≤ slot.size * count ∨ ∀ k < 64, ¬ slot.Fits count (2 ^ k)

theorem fits_two_pow_iff {k : Nat} :
    slot.Fits count (2 ^ k) ↔ leastPower (max (slot.size * count) slot.align) ≤ 2 ^ k := by
  rw [leastPower_le_two_pow_iff, Nat.max_le]
  exact ⟨fun h => ⟨h.holds, h.aligned⟩, fun h => ⟨⟨k, rfl⟩, h.1, h.2⟩⟩

/-- The least size of a block that fits. -/
theorem isLeast_leastPower (slot : Layout) (count : Nat) :
    IsLeast {size | slot.Fits count size} (leastPower (max (slot.size * count) slot.align)) := by
  obtain ⟨k, hk⟩ := exists_leastPower (max (slot.size * count) slot.align)
  constructor
  · show slot.Fits count _
    rw [hk, fits_two_pow_iff, hk]
  · rintro size ⟨⟨j, rfl⟩, hholds, haligned⟩
    exact fits_two_pow_iff.1 ⟨⟨j, rfl⟩, hholds, haligned⟩

/-- No block whose size is a word fits when the least one that does is too large. -/
theorem no_word_fits_iff :
    (∀ k < 64, ¬ slot.Fits count (2 ^ k)) ↔
      2 ^ 64 ≤ leastPower (max (slot.size * count) slot.align) := by
  obtain ⟨k, hk⟩ := exists_leastPower (max (slot.size * count) slot.align)
  rw [hk, Nat.pow_le_pow_iff_right (by decide)]
  constructor
  · intro hnone
    by_contra hlt
    exact hnone k (by omega) (fits_two_pow_iff.2 (by rw [hk]))
  · intro hle j hj hfits
    have hkj := fits_two_pow_iff.1 hfits
    rw [hk, Nat.pow_le_pow_iff_right (by decide)] at hkj
    omega

/-- What has no block is refused. -/
theorem blockSize_eq_error (h : slot.Oversized count) : slot.blockSize count = .error .badRequest := by
  unfold blockSize
  rw [show wordLimit = 2 ^ 64 from rfl]
  split
  · rfl
  · next hempty =>
    split
    · rfl
    · next hsmall =>
      -- the product is a word, so it is the power of two that is too large
      have hnone : ∀ k < 64, ¬ slot.Fits count (2 ^ k) := by
        rcases h with hzero | hzero | hlarge | hnone
        · exact absurd (.inl hzero) hempty
        · exact absurd (.inr hzero) hempty
        · exact absurd hlarge hsmall
        · exact hnone
      simp only [if_pos (no_word_fits_iff.1 hnone)]

/-- Anything else has the least block that fits, and the size of that is a word. -/
theorem blockSize_eq_ok (h : ¬ slot.Oversized count) :
    ∃ k < 64, slot.blockSize count = .ok (2 ^ k) ∧ IsLeast {size | slot.Fits count size} (2 ^ k) := by
  obtain ⟨hcount, hsize, hlarge, hnone⟩ : count ≠ 0 ∧ slot.size ≠ 0 ∧ ¬ 2 ^ 64 ≤ slot.size * count ∧
      ¬ ∀ k < 64, ¬ slot.Fits count (2 ^ k) := by
    simpa only [Oversized, not_or] using h
  obtain ⟨k, hk⟩ := exists_leastPower (max (slot.size * count) slot.align)
  have hleast := isLeast_leastPower slot count
  rw [no_word_fits_iff] at hnone
  rw [hk] at hleast hnone
  refine ⟨k, ?_, ?_, hleast⟩
  · rwa [Nat.pow_le_pow_iff_right (by decide), not_le] at hnone
  · rw [blockSize, if_neg (not_or.2 ⟨hcount, hsize⟩), show wordLimit = 2 ^ 64 from rfl, if_neg hlarge]
    simp only [hk, if_neg hnone]

/-- In a block that fits, wherever it is, each slot lies inside and is aligned. -/
theorem Fits.slot_inside (h : slot.Fits count size) (hslot : slot.Sound) {i base : Nat} (hi : i < count)
    (hbase : size ∣ base) :
    slot.align ∣ base + i * slot.size ∧ base + (i + 1) * slot.size ≤ base + size := by
  obtain ⟨⟨a, ha⟩, hdvd⟩ := hslot
  obtain ⟨⟨k, rfl⟩, hholds, haligned⟩ := h
  constructor
  · -- a smaller power of two divides a larger one
    have hpow : slot.align ∣ 2 ^ k := by
      rw [ha] at haligned ⊢
      exact Nat.pow_dvd_pow 2 ((Nat.pow_le_pow_iff_right (by decide)).1 haligned)
    exact Nat.dvd_add (hpow.trans hbase) (hdvd.mul_left i)
  · have hle : (i + 1) * slot.size ≤ slot.size * count := by
      rw [Nat.mul_comm]
      exact Nat.mul_le_mul_left _ hi
    omega

end Layout

/-! ## Requests -/

/-- A block whose size is a power of two and a word is refused when it is the largest one, or when the system
does not grant it. -/
theorem Block.make_two_pow (grants : Nat → Bool) {k : Nat} (hk : k < 64) :
    Block.make grants (2 ^ k) =
      if k = 63 then .error .badRequest else if grants (2 ^ k) then .ok ⟨2 ^ k⟩ else .error .outOfMemory := by
  have hend : 1 <<< 63 < 2 ^ k + 2 ^ k ↔ k = 63 := by
    rw [Nat.one_shiftLeft, ← Nat.two_mul, ← Nat.pow_succ', Nat.pow_lt_pow_iff_right (by decide)]
    omega
  unfold Block.make
  rw [if_neg (not_not.2 (isPower_two_pow k))]
  simp only [hend]

namespace Budget

variable {b b' : Budget} {cap : Option Nat} {made refunded : Nat}

/-- A budget is spent when its limit is reached. -/
theorem isSpent_iff : b.isSpent = true ↔ ∃ n, b.limit = some n ∧ n ≤ b.used := by
  simp [isSpent, Option.any_eq_true]

theorem charge_eq (b : Budget) :
    charge b = if b.isSpent then .error .limitReached b else .ok () { b with used := b.used + 1 } := by
  rw [charge, bind_get]
  split <;> rfl

end Budget

namespace Page

variable {α : Type}

/-- The block of a page is charged first, and the charge is given back when there is none. -/
theorem draw_eq (size : Nat) (b : Budget) :
    draw size b =
      if b.isSpent then .error .limitReached b
      else match Block.make (Budget.grants { b with used := b.used + 1 }) size with
        | .ok block => .ok block { b with used := b.used + 1 }
        | .error e => .error e b := by
  have hcharge := b.charge_eq
  split at hcharge
  · next hspent => rw [draw, bind_error hcharge, if_pos hspent]
  · next hspent =>
    rw [draw, bind_ok hcharge, bind_get, if_neg hspent]
    cases Block.make (Budget.grants { b with used := b.used + 1 }) size with
    | ok block => rfl
    | error e => rfl

/-- **What a request for a page comes to.** -/
theorem make_eq (slot : Layout) (count : Nat) (content : Nat → α) (b : Budget) :
    make slot count content b =
      match slot.blockSize count with
      | .error e => .error e b
      | .ok size =>
        if b.isSpent then .error .limitReached b
        else match Block.make (Budget.grants { b with used := b.used + 1 }) size with
          | .ok block => .ok ⟨block, Array.ofFn fun i : Fin count => content i⟩ { b with used := b.used + 1 }
          | .error e => .error e b := by
  unfold make
  cases slot.blockSize count with
  | error e => rfl
  | ok size =>
    have hdraw := draw_eq size b
    split at hdraw
    · next hspent => simp only [bind_error hdraw, if_pos hspent]
    · next hspent =>
      simp only [if_neg hspent]
      cases hblock : Block.make (Budget.grants { b with used := b.used + 1 }) size with
      | ok block =>
        rw [hblock] at hdraw
        rw [bind_ok hdraw]
        rfl
      | error e =>
        rw [hblock] at hdraw
        rw [bind_error hdraw]

/-- A page is refused and the budget stays as it was, or it is drawn and holds what it should. -/
theorem make_cases (slot : Layout) (count : Nat) (content : Nat → α) (b : Budget) :
    (∃ e, make slot count content b = .error e b) ∨
      (0 < count ∧ (∀ n, b.limit = some n → b.used < n) ∧
        ∃ block, make slot count content b =
          .ok ⟨block, Array.ofFn fun i : Fin count => content i⟩ { b with used := b.used + 1 }) := by
  have hmake := make_eq slot count content b
  by_cases hlarge : slot.Oversized count
  · rw [Layout.blockSize_eq_error hlarge] at hmake
    exact .inl ⟨_, hmake⟩
  have hcount : 0 < count := Nat.pos_of_ne_zero fun h => hlarge (.inl h)
  obtain ⟨k, -, hsize, -⟩ := Layout.blockSize_eq_ok hlarge
  simp only [hsize] at hmake
  by_cases hspent : b.isSpent
  · rw [if_pos hspent] at hmake
    exact .inl ⟨_, hmake⟩
  rw [if_neg hspent] at hmake
  cases hblock : Block.make (Budget.grants { b with used := b.used + 1 }) (2 ^ k) with
  | error e =>
    rw [hblock] at hmake
    exact .inl ⟨e, hmake⟩
  | ok block =>
    rw [hblock] at hmake
    refine .inr ⟨hcount, fun n hn => ?_, block, hmake⟩
    by_contra hge
    exact hspent (Budget.isSpent_iff.2 ⟨n, hn, not_lt.1 hge⟩)

end Page

namespace Budget

/-- The budgets that requests lead to, from a new one on. So many pages were made, and so many of them given
back. -/
inductive Served (cap : Option Nat) : Budget → (made refunded : Nat) → Prop where
  | new (memory : Supply) : Served cap ⟨0, cap, memory⟩ 0 0
  | page {α : Type} {slot : Layout} {count : Nat} {content : Nat → α} {p : Page α} :
    Served cap b made refunded → Page.make slot count content b = .ok p b' →
    Served cap b' (made + 1) refunded
  | refusal {α : Type} {slot : Layout} {count : Nat} {content : Nat → α} {e : PageError} :
    Served cap b made refunded → Page.make slot count content b = .error e b' →
    Served cap b' made refunded
  /-- A page that was made and not given back yet is given back. -/
  | refund : Served cap b made refunded → refunded < made → Served cap b.refund made (refunded + 1)
  /-- The system has other memory to give from now on. -/
  | supply (memory : Supply) : Served cap b made refunded → Served cap { b with supply := memory } made refunded

/-- A page that is made is within the limit, and one that is refused costs nothing. -/
theorem Served.balance (h : Served cap b made refunded) :
    b.limit = cap ∧ b.used + refunded = made ∧ ∀ n, cap = some n → b.used ≤ n := by
  induction h with
  | new memory => exact ⟨rfl, rfl, fun n _ => Nat.zero_le n⟩
  | @page b made refunded b' α slot count content p _ hmake ih =>
    obtain ⟨hlimit, hused, hwithin⟩ := ih
    rcases Page.make_cases slot count content b with ⟨e, he⟩ | ⟨-, hroom, block, hok⟩
    · rw [he] at hmake
      cases hmake
    · rw [hok] at hmake
      cases hmake
      exact ⟨hlimit, show b.used + 1 + refunded = made + 1 by omega, fun n hn => hroom n (hlimit.trans hn)⟩
  | @refusal b made refunded b' α slot count content e _ hmake ih =>
    rcases Page.make_cases slot count content b with ⟨e', he⟩ | ⟨-, -, block, hok⟩
    · rw [he] at hmake
      cases hmake
      exact ih
    · rw [hok] at hmake
      cases hmake
  | @refund b made refunded _ hlt ih =>
    obtain ⟨hlimit, hused, hwithin⟩ := ih
    refine ⟨hlimit, show b.used - 1 + (refunded + 1) = made by omega, fun n hn => ?_⟩
    exact (Nat.sub_le _ _).trans (hwithin n hn)
  | supply memory _ ih => exact ih

end Budget

namespace Page

/-- **A request for a page of a type is refused when there is nothing to hold or no block whose size is a word
holds it, whatever the budget; else when the limit is reached; else when the least block that fits is the
largest word that is a power of two, or the system does not grant it. Otherwise the page has that block, in
which every slot lies inside and is aligned, wherever the block is, and holds what it should. A page that is
made takes one charge, and one that is refused leaves the budget as it was. So after any requests the charge
is the number of pages that were made and not given back, and within the limit.** -/
theorem pages_are_charged_when_made {α : Type} (slot : Layout) (hslot : slot.Sound) (count : Nat)
    (content : Nat → α) (b : Budget) :
    (slot.Oversized count → make slot count content b = .error .badRequest b) ∧
      (¬ slot.Oversized count →
        (∀ n, b.limit = some n → n ≤ b.used → make slot count content b = .error .limitReached b) ∧
          ((∀ n, b.limit = some n → b.used < n) → ∃ size, IsLeast {size | slot.Fits count size} size ∧
            (size = 2 ^ 63 → make slot count content b = .error .badRequest b) ∧
            (size ≠ 2 ^ 63 → b.supply.grants (b.used + 1) size = false →
              make slot count content b = .error .outOfMemory b) ∧
            (size ≠ 2 ^ 63 → b.supply.grants (b.used + 1) size = true →
              ∃ page, make slot count content b = .ok page { b with used := b.used + 1 } ∧
                page.block.size = size ∧ page.size = count ∧
                ∀ i < count, page.get? i = some (content i) ∧ ∀ base, size ∣ base →
                  slot.align ∣ base + i * slot.size ∧ base + (i + 1) * slot.size ≤ base + size))) ∧
      ∀ limit b made refunded, Budget.Served limit b made refunded →
        b.used = made - refunded ∧ refunded ≤ made ∧ ∀ n, limit = some n → b.used ≤ n := by
  have hmake := make_eq slot count content b
  refine ⟨fun hlarge => ?_, fun hword => ?_, fun limit b made refunded hserved => ?_⟩
  · rw [Layout.blockSize_eq_error hlarge] at hmake
    exact hmake
  · obtain ⟨k, hk, hsize, hleast⟩ := Layout.blockSize_eq_ok hword
    rw [hsize] at hmake
    refine ⟨fun n hn hle => ?_, fun hlimit => ⟨2 ^ k, hleast, ?_⟩⟩
    · rw [hmake]
      exact if_pos (Budget.isSpent_iff.2 ⟨n, hn, hle⟩)
    · have hspent : ¬ b.isSpent = true := by
        rw [Budget.isSpent_iff]
        rintro ⟨n, hn, hle⟩
        exact absurd (hlimit n hn) (by omega)
      have hlargest : k = 63 ↔ 2 ^ k = 2 ^ 63 := (Nat.pow_right_injective (le_refl 2)).eq_iff.symm
      simp only [if_neg hspent, Block.make_two_pow _ hk, hlargest] at hmake
      refine ⟨fun hpow => ?_, fun hpow hgrants => ?_, fun hpow hgrants => ?_⟩
      · rw [hmake, if_pos hpow]
      · rw [hmake, if_neg hpow, if_neg (by rw [Budget.grants, hgrants]; decide)]
      · rw [if_neg hpow, if_pos (by exact hgrants)] at hmake
        refine ⟨_, hmake, rfl, Array.size_ofFn, fun i hi => ⟨?_, fun base hbase => ?_⟩⟩
        · rw [get?, Array.getElem?_ofFn, dif_pos hi]
        · exact hleast.1.slot_inside hslot hi hbase
  · obtain ⟨-, hused, hwithin⟩ := hserved.balance
    exact ⟨by omega, by omega, hwithin⟩

/-- With one page left, a page of three slots of 24 bytes is made in a block of 128. The next request finds the
budget spent, and one for `2 ^ 60` slots is refused before that. When the page has been given back, another one
can be made, which is then the only one that is charged. -/
theorem three_slots_take_a_page :
    let slot : Layout := ⟨24, 8⟩
    let b := Budget.ofLimit (some 1)
    let spent : Budget := { b with used := 1 }
    slot.Sound ∧
      (∃ page : Page Nat, make slot 3 (· * 5) b = .ok page spent ∧ page.block.size = 128 ∧
        page.get? 2 = some 10 ∧ 8 ∣ 256 + 2 * 24 ∧ 256 + 3 * 24 ≤ 256 + 128) ∧
      make slot 3 (· * 5) spent = .error .limitReached spent ∧
      make slot (2 ^ 60) (· * 5) spent = .error .badRequest spent ∧
      Budget.Served (some 1) spent 2 1 ∧ spent.used = 2 - 1 ∧ spent.used ≤ 1 := by
  intro slot b spent
  have hslot : slot.Sound := ⟨⟨3, rfl⟩, ⟨3, rfl⟩⟩
  have hfits : slot.Fits 3 128 := ⟨⟨7, rfl⟩, by decide, by decide⟩
  have hword : ¬ slot.Oversized 3 := by
    rintro (h | h | h | h)
    · cases h
    · cases h
    · exact absurd h (by decide)
    · exact h 7 (by decide) hfits
  obtain ⟨-, hmake, -⟩ := pages_are_charged_when_made slot hslot 3 (· * 5) b
  obtain ⟨size, hleast, -, -, hok⟩ := (hmake hword).2 (by rintro n ⟨⟩; decide)
  -- 64 bytes do not hold the slots, and 128 do
  have hsize : size = 128 := by
    obtain ⟨k, hk⟩ := hleast.1.power
    have hle : size ≤ 128 := hleast.2 hfits
    have hholds : 72 ≤ size := hleast.1.holds
    have hk7 : k = 7 := by
      rw [hk] at hle hholds
      refine le_antisymm ?_ ?_
      · exact (Nat.pow_le_pow_iff_right (by decide)).1 (hle.trans_eq (by decide : 128 = 2 ^ 7))
      · exact (Nat.pow_lt_pow_iff_right (by decide)).1 ((by decide : 2 ^ 6 < 72).trans_le hholds)
    rw [hk, hk7]
    rfl
  subst hsize
  obtain ⟨page, hpage, hblock, -, hslots⟩ := hok (by decide) (by decide)
  obtain ⟨hget, hinside⟩ := hslots 2 (by decide)
  obtain ⟨-, hspent, hruns⟩ := pages_are_charged_when_made slot hslot 3 (· * 5) spent
  obtain ⟨hlarge, -, -⟩ := pages_are_charged_when_made slot hslot (2 ^ 60) (· * 5) spent
  have hserved : Budget.Served (some 1) spent 2 1 :=
    (((Budget.Served.new .standard).page hpage).refund Nat.one_pos).page hpage
  obtain ⟨hused, -, hwithin⟩ := hruns _ _ _ _ hserved
  refine ⟨hslot, ⟨page, hpage, hblock, hget, hinside 256 (by decide)⟩, (hspent hword).1 1 rfl (le_refl 1),
    hlarge (.inr (.inr (.inl (by decide)))), hserved, hused, hwithin 1 rfl⟩

end Page

end ConsHeap.Paging
