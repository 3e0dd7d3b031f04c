/-!
# Numerals

* `hexadecimal`: the lower-case digits of a number, padded with zeros to a least width.
* `natural?`: reads an unsigned sixty-four bit number.
* `integer?`: reads a signed sixty-four bit number.

Both readers take the ASCII digits only, allow leading zeros, and refuse a number out of range.
-/

namespace ConsHeap.Text

/-- The lower-case hexadecimal digits of `n`, at least `width` of them. -/
def hexadecimal (width n : Nat) : String :=
  String.ofList ((Nat.toDigits 16 n).leftpad width '0')

/-- The value of an ASCII digit. -/
def digit? (c : Char) : Option Nat :=
  if '0' ≤ c ∧ c ≤ '9' then some (c.toNat - 48) else none

/-- The number that a non-empty run of ASCII digits names. -/
def digits? : List Char → Option Nat
  | [] => none
  | cs => cs.foldlM (fun n c => (10 * n + ·) <$> digit? c) 0

/-- An unsigned numeral: digits after at most one plus sign, below `2 ^ 64`. -/
def natural? (cs : List Char) : Option Nat := do
  let n ← match cs with
    | '+' :: ds => digits? ds
    | ds => digits? ds
  if n < UInt64.size then some n else none

/-- A signed numeral: digits after at most one sign, from `-2 ^ 63` to `2 ^ 63 - 1`. -/
def integer? (cs : List Char) : Option Int64 := do
  let n : Int ← match cs with
    | '+' :: ds => Int.ofNat <$> digits? ds
    | '-' :: ds => (- Int.ofNat ·) <$> digits? ds
    | ds => Int.ofNat <$> digits? ds
  if Int64.minValue.toInt ≤ n ∧ n ≤ Int64.maxValue.toInt then some (Int64.ofInt n) else none

end ConsHeap.Text
