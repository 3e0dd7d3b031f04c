import ConsHeap.Text.Escaped
import ConsHeap.Text.Numeral

/-!
# Quoted text

* `quoted`: a text between double quotes, with the characters escaped that would end it or would
  not show.
-/

namespace ConsHeap.Text

/-- The double quote. -/
def quoteMark : Char := '\x22'

/-- A character as it stands between double quotes. The quote and the backslash take a backslash,
four control characters have a letter, and every other escaped character is a code number. -/
def escape (c : Char) : List Char :=
  if c = quoteMark ∨ c = '\\' then ['\\', c]
  else if c = '\t' then ['\\', 't']
  else if c = '\r' then ['\\', 'r']
  else if c = '\n' then ['\\', 'n']
  else if c.toNat = 0 then ['\\', '0']
  else if isEscaped c then
    ['\\', 'u', '\x7b'] ++ Nat.toDigits 16 c.toNat ++ ['\x7d']
  else [c]

/-- The text between double quotes. -/
def quoted (s : String) : String :=
  String.ofList (quoteMark :: s.toList.flatMap escape ++ [quoteMark])

end ConsHeap.Text
