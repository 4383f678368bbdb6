/-!
# Digits

The digits `0` to `9` and, in bases above ten, the letters `a` to `f` in both cases. A numeral is a
text of digits only (`Text.numeral`).
-/

namespace Entail.Text

/-- The value of a digit. -/
def digitValue? (c : Char) : Option Nat :=
  if '0' ≤ c ∧ c ≤ '9' then some (c.toNat - '0'.toNat)
  else if 'a' ≤ c ∧ c ≤ 'f' then some (c.toNat - 'a'.toNat + 10)
  else if 'A' ≤ c ∧ c ≤ 'F' then some (c.toNat - 'A'.toNat + 10)
  else none

/-- Whether a character is a digit in a base of at most 16. -/
def isDigit (base : Nat) (c : Char) : Bool := (digitValue? c).any (· < base)

/-- The number that the digits of a base stand for. -/
def numeral (base : Nat) (digits : List Char) : Nat :=
  digits.foldl (fun n c => n * base + (digitValue? c).getD 0) 0

/-- The number of at most 64 bits that a text stands for: decimal digits, maybe after a plus. -/
def count? (text : String) : Option Nat :=
  let digits := match text.toList with
    | '+' :: rest => rest
    | cs => cs
  if digits.isEmpty || !digits.all (isDigit 10) || Nat.pow 2 64 ≤ numeral 10 digits then none
  else some (numeral 10 digits)

/-- The digit of a value below 16, in small letters. -/
def smallDigit (n : Nat) : Char :=
  if n < 10 then Char.ofNat ('0'.toNat + n) else Char.ofNat ('a'.toNat + n - 10)

/-- The digit of a value below 16, in capitals. -/
def capitalDigit (n : Nat) : Char := (smallDigit n).toUpper

end Entail.Text
