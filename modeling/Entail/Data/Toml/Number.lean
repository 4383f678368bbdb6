import Entail.Data
import Entail.Text.Digits

/-!
# Numbers and dates in TOML

`readNumber` reads an integer, a decimal fraction, a date or a time. Integers have 64 bits with a
sign, and only the natural ones have a use. A fraction is rounded to a binary number of 64 bits, and
must not be too large for that (`tooLarge`); its value has no use. A date or a time is a table in
which it stands under a single name (`momentName`).
-/

namespace Entail.Toml

/-- The digits of a base at the front, and the text after them. One underscore may stand between any
two digits; it does not count. -/
def digitRun (base : Nat) : List Char → List Char × List Char
  | [] => ([], [])
  | c :: '_' :: rest =>
    if Text.isDigit base c then
      if rest.head?.any (Text.isDigit base) then
        let (digits, rest) := digitRun base rest
        (c :: digits, rest)
      else ([c], '_' :: rest)
    else ([], c :: '_' :: rest)
  | c :: rest =>
    if Text.isDigit base c then
      let (digits, rest) := digitRun base rest
      (c :: digits, rest)
    else ([], c :: rest)

/-- The sign at the front, which may be absent, and the text after it. -/
def splitSign : List Char → Option Char × List Char
  | '+' :: rest => (some '+', rest)
  | '-' :: rest => (some '-', rest)
  | cs => (none, cs)

/-- The digits of a number without leading zeros, and the text after them. -/
def wholeDigits : List Char → List Char × List Char
  | '0' :: rest => (['0'], rest)
  | cs => digitRun 10 cs

/-- The digits of a fraction at the front, and the text after them. -/
def fraction? : List Char → Option (List Char × List Char)
  | '.' :: rest =>
    let (digits, rest) := digitRun 10 rest
    if digits.isEmpty then none else some (digits, rest)
  | _ => none

/-- The exponent at the front, and the text after it. -/
def exponent? : List Char → Option (Int × List Char)
  | e :: rest =>
    let (sign, rest) := splitSign rest
    let (digits, rest) := digitRun 10 rest
    if (e = 'e' ∨ e = 'E') ∧ !digits.isEmpty then
      let n : Int := Text.numeral 10 digits
      some (if sign = some '-' then -n else n, rest)
    else none
  | [] => none

/-- The least number that rounds to none of 64 bits: it lies halfway between the largest of them and
the next power of two. -/
def roundingLimit : Nat := Nat.pow 2 1024 - Nat.pow 2 970

/-- Whether the number with some digits, of which the last is worth `10 ^ scale`, is too large to be
rounded. The limit has 309 digits before the point, so the place of the first digit decides unless
it is the 309th. -/
def tooLarge (digits : List Char) (scale : Int) : Bool :=
  let digits := digits.dropWhile (· == '0')
  let places := digits.length + scale
  !digits.isEmpty && (decide (309 < places) || places == 309 &&
    decide (roundingLimit * Nat.pow 10 (-scale).toNat ≤
      Text.numeral 10 digits * Nat.pow 10 scale.toNat))

/-- An integer of 64 bits. -/
def integer? (negative : Bool) (magnitude : Nat) : Option Data :=
  if negative && magnitude != 0 then if magnitude ≤ Nat.pow 2 63 then some .other else none
  else if magnitude < Nat.pow 2 63 then some (.nat magnitude)
  else none

/-- An integer or a decimal fraction. Only a positive fraction can be too large. -/
def readDecimal (cs : List Char) : Option (Data × List Char) :=
  let (sign, unsigned) := splitSign cs
  let (whole, rest) := wholeDigits unsigned
  if whole.isEmpty then none
  else
    match fraction? rest, exponent? rest with
    | none, none => (integer? (sign = some '-') (Text.numeral 10 whole)).map (·, rest)
    | none, some (exponent, rest) => decimal sign whole exponent rest
    | some (places, rest), _ =>
      let (exponent, rest) := (exponent? rest).getD (0, rest)
      decimal sign (whole ++ places) (exponent - places.length) rest
where
  /-- A fraction, and the text after it. -/
  decimal (sign : Option Char) (digits : List Char) (scale : Int) (rest : List Char) :
      Option (Data × List Char) :=
    if sign ≠ some '-' ∧ tooLarge digits scale then none else some (.other, rest)

/-- A natural number in another base. -/
def readBased (base : Nat) (cs : List Char) : Option (Data × List Char) :=
  let (digits, rest) := digitRun base cs
  if digits.isEmpty then none
  else (integer? false (Text.numeral base digits)).map (·, rest)

/-- Infinity, or what is not a number. -/
def readSpecial (cs : List Char) : Option (Data × List Char) :=
  match (splitSign cs).2 with
  | 'i' :: 'n' :: 'f' :: rest | 'n' :: 'a' :: 'n' :: rest => some (.other, rest)
  | _ => none

/-- A number of `count` digits within bounds. -/
def fixedDigits (count low high : Nat) (cs : List Char) : Option (Nat × List Char) :=
  let digits := cs.take count
  let n := Text.numeral 10 digits
  if digits.length = count ∧ digits.all (Text.isDigit 10) ∧ low ≤ n ∧ n ≤ high then
    some (n, cs.drop count)
  else none

/-- The text after a character at its front. -/
def after? (c : Char) : List Char → Option (List Char)
  | d :: rest => if d = c then some rest else none
  | [] => none

/-- The days of a month. -/
def daysIn (year month : Nat) : Nat :=
  if month = 2 then
    if year % 4 = 0 ∧ (year % 100 ≠ 0 ∨ year % 400 = 0) then 29 else 28
  else if [4, 6, 9, 11].contains month then 30
  else 31

/-- The text after a day of the calendar. -/
def date? (cs : List Char) : Option (List Char) := do
  let (year, rest) ← fixedDigits 4 0 9999 cs
  let (month, rest) ← fixedDigits 2 1 12 (← after? '-' rest)
  let (_, rest) ← fixedDigits 2 1 (daysIn year month) (← after? '-' rest)
  pure rest

/-- The text after a time of day. -/
def time? (cs : List Char) : Option (List Char) := do
  let (_, rest) ← fixedDigits 2 0 23 cs
  let (_, rest) ← fixedDigits 2 0 59 (← after? ':' rest)
  let (_, rest) ← fixedDigits 2 0 60 (← after? ':' rest)
  match rest with
  | '.' :: digits =>
    if digits.head?.any (Text.isDigit 10) then pure (digits.dropWhile (Text.isDigit 10))
    else none
  | _ => pure rest

/-- The text after the distance of a time from the common time. -/
def offset? : List Char → Option (List Char)
  | 'Z' :: rest | 'z' :: rest => some rest
  | '+' :: rest | '-' :: rest => do
    let (_, rest) ← fixedDigits 2 0 23 rest
    let (_, rest) ← fixedDigits 2 0 59 (← after? ':' rest)
    pure rest
  | _ => none

/-- The text after a time of day that goes with a date, and its offset. -/
def timeOfDate? : List Char → Option (List Char)
  | c :: rest =>
    if c = 'T' ∨ c = 't' ∨ c = ' ' then (time? rest).map fun rest => (offset? rest).getD rest
    else none
  | [] => none

/-- The name under which a date or a time stands in its table. -/
def momentName : String := "moment"

/-- The table of a date or a time, which was taken from the front of `cs` if `rest` is left. -/
def moment (cs rest : List Char) : Data :=
  .table [(momentName, .text (String.ofList (cs.take (cs.length - rest.length))))]

/-- A date with or without a time, or a time alone. -/
def readMoment (cs : List Char) : Option (Data × List Char) :=
  match date? cs with
  | some rest =>
    let rest := (timeOfDate? rest).getD rest
    some (moment cs rest, rest)
  | none => (time? cs).map fun rest => (moment cs rest, rest)

/-- A number, a date or a time. -/
def readNumber (cs : List Char) : Option (Data × List Char) :=
  match cs with
  | '0' :: 'x' :: rest => readBased 16 rest
  | '0' :: 'o' :: rest => readBased 8 rest
  | '0' :: 'b' :: rest => readBased 2 rest
  | _ => readMoment cs <|> readDecimal cs <|> readSpecial cs

end Entail.Toml
