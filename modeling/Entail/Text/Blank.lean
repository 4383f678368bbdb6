/-!
# Blank characters and the words between them

`isBlank` is Unicode's `White_Space` property. `trim` drops blank characters from both ends of a
text, `splitOn` cuts a text at the characters of a class, and `words` is what is left of the cut
at blank characters once the empty pieces are gone.
-/

namespace Entail.Text

/-- The characters with Unicode's `White_Space` property. -/
def isBlank (c : Char) : Bool :=
  let n := c.toNat
  (9 ≤ n && n ≤ 13) || n == 0x20 || n == 0x85 || n == 0xA0 || n == 0x1680 ||
    (0x2000 ≤ n && n ≤ 0x200A) || n == 0x2028 || n == 0x2029 || n == 0x202F ||
    n == 0x205F || n == 0x3000

/-- The characters without those of the class `p` at the end. -/
def dropEndWhile (p : Char → Bool) (cs : List Char) : List Char :=
  (cs.reverse.dropWhile p).reverse

/-- The characters without the blank ones at either end. -/
def trimChars (cs : List Char) : List Char :=
  dropEndWhile isBlank (cs.dropWhile isBlank)

/-- The text without the blank characters at either end. -/
def trim (s : String) : String :=
  String.ofList (trimChars s.toList)

/-- The pieces between the characters of the class `p`, empty ones included. -/
def splitOn (p : Char → Bool) : List Char → List (List Char)
  | [] => [[]]
  | c :: cs =>
    if p c then [] :: splitOn p cs
    else
      match splitOn p cs with
      | [] => [[c]]
      | piece :: rest => (c :: piece) :: rest

/-- The longest runs of characters that are not blank. -/
def wordChars (cs : List Char) : List (List Char) :=
  (splitOn isBlank cs).filter fun piece => !piece.isEmpty

/-- The words of a text: its longest runs of characters that are not blank. -/
def words (s : String) : List String :=
  (wordChars s.toList).map String.ofList

end Entail.Text
