import Entail.Text.Digits

/-!
# Text in TOML

What stands between the values of a document, its strings and its keys. A string is basic, with
escapes (`readBasic`), or literal (`readLiteral`), and either kind may run over several lines. A key
is a list of names with dots between them (`readKey`). `writeString` and `writeName` write a text so
that it reads back.

A reader takes characters from the front of what is left of a document, and answers with a value and
the rest.
-/

namespace Entail.Toml

/-! ## Between the values -/

/-- Whether a character is a blank within a line. -/
def isBlank (c : Char) : Bool := c == ' ' || c == '\t'

/-- The text from its first character on that is no blank. -/
def skipBlanks (cs : List Char) : List Char := cs.dropWhile isBlank

/-- Whether a character may stand for itself in comments and strings. -/
def isPlain (c : Char) : Bool := c == '\t' || (decide (' ' ≤ c) && c != '\x7f')

/-- The text after the line end at its front. -/
def newline? : List Char → Option (List Char)
  | '\n' :: rest => some rest
  | '\r' :: '\n' :: rest => some rest
  | _ => none

/-- The text after the comment at its front, which may be absent. -/
def skipComment : List Char → List Char
  | '#' :: rest => rest.dropWhile isPlain
  | cs => cs

/-- The text after the current line, in which only blanks and a comment may be left. -/
def endLine? (cs : List Char) : Option (List Char) :=
  match skipComment (skipBlanks cs) with
  | [] => some []
  | rest => newline? rest

/-- The text after any blanks, comments and line ends. -/
def skipLines : Nat → List Char → Option (List Char)
  | 0, _ => none
  | fuel + 1, cs =>
    let cs := skipBlanks cs
    match cs.head? with
    | some '#' | some '\n' | some '\r' => (newline? (skipComment cs)).bind (skipLines fuel)
    | _ => some cs

/-! ## Strings -/

/-- The character with the number that `count` hexadecimal digits stand for. -/
def readCode (count : Nat) (cs : List Char) : Option (Char × List Char) :=
  let digits := cs.take count
  let code := Text.numeral 16 digits
  if digits.length = count ∧ digits.all (Text.isDigit 16) ∧ code.isValidChar then
    some (Char.ofNat code, cs.drop count)
  else none

/-- The character of an escape, after the backslash. -/
def readEscape : List Char → Option (Char × List Char)
  | 'b' :: rest => some ('\x08', rest)
  | 't' :: rest => some ('\t', rest)
  | 'n' :: rest => some ('\n', rest)
  | 'f' :: rest => some ('\x0c', rest)
  | 'r' :: rest => some ('\r', rest)
  | '"' :: rest => some ('"', rest)
  | '\\' :: rest => some ('\\', rest)
  | 'u' :: rest => readCode 4 rest
  | 'U' :: rest => readCode 8 rest
  | _ => none

/-- A basic string after its opening quote. The characters read so far come in reverse. -/
def readBasic : Nat → List Char → List Char → Option (String × List Char)
  | 0, _, _ => none
  | _ + 1, _, [] => none
  | fuel + 1, acc, c :: rest =>
    if c = '"' then some (String.ofList acc.reverse, rest)
    else if c = '\\' then
      match readEscape rest with
      | some (c, rest) => readBasic fuel (c :: acc) rest
      | none => none
    else if isPlain c then readBasic fuel (c :: acc) rest
    else none

/-- A literal string after its opening quote. -/
def readLiteral (cs : List Char) : Option (String × List Char) :=
  let (content, rest) := cs.span fun c => isPlain c && c != '\''
  match rest with
  | '\'' :: rest => some (String.ofList content, rest)
  | _ => none

/-- The text after three quotes of one kind. -/
def threeQuotes? (quote : Char) : List Char → Option (List Char)
  | a :: b :: c :: rest => if a = quote ∧ b = quote ∧ c = quote then some rest else none
  | _ => none

/-- The text after a line end at its front, which may be absent. -/
def skipNewline (cs : List Char) : List Char := (newline? cs).getD cs

/-- The text after any blanks and line ends. -/
def skipBlankLines : List Char → List Char
  | '\r' :: '\n' :: rest => skipBlankLines rest
  | c :: rest => if isBlank c || c == '\n' then skipBlankLines rest else c :: rest
  | [] => []

/-- The text after a backslash that ends a line: the blanks around the line end do not count. -/
def joinLines? (cs : List Char) : Option (List Char) :=
  (newline? (skipBlanks cs)).map skipBlankLines

/-- A string over several lines after its three opening quotes; a basic one may have escapes. Up to
two quotes may stand before the three closing ones. The characters read so far come in reverse. -/
def readMultiline (quote : Char) : Nat → List Char → List Char → Option (String × List Char)
  | 0, _, _ => none
  | _ + 1, _, [] => none
  | fuel + 1, acc, c :: rest =>
    match threeQuotes? quote (c :: rest) with
    | some rest =>
      let more := (rest.take 2).takeWhile (· == quote)
      some (String.ofList (acc.reverse ++ more), rest.drop more.length)
    | none =>
      if c = '\\' ∧ quote = '"' then
        match joinLines? rest with
        | some rest => readMultiline quote fuel acc rest
        | none =>
          match readEscape rest with
          | some (c, rest) => readMultiline quote fuel (c :: acc) rest
          | none => none
      else
        match newline? (c :: rest) with
        | some rest => readMultiline quote fuel ('\n' :: acc) rest
        | none => if isPlain c then readMultiline quote fuel (c :: acc) rest else none

/-- A string of any kind. -/
def readString (cs : List Char) : Option (String × List Char) :=
  match threeQuotes? '"' cs, threeQuotes? '\'' cs, cs with
  | some rest, _, _ => readMultiline '"' (rest.length + 1) [] (skipNewline rest)
  | _, some rest, _ => readMultiline '\'' (rest.length + 1) [] (skipNewline rest)
  | _, _, '"' :: rest => readBasic (rest.length + 1) [] rest
  | _, _, '\'' :: rest => readLiteral rest
  | _, _, _ => none

/-! ## Keys -/

/-- Whether a character may stand in a name without quotes. -/
def isBare (c : Char) : Bool := c.isAlphanum || c == '_' || c == '-'

/-- A single name. -/
def readName (cs : List Char) : Option (String × List Char) :=
  match cs with
  | '"' :: rest => readBasic (rest.length + 1) [] rest
  | '\'' :: rest => readLiteral rest
  | _ =>
    let (name, rest) := cs.span isBare
    if name.isEmpty then none else some (String.ofList name, rest)

/-- How deep values may be nested, and keys be long, plus one. -/
def depthLimit : Nat := 80

/-- Names with dots between them, and the text after the blanks that follow. -/
def readNames : Nat → List Char → Option (List String × List Char)
  | 0, _ => none
  | fuel + 1, cs => do
    let (name, rest) ← readName (skipBlanks cs)
    match skipBlanks rest with
    | '.' :: rest =>
      let (names, rest) ← readNames fuel rest
      pure (name :: names, rest)
    | rest => pure ([name], rest)

/-- A key: all its names but the last, the last one, and the text after the blanks that follow. -/
def readKey (cs : List Char) : Option ((List String × String) × List Char) := do
  let (names, rest) ← readNames (depthLimit - 1) cs
  let name ← names.getLast?
  pure ((names.dropLast, name), rest)

/-! ## Writing -/

/-- Whether a text has characters that only an escape can stand for. -/
def needsEscape (cs : List Char) : Bool := cs.any fun c => !isPlain c && c != '\n'

/-- The length of the longest run of a character, given that of the run so far. -/
def longestRun (c : Char) : Nat → List Char → Nat
  | run, [] => run
  | run, d :: ds => if d = c then longestRun c (run + 1) ds else max run (longestRun c 0 ds)

/-- The escape of a character that needs one in every basic string. -/
def escape? (c : Char) : Option (List Char) :=
  if c = '\x08' then some ['\\', 'b']
  else if c = '\t' then some ['\\', 't']
  else if c = '\x0c' then some ['\\', 'f']
  else if c = '\r' then some ['\\', 'r']
  else if c = '\\' then some ['\\', '\\']
  else if c = '\n' ∨ isPlain c then none
  else
    some ['\\', 'u', '0', '0', Text.capitalDigit (c.toNat / 16), Text.capitalDigit (c.toNat % 16)]

/-- The content of a basic string on one line. -/
def escapeLine (cs : List Char) : List Char :=
  cs.flatMap fun c =>
    if c = '"' then ['\\', '"'] else if c = '\n' then ['\\', 'n'] else (escape? c).getD [c]

/-- The content of a basic string over several lines, in which every third quote of a run is
escaped. The first argument is the number of quotes before. -/
def escapeLines : Nat → List Char → List Char
  | _, [] => []
  | run, c :: cs =>
    if c = '"' then
      if run = 2 then '\\' :: '"' :: escapeLines 0 cs else '"' :: escapeLines (run + 1) cs
    else (escape? c).getD [c] ++ escapeLines 0 cs

/-- A text in one basic string on one line. -/
def basic (cs : List Char) : List Char := '"' :: escapeLine cs ++ ['"']

/-- A text in a literal string on one line. -/
def literal (cs : List Char) : List Char := '\'' :: cs ++ ['\'']

/-- A content between three quotes; it starts on a line of its own if it has line ends. -/
def multiline (quote : Char) (content : List Char) : List Char :=
  let quotes := List.replicate 3 quote
  quotes ++ (if content.contains '\n' then ['\n'] else []) ++ content ++ quotes

/-- A text as a string, of the kind that leaves it most readable: without escapes if possible, and
on one line if it has no line ends. -/
def writeString (s : String) : String :=
  let cs := s.toList
  let plain := !needsEscape cs
  let oneLine := !cs.contains '\n'
  let noBackslash := !cs.contains '\\'
  let quotes := longestRun '"' 0 cs
  let apostrophes := longestRun '\'' 0 cs
  String.ofList <|
    if plain && noBackslash && quotes == 0 && oneLine then basic cs
    else if plain && apostrophes == 0 && oneLine then literal cs
    else if plain && noBackslash && quotes ≤ 2 then multiline '"' (escapeLines 0 cs)
    else if plain && apostrophes ≤ 2 then multiline '\'' cs
    else if oneLine then basic cs
    else multiline '"' (escapeLines 0 cs)

/-- A name as a key. -/
def writeName (s : String) : String :=
  let cs := s.toList
  let plain := cs.all isPlain
  String.ofList <|
    if !cs.isEmpty && cs.all isBare then cs
    else if plain && !cs.contains '\\' && !cs.contains '"' then basic cs
    else if plain && !cs.contains '\'' then literal cs
    else basic cs

end Entail.Toml
