import Entail.Data
import Entail.Text.Digits

/-!
# JSON

`Json.parse` reads a JSON text and `Json.write` and `Json.writePretty` write one. A reader takes
characters from the front of what is left of the text, and answers with a value and the rest. Arrays
and objects may be nested to any depth: what is still open is kept in a list (`Open`).

A number is natural if it is written with digits only and fits in 64 bits. An escape may stand for
half a pair of surrogates; a string with a half on its own is no text (`chars?`). All other numbers
and such strings are `Data.other`, and so is an object in which such a string is a name.
-/

namespace Entail.Json

/-- Whether a character may stand between the tokens. -/
def isSpace (c : Char) : Bool := c == ' ' || c == '\n' || c == '\t' || c == '\r'

/-- The text from its first token on. -/
def skip (cs : List Char) : List Char := cs.dropWhile isSpace

/-- The number that four hexadecimal digits stand for. -/
def hex4? (a b c d : Char) : Option Nat := do
  let a ← Text.digitValue? a
  let b ← Text.digitValue? b
  let c ← Text.digitValue? c
  let d ← Text.digitValue? d
  pure (((a * 16 + b) * 16 + c) * 16 + d)

/-- The character of an escape of one letter. -/
def escaped? : Char → Option Char
  | '"' => some '"'
  | '\\' => some '\\'
  | '/' => some '/'
  | 'b' => some '\x08'
  | 'f' => some '\x0c'
  | 'n' => some '\n'
  | 'r' => some '\r'
  | 't' => some '\t'
  | _ => none

/-- The codes in a string, after its opening quote. Those read so far come in reverse. -/
def readCodes (acc : List Nat) : List Char → Option (List Nat × List Char)
  | '"' :: rest => some (acc.reverse, rest)
  | '\\' :: 'u' :: a :: b :: c :: d :: rest =>
    match hex4? a b c d with
    | some code => readCodes (code :: acc) rest
    | none => none
  | '\\' :: c :: rest =>
    match escaped? c with
    | some c => readCodes (c.toNat :: acc) rest
    | none => none
  | c :: rest => if c.toNat < 0x20 then none else readCodes (c.toNat :: acc) rest
  | [] => none

/-- The characters that codes stand for, behind those in `acc`, which come in reverse. Characters
beyond the first plane may be written as a pair of surrogates, of which none must stand alone. -/
def chars? (acc : List Char) : List Nat → Option (List Char)
  | high :: low :: rest =>
    if 0xD800 ≤ high ∧ high < 0xDC00 ∧ 0xDC00 ≤ low ∧ low < 0xE000 then
      chars? (Char.ofNat (0x10000 + (high - 0xD800) * 0x400 + (low - 0xDC00)) :: acc) rest
    else if high.isValidChar then chars? (Char.ofNat high :: acc) (low :: rest)
    else none
  | [code] => if code.isValidChar then some (Char.ofNat code :: acc).reverse else none
  | [] => some acc.reverse

/-- A string after its opening quote; `none` stands for one that is no text. -/
def readString (cs : List Char) : Option (Option String × List Char) :=
  (readCodes [] cs).map fun (codes, rest) => ((chars? [] codes).map String.ofList, rest)

/-- The digits at the front. -/
def digits (cs : List Char) : List Char := cs.takeWhile (Text.isDigit 10)

/-- The fraction at the front, which may be absent. -/
def fraction? (cs : List Char) : Option (List Char) :=
  match cs with
  | '.' :: rest => if (digits rest).isEmpty then none else some ('.' :: digits rest)
  | _ => some []

/-- The exponent at the front, which may be absent. -/
def exponent? (cs : List Char) : Option (List Char) :=
  match cs with
  | e :: rest =>
    if e = 'e' ∨ e = 'E' then
      let (sign, rest) := match rest with
        | '+' :: rest => (['+'], rest)
        | '-' :: rest => (['-'], rest)
        | _ => ([], rest)
      if (digits rest).isEmpty then none else some (e :: sign ++ digits rest)
    else some []
  | [] => some []

/-- A number. -/
def readNumber (cs : List Char) : Option (Data × List Char) := do
  let (sign, unsigned) := match cs with
    | '-' :: rest => (['-'], rest)
    | _ => ([], cs)
  let whole := digits unsigned
  if whole.isEmpty ∨ (whole.head? = some '0' ∧ 1 < whole.length) then none
  else
    let rest := unsigned.drop whole.length
    let fraction ← fraction? rest
    let exponent ← exponent? (rest.drop fraction.length)
    let rest := rest.drop (fraction.length + exponent.length)
    let value := Text.numeral 10 whole
    if sign.isEmpty ∧ fraction.isEmpty ∧ exponent.isEmpty ∧ value < Nat.pow 2 64 then
      pure (.nat value, rest)
    else pure (.other, rest)

/-- The text after a word at its front. -/
def expect? (word : List Char) (cs : List Char) : Option (List Char) :=
  if word.isPrefixOf cs then some (cs.drop word.length) else none

/-- An array or an object of which a part has been read. -/
inductive Open where
  /-- The items read, in reverse. -/
  | items (read : List Data)
  /-- The members read, in reverse, and the name of the one whose value comes next. -/
  | fields (read : List (Option String × Data)) (name : Option String)
  deriving Inhabited

/-- An object with some members. Every name must be a text. -/
def objectOf (members : List (Option String × Data)) : Data :=
  match members.mapM fun (name, value) => name.map (·, value) with
  | some fields => .table fields
  | none => .other

mutual

/-- A value, and what follows it in the arrays and objects that are open around it, innermost first.
Every step takes a character at least, so `fuel` need only exceed the length of the text. -/
def readValue (fuel : Nat) (around : List Open) (cs : List Char) : Option (Data × List Char) :=
  match fuel with
  | 0 => none
  | fuel + 1 =>
    match skip cs with
    | 'n' :: rest => (expect? ['u', 'l', 'l'] rest).bind (readOn fuel around .null)
    | 't' :: rest => (expect? ['r', 'u', 'e'] rest).bind (readOn fuel around (.bool true))
    | 'f' :: rest => (expect? ['a', 'l', 's', 'e'] rest).bind (readOn fuel around (.bool false))
    | '"' :: rest =>
      (readString rest).bind fun (s, rest) =>
        readOn fuel around ((s.map Data.text).getD .other) rest
    | '[' :: rest =>
      match skip rest with
      | ']' :: rest => readOn fuel around (.list []) rest
      | rest => readValue fuel (.items [] :: around) rest
    | '\x7b' :: rest =>
      match skip rest with
      | '\x7d' :: rest => readOn fuel around (.table []) rest
      | rest => readMember fuel [] around rest
    | rest => (readNumber rest).bind fun (value, rest) => readOn fuel around value rest

/-- What follows a value in the arrays and objects that are open around it. -/
def readOn (fuel : Nat) (around : List Open) (value : Data) (cs : List Char) :
    Option (Data × List Char) :=
  match fuel with
  | 0 => none
  | fuel + 1 =>
    match around with
    | [] => some (value, cs)
    | .items read :: around =>
      match skip cs with
      | ',' :: rest => readValue fuel (.items (value :: read) :: around) rest
      | ']' :: rest => readOn fuel around (.list (value :: read).reverse) rest
      | _ => none
    | .fields read name :: around =>
      match skip cs with
      | ',' :: rest => readMember fuel ((name, value) :: read) around rest
      | '\x7d' :: rest => readOn fuel around (objectOf ((name, value) :: read).reverse) rest
      | _ => none

/-- A member of an object of which some have been read, and what follows. -/
def readMember (fuel : Nat) (read : List (Option String × Data)) (around : List Open)
    (cs : List Char) : Option (Data × List Char) :=
  match fuel with
  | 0 => none
  | fuel + 1 =>
    match skip cs with
    | '"' :: rest =>
      match readString rest with
      | some (name, rest) =>
        match skip rest with
        | ':' :: rest => readValue fuel (.fields read name :: around) rest
        | _ => none
      | none => none
    | _ => none

end

/-- The data that a JSON text stands for. -/
def parse (s : String) : Option Data :=
  let cs := s.toList
  match readValue (cs.length + 2) [] cs with
  | some (value, rest) => if (skip rest).isEmpty then some value else none
  | none => none

/-- A character in a string. -/
def quoteChar (c : Char) : List Char :=
  if c = '"' then ['\\', '"']
  else if c = '\\' then ['\\', '\\']
  else if c = '\x08' then ['\\', 'b']
  else if c = '\x0c' then ['\\', 'f']
  else if c = '\n' then ['\\', 'n']
  else if c = '\r' then ['\\', 'r']
  else if c = '\t' then ['\\', 't']
  else if c.toNat < 0x20 then
    ['\\', 'u', '0', '0', Text.smallDigit (c.toNat / 16), Text.smallDigit (c.toNat % 16)]
  else [c]

/-- A string in quotes. -/
def quote (s : String) : String :=
  String.ofList ('"' :: s.toList.flatMap quoteChar ++ ['"'])

/-- How a text is laid out: what stands before each item, between the items and after the last, at
a given depth, and after the colon of a member. -/
structure Layout where
  lineBreak : Nat → String
  afterColon : String

/-- All on one line. -/
def Layout.compact : Layout := ⟨fun _ => "", ""⟩

/-- Each item on a line of its own, two blanks further in than the brackets around it. -/
def Layout.pretty : Layout :=
  ⟨fun depth => String.ofList ('\n' :: List.replicate (2 * depth) ' '), " "⟩

mutual

/-- A value as text, at a given depth. -/
def writeValue (l : Layout) (depth : Nat) : Data → String
  | .null | .other => "null"
  | .bool true => "true"
  | .bool false => "false"
  | .nat n => toString n
  | .text s => quote s
  | .list [] => "[]"
  | .list (d :: ds) =>
    "[" ++ l.lineBreak (depth + 1) ++ writeValue l (depth + 1) d ++
      writeItems l (depth + 1) ds "" ++ l.lineBreak depth ++ "]"
  | .table [] => "\x7b\x7d"
  | .table ((name, d) :: fields) =>
    "\x7b" ++ l.lineBreak (depth + 1) ++ quote name ++ ":" ++ l.afterColon ++
      writeValue l (depth + 1) d ++ writeFields l (depth + 1) fields "" ++ l.lineBreak depth ++
      "\x7d"

/-- The items after the first, behind the text `acc`. -/
def writeItems (l : Layout) (depth : Nat) : List Data → String → String
  | [], acc => acc
  | d :: ds, acc =>
    writeItems l depth ds (acc ++ "," ++ l.lineBreak depth ++ writeValue l depth d)

/-- The members after the first, behind the text `acc`. -/
def writeFields (l : Layout) (depth : Nat) : List (String × Data) → String → String
  | [], acc => acc
  | (name, d) :: fields, acc =>
    writeFields l depth fields
      (acc ++ "," ++ l.lineBreak depth ++ quote name ++ ":" ++ l.afterColon ++
        writeValue l depth d)

end

/-- Data as a JSON text on one line. -/
def write (d : Data) : String := writeValue .compact 0 d

/-- Data as an indented JSON text. -/
def writePretty (d : Data) : String := writeValue .pretty 0 d

end Entail.Json
