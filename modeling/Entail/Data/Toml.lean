import Entail.Data.Toml.Document
import Entail.Data.Toml.Number
import Entail.Data.Toml.Text

/-!
# TOML

`Toml.parse` reads a document and `Toml.write?` writes one. A document is a table; its lines are
headers, which say to which table the following lines belong, and pairs of a key and a value.
-/

namespace Entail.Toml

/-- The text after a word at its front. -/
def expect? (word : List Char) (cs : List Char) : Option (List Char) :=
  if word.isPrefixOf cs then some (cs.drop word.length) else none

mutual

/-- A value. `depth` bounds the nesting and `fuel` the number of steps. -/
def readValue (fuel depth : Nat) (cs : List Char) : Option (Data × List Char) :=
  match fuel with
  | 0 => none
  | fuel + 1 =>
    match cs with
    | '"' :: _ | '\'' :: _ => (readString cs).map fun (s, rest) => (.text s, rest)
    | 't' :: rest => (expect? ['r', 'u', 'e'] rest).map (Data.bool true, ·)
    | 'f' :: rest => (expect? ['a', 'l', 's', 'e'] rest).map (Data.bool false, ·)
    | '[' :: rest => if depth ≤ 1 then none else readItems fuel (depth - 1) [] rest
    | '\x7b' :: rest =>
      if depth ≤ 1 then none
      else
        match skipBlanks rest with
        | '\x7d' :: rest => some (.table [], rest)
        | rest => readPairs fuel (depth - 1) [] rest
    | _ => readNumber cs

/-- The items of an array up to its closing bracket. Those read so far come in reverse. -/
def readItems (fuel depth : Nat) (acc : List Data) (cs : List Char) : Option (Data × List Char) :=
  match fuel with
  | 0 => none
  | fuel + 1 =>
    match skipLines (cs.length + 1) cs with
    | none => none
    | some (']' :: rest) => some (.list acc.reverse, rest)
    | some rest =>
      match readValue fuel depth rest with
      | none => none
      | some (value, rest) =>
        match skipLines (rest.length + 1) rest with
        | some (',' :: rest) => readItems fuel depth (value :: acc) rest
        | some (']' :: rest) => some (.list (value :: acc).reverse, rest)
        | _ => none

/-- The pairs of a table within a line up to its closing brace, added to those read so far. -/
def readPairs (fuel depth : Nat) (entries : Entries) (cs : List Char) : Option (Data × List Char) :=
  match fuel with
  | 0 => none
  | fuel + 1 =>
    match readPair fuel depth entries cs with
    | none => none
    | some (entries, rest) =>
      match skipBlanks rest with
      | ',' :: rest => readPairs fuel depth entries rest
      | '\x7d' :: rest => some ((Item.table .header entries).toData, rest)
      | _ => none

/-- A pair of a key and a value, added to the table `entries`. -/
def readPair (fuel depth : Nat) (entries : Entries) (cs : List Char) :
    Option (Entries × List Char) :=
  match fuel with
  | 0 => none
  | fuel + 1 =>
    match readKey cs with
    | some ((path, name), '=' :: rest) =>
      match readValue fuel depth (skipBlanks rest) with
      | some (value, rest) =>
        (entries.add name (.value value) true path).map (·, rest)
      | none => none
    | _ => none

end

/-! ## Documents -/

/-- What was read of a document. -/
structure Reading where
  root : Entries := []
  /-- The table to which the next pair belongs. -/
  current : List String := []

/-- A header after its opening brackets: the names of the table, and the rest of the document. -/
def readHeader (closing : List Char) (cs : List Char) :
    Option ((List String × String) × List Char) := do
  let (key, rest) ← readKey cs
  let rest ← expect? closing rest
  pure (key, ← endLine? rest)

/-- One line of a document. -/
def readLine (r : Reading) (cs : List Char) : Option (Reading × List Char) :=
  match skipBlanks cs with
  | '[' :: '[' :: rest => do
    let ((path, name), rest) ← readHeader [']', ']'] rest
    let root ← r.root.within (Entries.openNext name) path
    pure (⟨root, path ++ [name]⟩, rest)
  | '[' :: rest => do
    let ((path, name), rest) ← readHeader [']'] rest
    let root ← r.root.within (Entries.openTable name) path
    pure (⟨root, path ++ [name]⟩, rest)
  | '#' :: _ | '\n' :: _ | '\r' :: _ | [] => (endLine? (skipBlanks cs)).map (r, ·)
  | cs => do
    let (((path, name), value), rest) ← readAssignment cs
    let root ← r.root.within (Entries.add name (.value value) true path) r.current
    pure ({ r with root }, rest)
where
  /-- A key with its value, on a line of its own. -/
  readAssignment (cs : List Char) : Option (((List String × String) × Data) × List Char) := do
    match ← readKey cs with
    | (key, '=' :: rest) =>
      let (value, rest) ← readValue (2 * rest.length + 2) depthLimit (skipBlanks rest)
      pure ((key, value), ← endLine? rest)
    | _ => none

/-- The lines of a document. -/
def readDocument : Nat → Reading → List Char → Option Entries
  | _, r, [] => some r.root
  | 0, _, _ => none
  | fuel + 1, r, cs =>
    match readLine r cs with
    | some (r, rest) => readDocument fuel r rest
    | none => none

/-- The data that a document stands for: a table. -/
def parse (s : String) : Option Data :=
  let cs := match s.toList with
    | '\uFEFF' :: rest => rest
    | cs => cs
  (readDocument (cs.length + 1) {} cs).map fun entries => (Item.table .header entries).toData

/-! ## Writing -/

/-- A value on the line of its key: a truth value, a number that fits in 63 bits, or a text. -/
def writeValue? : Data → Option String
  | .bool true => some "true"
  | .bool false => some "false"
  | .nat n => if n < Nat.pow 2 63 then some (toString n) else none
  | .text s => some (writeString s)
  | _ => none

/-- The line of a field; a table has no line, and neither has a field that is null. -/
def writeLine? : String × Data → Option (List String)
  | (_, .table _) | (_, .null) => some []
  | (name, d) => (writeValue? d).map fun value => [writeName name ++ " = " ++ value ++ "\n"]

/-- The lines of the fields of a table that are no tables. -/
def writeLines? (fields : List (String × Data)) : Option (List String) :=
  (fields.mapM writeLine?).map List.flatten

/-- The header of the table at a path. -/
def header (path : List String) : String :=
  "[" ++ ".".intercalate (path.map writeName) ++ "]\n"

mutual

/-- The sections of the table at a path: its own, and those of the tables in it. A table that has
only tables in it needs no section of its own. -/
def sections? (path : List String) : Data → Option (List String)
  | .table fields => do
    let lines ← writeLines? fields
    let inner ← sectionsIn? path fields
    let own :=
      if path.isEmpty then if lines.isEmpty then [] else [String.join lines]
      else if lines.isEmpty && !inner.isEmpty then []
      else [header path ++ String.join lines]
    pure (own ++ inner)
  | _ => some []

/-- The sections of the tables among some fields. -/
def sectionsIn? (path : List String) : List (String × Data) → Option (List String)
  | [] => some []
  | (name, d) :: rest => do
    let first ← sections? (path ++ [name]) d
    let others ← sectionsIn? path rest
    pure (first ++ others)

end

/-- A document that stands for a table, a blank line between any two of its sections. Only truth
values, numbers and texts can be written, and tables of them. -/
def write? (d : Data) : Option String := ("\n".intercalate ·) <$> sections? [] d

end Entail.Toml
