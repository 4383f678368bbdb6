import Entail.Data

/-!
# Tables of a TOML document

A document is a tree of tables. A table comes about by its header, by the header of a table in it,
or by a key with dots (`Origin`), and may have one header at most. Keys with dots add only to tables
that such keys have made; no name is given twice in one table (`Entries.add`, `Entries.openTable`).
-/

namespace Entail.Toml

/-- How a table came about. -/
inductive Origin where
  /-- By its own header. -/
  | header
  /-- By the header of a table in it. -/
  | implied
  /-- By a key with dots. -/
  | dotted
  deriving DecidableEq, Repr, Inhabited

/-- What a name in a document stands for. -/
inductive Item where
  | value (d : Data)
  | table (origin : Origin) (entries : List (String × Item))
  /-- Tables with headers in double brackets. -/
  | tables (items : List (List (String × Item)))
  deriving Inhabited

/-- The names in a table. -/
abbrev Entries := List (String × Item)

namespace Entries

/-- The table with another item under a name that it has. -/
def replace (entries : Entries) (name : String) (item : Item) : Entries :=
  entries.map fun (other, old) => if other = name then (other, item) else (other, old)

/-- Changes the table that a path of headers leads to. Tables on the way are made if they are
missing, and a list of tables stands for its last one. -/
def within (f : Entries → Option Entries) : List String → Entries → Option Entries
  | [], entries => f entries
  | name :: path, entries =>
    match entries.lookup name with
    | none => (within f path []).map fun sub => entries ++ [(name, .table .implied sub)]
    | some (.table origin sub) =>
      (within f path sub).map fun sub => entries.replace name (.table origin sub)
    | some (.tables items) =>
      (within f path (items.getLast?.getD [])).map fun sub =>
        entries.replace name (.tables (items.dropLast ++ [sub]))
    | some (.value _) => none

/-- Gives a table a header. -/
def openTable (name : String) (entries : Entries) : Option Entries :=
  match entries.lookup name with
  | none => some (entries ++ [(name, .table .header [])])
  | some (.table .implied sub) => some (entries.replace name (.table .header sub))
  | _ => none

/-- Adds a table to a list of tables. -/
def openNext (name : String) (entries : Entries) : Option Entries :=
  match entries.lookup name with
  | none => some (entries ++ [(name, .tables [[]])])
  | some (.tables items) => some (entries.replace name (.tables (items ++ [[]])))
  | _ => none

/-- Adds an item under a key with dots. It is added only to a table that is `free` for it: the one
with the key, or one that such a key has made. -/
def add (name : String) (item : Item) (free : Bool) : List String → Entries → Option Entries
  | [], entries =>
    if free && !entries.any (·.1 == name) then some (entries ++ [(name, item)]) else none
  | step :: path, entries =>
    match entries.lookup step with
    | none => (add name item true path []).map fun sub => entries ++ [(step, .table .dotted sub)]
    | some (.table .dotted sub) =>
      (add name item true path sub).map fun sub => entries.replace step (.table .dotted sub)
    | some (.table .implied sub) =>
      (add name item false path sub).map fun sub => entries.replace step (.table .implied sub)
    | some (.tables items) =>
      (add name item false path (items.getLast?.getD [])).map fun sub =>
        entries.replace step (.tables (items.dropLast ++ [sub]))
    | some (.table .header _) | some (.value _) => none

end Entries

mutual

/-- An item as data. -/
def Item.toData : Item → Data
  | .value d => d
  | .table _ entries => .table (fieldsOf entries)
  | .tables items => .list (listOf items)

/-- The names in a table with their data. -/
def fieldsOf : List (String × Item) → List (String × Data)
  | [] => []
  | (name, item) :: rest => (name, item.toData) :: fieldsOf rest

/-- Tables as data. -/
def listOf : List (List (String × Item)) → List Data
  | [] => []
  | entries :: rest => .table (fieldsOf entries) :: listOf rest

end

end Entail.Toml
