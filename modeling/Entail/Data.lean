/-!
# Plain data

`Data` is a tree of plain values, which text formats carry: JSON (`Entail.Data.Json`) and TOML
(`Entail.Data.Toml`). What a format can say besides has no use here; a value of that kind is
`other`, which may stand where nobody looks, and is refused wherever a value is read.

A record is read from such a tree field by field: from a table by the names of the fields, or from a
list by their order (`Data.fields?`).
-/

namespace Entail

/-- A tree of plain values. -/
inductive Data where
  | null
  | bool (value : Bool)
  /-- A natural number of at most 64 bits. -/
  | nat (value : Nat)
  | text (value : String)
  | list (items : List Data)
  /-- Named values in the order in which they were given. -/
  | table (fields : List (String × Data))
  /-- Any other number, or what should be a text or a name and is not. -/
  | other
  deriving Repr, Inhabited

namespace Data

/-- The value that a table has under a name; the first one, should there be several. -/
def get? (d : Data) (name : String) : Option Data :=
  match d with
  | table fields => fields.lookup name
  | _ => none

/-- A number as data. -/
def ofNat? : Option Nat → Data
  | some n => nat n
  | none => null

/-- A text as data. -/
def ofText? : Option String → Data
  | some s => text s
  | none => null

/-- Whether some name stands twice in a table. -/
def repeats (fields : List (String × Data)) : Bool :=
  match fields with
  | [] => false
  | (name, _) :: rest => rest.any (·.1 == name) || repeats rest

/-- The values of the fields `names`, as far as they are given: by name in a table, which may hold
other names too but none of these twice, and by order in a list, which may only be longer if
`lenient`. -/
def fields? (lenient : Bool) (names : List String) : Data → Option (List (Option Data))
  | table fields =>
    if repeats (fields.filter fun (name, _) => names.contains name) then none
    else some (names.map fun name => fields.lookup name)
  | list items =>
    if names.length < items.length && !lenient then none
    else some ((List.range names.length).map fun i => items[i]?)
  | _ => none

/-- A truth value. -/
def bool? : Data → Option Bool
  | bool b => some b
  | _ => none

/-- A natural number. -/
def nat? : Data → Option Nat
  | nat n => some n
  | _ => none

/-- A text. -/
def text? : Data → Option String
  | text s => some s
  | _ => none

/-- Whether a value says nothing, as what goes with a bare name does. -/
def isNothing (lenient : Bool) : Data → Bool
  | null => !lenient
  | list [] | table [] => lenient
  | _ => false

/-- One of several names: as a text, or as a table with the name alone in it. -/
def name? (lenient : Bool) : Data → Option String
  | text s => some s
  | table [(name, value)] => if value.isNothing lenient then some name else none
  | _ => none

/-- A table of texts, the last of several values of one name. -/
def texts? : Data → Option (List (String × String))
  | table fields =>
    fields.foldlM (fun found (name, value) => do
      let value ← value.text?
      pure (found.filter (·.1 != name) ++ [(name, value)])) []
  | _ => none

/-- The items of a list. -/
def list? : Data → Option (List Data)
  | list items => some items
  | _ => none

/-- A field that may be missing or null. -/
def optional? {α : Type} (f : Data → Option α) : Option Data → Option (Option α)
  | none | some null => some none
  | some d => (f d).map some

/-- A field that has a default when it is missing. -/
def withDefault? {α : Type} (default : α) (f : Data → Option α) : Option Data → Option α
  | none => some default
  | some d => f d

/-- A field that must be given. -/
def required? {α : Type} (f : Data → Option α) (d : Option Data) : Option α := d.bind f

/-- A list of which every item can be read. -/
def listOf? {α : Type} (f : Data → Option α) (d : Data) : Option (List α) :=
  d.list?.bind (·.mapM f)

end Data

end Entail
