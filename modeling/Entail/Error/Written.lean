import Entail.Data
import Entail.Error

/-!
# Errors as data

`Error.toData` writes an error with what is known of it, and `Error.ofData?` reads it back.
-/

namespace Entail

/-- What is known of a context, as data. -/
def ErrorContext.toData (c : ErrorContext) : Data :=
  let fields :=
    if c.fields.isEmpty then []
    else [("fields", Data.table (c.fields.map fun (key, value) => (key, .text value)))]
  let location := match c.location with
    | some location => [("location", Data.text location)]
    | none => []
  let causes := if c.causes.isEmpty then [] else [("causes", Data.list (c.causes.map .text))]
  .table (fields ++ location ++ causes)

/-- A context read from data. -/
def ErrorContext.ofData? (d : Data) : Option ErrorContext := do
  let found ← d.fields? false ["fields", "location", "causes"]
  match found with
  | [fields, location, causes] =>
    pure {
      fields := ← Data.withDefault? [] Data.texts? fields
      location := ← Data.optional? Data.text? location
      causes := ← Data.withDefault? [] (Data.listOf? Data.text?) causes }
  | _ => none

namespace Error

/-- An error as data. -/
def toData (e : Error) : Data :=
  let context := match e.context with
    | some c => [("context", c.toData)]
    | none => []
  let hint := match e.hint with
    | some hint => [("hint", Data.text hint)]
    | none => []
  .table ([("code", .text e.code.name), ("message", .text e.message)] ++ context ++ hint)

/-- An error read from data. -/
def ofData? (d : Data) : Option Error := do
  let found ← d.fields? false ["code", "message", "context", "hint"]
  match found with
  | [code, message, context, hint] =>
    pure {
      code := ← Data.required? (fun d => (d.name? false).bind ErrorCode.ofName?) code
      message := ← Data.required? Data.text? message
      context := ← Data.optional? ErrorContext.ofData? context
      hint := ← Data.optional? Data.text? hint }
  | _ => none

/-- An error with everything that its code says. -/
def describe (e : Error) : Data :=
  .table
    [("code", .text e.code.name), ("number", .nat e.code.number),
      ("description", .text e.code.description), ("fatal", .bool e.code.fatal),
      ("display", .text e.display), ("json", e.toData)]

/-- An error with its message, its hint and its details. -/
def summary (e : Error) : Data :=
  .table
    [("error", .text e.code.name), ("message", .text e.message), ("hint", .ofText? e.hint),
      ("fields", match e.context with
        | some c => .table (c.fields.map fun (key, value) => (key, .text value))
        | none => .null)]

end Error

end Entail
