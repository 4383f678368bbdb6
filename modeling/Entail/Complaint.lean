import Entail.Settings

/-!
# Complaints

A `Complaint` is what a user is told when a command fails: what failed and, if that says more, why.
-/

namespace Entail

/-- What failed, and why. -/
structure Complaint where
  message : String
  cause : Option String := none
  deriving DecidableEq, Repr, Inhabited

namespace Complaint

/-- A text with every line four blanks further in. -/
def indent (text : String) : String :=
  "\n".intercalate ((text.splitOn "\n").map ("    " ++ ·))

/-- A complaint as a text. -/
def display (c : Complaint) : String :=
  match c.cause with
  | some cause => "Error: " ++ c.message ++ "\n\nCaused by:\n" ++ indent cause
  | none => "Error: " ++ c.message

/-- The complaint about a failure while something was `attempted`, if that is to be told. -/
def ofFailure (attempted : Option String) (f : Failure) : Complaint :=
  match attempted with
  | some what => ⟨what, some f.message⟩
  | none => ⟨f.message, none⟩

/-- The complaint about settings. -/
def ofSettings (e : SettingsError) : Complaint := ⟨e.message, none⟩

end Complaint

end Entail
