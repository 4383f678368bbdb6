import Entail.Text.Case

/-!
# Modes of maintenance

The `Strategy` says how deletions are worked off and the `EqualityMode` how `owl:sameAs` is treated.
A `Mode` is what the tasks of an update need to know: the treatment of equality and whether rules
are applied level by level. Levels are in use only without equality (`Mode.usesLevels`).
-/

namespace Entail

/-- How it is decided which facts go when base facts are retracted. -/
inductive Strategy where
  /-- Every fact that may have lost its support is deleted, and put back if it still has some. -/
  | dred
  /-- A fact is deleted only once no proof of it was found. -/
  | fbf
  deriving DecidableEq, Repr, Inhabited

namespace Strategy

/-- The strategies. -/
def all : List Strategy := [dred, fbf]

/-- The name of a strategy. -/
def name : Strategy → String
  | dred => "dred"
  | fbf => "fbf"

/-- The strategy with a name. -/
def ofName? (name : String) : Option Strategy := all.find? fun s => s.name == name

/-- The strategy that a user means, in any case of the letters. -/
def ofText? (text : String) : Option Strategy :=
  let s := Text.lower text
  if ["dred", "delete-rederive"].contains s then some dred
  else if ["fbf", "backward-forward", "bf"].contains s then some fbf
  else none

end Strategy

/-- How `owl:sameAs` is treated. -/
inductive EqualityMode where
  /-- As any other property. -/
  | off
  /-- As equality. -/
  | noUna
  /-- As equality, while different IRIs are known to be different. -/
  | una
  deriving DecidableEq, Repr, Inhabited

namespace EqualityMode

/-- The treatments of equality. -/
def all : List EqualityMode := [off, noUna, una]

/-- The name of a treatment. -/
def name : EqualityMode → String
  | off => "off"
  | noUna => "no-una"
  | una => "una"

/-- The treatment with a name. -/
def ofName? (name : String) : Option EqualityMode := all.find? fun m => m.name == name

/-- The treatment that a user means, in any case of the letters. -/
def ofText? (text : String) : Option EqualityMode :=
  let s := Text.lower text
  if ["off", "none", "false"].contains s then some off
  else if ["no-una", "nouna", "on", "true"].contains s then some noUna
  else if s = "una" then some una
  else none

/-- Whether `owl:sameAs` is equality. -/
def enabled (m : EqualityMode) : Bool := m != off

/-- Whether different IRIs are known to be different. -/
def uniqueNames (m : EqualityMode) : Bool := m == una

end EqualityMode

/-- What the tasks of an update need to know about the settings. -/
structure Mode where
  equality : EqualityMode := .off
  byLevels : Bool := true
  deriving DecidableEq, Repr, Inhabited

/-- Whether levels are worked off one by one. -/
def Mode.usesLevels (m : Mode) : Bool := m.byLevels && !m.equality.enabled

end Entail
