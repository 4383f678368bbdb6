import Entail.Error
import Entail.Log
import Entail.Mode
import Entail.Text.Digits

/-!
# Settings

`Settings` say how a store is maintained and what is told about it. A `Profile` sets several of them
at once (`Settings.withProfile`), and variables of the environment single ones
(`Settings.overridden`).
-/

namespace Entail

/-- How much is logged. -/
inductive LogLevel where
  | quiet
  | normal
  | verbose
  | debug
  deriving DecidableEq, Repr, Inhabited

namespace LogLevel

/-- The levels, from the least to the most talkative. -/
def all : List LogLevel := [quiet, normal, verbose, debug]

/-- The name of a level. -/
def name : LogLevel → String
  | quiet => "quiet"
  | normal => "normal"
  | verbose => "verbose"
  | debug => "debug"

/-- The level with a name. -/
def ofName? (name : String) : Option LogLevel := all.find? fun l => l.name == name

/-- The level that a user means, in any case of the letters. -/
def ofText? (text : String) : Option LogLevel :=
  let s := Text.lower text
  if ["quiet", "q", "0"].contains s then some quiet
  else if ["normal", "n", "1"].contains s then some normal
  else if ["verbose", "v", "2"].contains s then some verbose
  else if ["debug", "d", "3"].contains s then some debug
  else none

/-- The name of the least weight that is logged at a level. -/
def threshold : LogLevel → String
  | quiet => "error"
  | normal => "warn"
  | verbose => "info"
  | debug => "debug"

/-- Whether entries of a weight are logged at a level. -/
def shows : LogLevel → Weight → Bool
  | normal, .warn => true
  | verbose, .info | verbose, .warn => true
  | debug, .debug | debug, .info | debug, .warn => true
  | _, _ => false

end LogLevel

/-- Who hears the events of an update. -/
inductive Observer where
  /-- Nobody. -/
  | off
  /-- The log. -/
  | tracing
  /-- The report. -/
  | record
  deriving DecidableEq, Repr, Inhabited

namespace Observer

/-- The observers. -/
def all : List Observer := [off, tracing, record]

/-- The name of an observer. -/
def name : Observer → String
  | off => "off"
  | tracing => "tracing"
  | record => "record"

/-- The observer with a name. -/
def ofName? (name : String) : Option Observer := all.find? fun o => o.name == name

/-- The observer that a user means, in any case of the letters. -/
def ofText? (text : String) : Option Observer :=
  let s := Text.lower text
  if ["off", "none"].contains s then some off
  else if ["tracing", "log"].contains s then some tracing
  else if ["record", "events"].contains s then some record
  else none

end Observer

/-- Settings that belong together. What a profile does not set stays as it is. -/
structure Profile where
  strategy : Option Strategy := none
  workers : Option Nat := none
  byLevels : Option Bool := none
  equality : Option EqualityMode := none
  description : Option String := none
  deriving DecidableEq, Repr, Inhabited

/-- The profiles that always exist. -/
def Profile.builtIn : List (String × Profile) :=
  [("fast",
      { strategy := some .dred, workers := some 0, equality := some .off
        description := some "DRed deletion on every core, no equality" }),
    ("exact", { strategy := some .fbf, description := some "Backward/forward deletion" }),
    ("safe",
      { strategy := some .fbf, workers := some 1
        description := some "Backward/forward deletion on a single worker" })]

/-- How a store is maintained and what is told about it. -/
structure Settings where
  logLevel : LogLevel := .normal
  strategy : Strategy := .fbf
  /-- The number of workers, or 0 for one on each processor. -/
  workers : Nat := 0
  /-- Whether the levels of the rules are worked off one by one. -/
  byLevels : Bool := true
  observer : Observer := .off
  equality : EqualityMode := .off
  /-- The profiles of the user. -/
  profiles : List (String × Profile) := []
  deriving DecidableEq, Repr, Inhabited

/-- Why settings cannot be had. -/
inductive SettingsError where
  | unreadable (path reason : String)
  | malformed (path reason : String)
  | unwritable (reason : String)
  | unknownProfile (name : String)
  deriving DecidableEq, Repr, Inhabited

namespace SettingsError

/-- The code of an error. -/
def code : SettingsError → ErrorCode
  | unreadable .. => .configNotFound
  | malformed .. => .invalidConfigSyntax
  | unwritable _ => .configError
  | unknownProfile _ => .unknownProfile

/-- What a user is told. -/
def message : SettingsError → String
  | unreadable path reason => "IO error reading " ++ path ++ ": " ++ reason
  | malformed path reason => "Parse error in " ++ path ++ ": " ++ reason
  | unwritable reason => "Serialization error: " ++ reason
  | unknownProfile name => "Unknown profile: " ++ name

/-- The error as one of the store. -/
def toError (e : SettingsError) : Error := ⟨e.code, e.message, none, none⟩

end SettingsError

namespace Settings

/-- The settings with those of a profile. -/
def apply (p : Profile) (s : Settings) : Settings :=
  { s with
    strategy := p.strategy.getD s.strategy
    workers := p.workers.getD s.workers
    byLevels := p.byLevels.getD s.byLevels
    equality := p.equality.getD s.equality }

/-- The profile with a name. A profile of the user does not replace a built-in one. -/
def profile? (s : Settings) (name : String) : Option Profile :=
  (Profile.builtIn ++ s.profiles).lookup name

/-- The settings with those of the profile with a name. -/
def withProfile (s : Settings) (name : String) : Except SettingsError Settings :=
  match s.profile? name with
  | some p => .ok (s.apply p)
  | none => .error (.unknownProfile name)

/-- The user's profiles in the order of their names. -/
def sortedProfiles (s : Settings) : List (String × Profile) :=
  s.profiles.mergeSort fun a b => !decide (b.1 < a.1)

/-- Every profile with what it is for. -/
def availableProfiles (s : Settings) : List (String × String) :=
  (Profile.builtIn ++ s.sortedProfiles).map fun (name, p) =>
    (name, p.description.getD "Custom profile")

/-- The settings with `set` done with what the variable `name` stands for, if it stands for
anything. -/
def fromVariable {α : Type} (env : String → Option String) (name : String)
    (read : String → Option α) (set : α → Settings → Settings) (s : Settings) : Settings :=
  match (env name).bind read with
  | some value => set value s
  | none => s

/-- The settings changed by the variables of the environment. A variable with a value that means
nothing is ignored, except that any value switches the work by levels on or off. -/
def overridden (env : String → Option String) (s : Settings) : Settings :=
  s |> fromVariable env "CWM_STRATEGY" Strategy.ofText? (fun v s => { s with strategy := v })
    |> fromVariable env "CWM_WORKERS" Text.count? (fun v s => { s with workers := v })
    |> fromVariable env "CWM_BY_LEVELS" (fun v => some (["true", "1", "yes"].contains v))
      (fun v s => { s with byLevels := v })
    |> fromVariable env "CWM_EQUALITY" EqualityMode.ofText? (fun v s => { s with equality := v })
    |> fromVariable env "CWM_MONITOR" Observer.ofText? (fun v s => { s with observer := v })
    |> fromVariable env "CWM_LOG_LEVEL" LogLevel.ofText? (fun v s => { s with logLevel := v })

/-- The settings with the defaults for the log level and the treatment of equality. -/
def resetGeneral (s : Settings) : Settings := { s with logLevel := .normal, equality := .off }

end Settings

end Entail
