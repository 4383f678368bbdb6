import Entail.Data.Toml
import Entail.Settings

/-!
# Settings as data

`Settings.toData` writes settings section by section and `Settings.ofData?` reads them. Every
section and every field may be left out. `Settings.toToml` and `Settings.ofToml` are the same for
the text of a settings file; `Settings.defaultText` is one with comments for a start.
`Settings.load` finds the file.
-/

namespace Entail

/-- A named value in TOML. -/
def Data.named? {α : Type} (ofName? : String → Option α) (d : Data) : Option α :=
  (d.name? true).bind ofName?

/-- A profile as data; what it does not set is null. -/
def Profile.toData (p : Profile) : Data :=
  .table
    [("strategy", .ofText? (p.strategy.map Strategy.name)), ("workers", .ofNat? p.workers),
      ("by_levels", (p.byLevels.map Data.bool).getD .null),
      ("equality", .ofText? (p.equality.map EqualityMode.name)),
      ("description", .ofText? p.description)]

/-- A profile read from data. -/
def Profile.ofData? (d : Data) : Option Profile := do
  match ← d.fields? true ["strategy", "workers", "by_levels", "equality", "description"] with
  | [strategy, workers, byLevels, equality, description] =>
    pure {
      strategy := ← Data.optional? (Data.named? Strategy.ofName?) strategy
      workers := ← Data.optional? Data.nat? workers
      byLevels := ← Data.optional? Data.bool? byLevels
      equality := ← Data.optional? (Data.named? EqualityMode.ofName?) equality
      description := ← Data.optional? Data.text? description }
  | _ => none

namespace Settings

/-- Settings as data. -/
def toData (s : Settings) : Data :=
  .table
    [("general", .table [("log_level", .text s.logLevel.name)]),
      ("maintenance", .table
        [("strategy", .text s.strategy.name), ("workers", .nat s.workers),
          ("by_levels", .bool s.byLevels), ("monitor", .text s.observer.name)]),
      ("equality", .table [("mode", .text s.equality.name)]),
      ("profiles", .table (s.sortedProfiles.map fun (name, p) => (name, p.toData)))]

/-- The settings with those of the general section. -/
def withGeneral (s : Settings) (d : Data) : Option Settings := do
  match ← d.fields? true ["log_level"] with
  | [logLevel] =>
    pure { s with
      logLevel := ← Data.withDefault? s.logLevel (Data.named? LogLevel.ofName?) logLevel }
  | _ => none

/-- The settings with those of the section on maintenance. -/
def withMaintenance (s : Settings) (d : Data) : Option Settings := do
  match ← d.fields? true ["strategy", "workers", "by_levels", "monitor"] with
  | [strategy, workers, byLevels, observer] =>
    pure { s with
      strategy := ← Data.withDefault? s.strategy (Data.named? Strategy.ofName?) strategy
      workers := ← Data.withDefault? s.workers Data.nat? workers
      byLevels := ← Data.withDefault? s.byLevels Data.bool? byLevels
      observer := ← Data.withDefault? s.observer (Data.named? Observer.ofName?) observer }
  | _ => none

/-- The settings with those of the section on equality. -/
def withEquality (s : Settings) (d : Data) : Option Settings := do
  match ← d.fields? true ["mode"] with
  | [mode] =>
    pure { s with
      equality := ← Data.withDefault? s.equality (Data.named? EqualityMode.ofName?) mode }
  | _ => none

/-- The settings with the profiles of a table. -/
def withProfiles (s : Settings) (d : Data) : Option Settings := do
  match d with
  | .table fields =>
    let profiles ← fields.mapM fun (name, d) => do pure (name, ← Profile.ofData? d)
    pure { s with profiles }
  | _ => none

/-- Settings read from data. -/
def ofData? (d : Data) : Option Settings := do
  match ← d.fields? true ["general", "maintenance", "equality", "profiles"] with
  | [general, maintenance, equality, profiles] =>
    let read (change : Settings → Data → Option Settings) (d : Option Data) (s : Settings) :=
      Data.withDefault? s (change s) d
    read withGeneral general {} >>= read withMaintenance maintenance >>=
      read withEquality equality >>= read withProfiles profiles
  | _ => none

/-- Settings read from the text of a file at `path`. -/
def ofToml (path text : String) : Except SettingsError Settings :=
  match (Toml.parse text).bind ofData? with
  | some s => .ok s
  | none => .error (.malformed path "TOML parse error")

/-- Settings read from the file at `path`. -/
def ofFile (read : String → Except ReadFailure String) (path : String) :
    Except SettingsError Settings :=
  match read path with
  | .ok text => ofToml path text
  | .error f => .error (.unreadable path f.message)

/-- The path that leads from a directory on; a slash at the end of the directory serves for both. -/
def pathIn (directory path : String) : String :=
  if directory.endsWith "/" then directory ++ path else directory ++ "/" ++ path

/-- Where settings are looked for: in the working directory, and then in the directories of the user
and of the system. -/
def searchPaths (env : String → Option String) : List String :=
  let home := (env "HOME").filter (!·.isEmpty)
  let users :=
    ((env "XDG_CONFIG_HOME").filter (·.startsWith "/")).or (home.map (pathIn · ".config"))
  ["./cwm-incremental.toml"] ++
    (users.map (pathIn · "cwm-incremental/config.toml")).toList ++
    (home.map (pathIn · ".cwm-incremental/config.toml")).toList ++
    ["/etc/cwm-incremental/config.toml"]

/-- Whether there is something at a path. -/
def isThere (read : String → Except ReadFailure String) (path : String) : Bool :=
  match read path with
  | .ok _ => true
  | .error f => f.obstacle = .other

/-- The settings of the first file on the search path, or the defaults, changed by the variables of
the environment. -/
def load (env : String → Option String) (read : String → Except ReadFailure String) :
    Except SettingsError Settings :=
  match (searchPaths env).find? (isThere read) with
  | some path => (overridden env) <$> ofFile read path
  | none => .ok (overridden env {})

/-- Settings as the text of a file. The number of workers must fit in 63 bits. -/
def toToml (s : Settings) : Except SettingsError String :=
  match Toml.write? s.toData with
  | some text => .ok text
  | none => .error (.unwritable "out-of-range value for u64 type")

/-- The text of a file with the defaults, and comments. -/
def defaultText : String :=
  "# cwm-incremental configuration file

[general]
# Logging level: quiet, normal, verbose, debug
log_level = \"normal\"

[maintenance]
# Deletion strategy: dred, fbf
strategy = \"fbf\"
# Worker threads for multithreaded tasks (0 = one per core)
workers = 0
# Process stratification levels one at a time
by_levels = true
# Monitor: off, tracing, record
monitor = \"off\"

[equality]
# Equality mode: off, no-una, una
mode = \"off\"

# Custom profiles:
# [profiles.nightly]
# strategy = \"dred\"
# workers = 16
# description = \"Bulk retraction window\"
"

end Settings

end Entail
