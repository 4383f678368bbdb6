import Entail.Scenario
import Entail.Settings.Written

/-!
# The command line

A command names a scenario and options (`Request.parse`). `CommandLine.run` says what it comes to in
given surroundings: the reports on the scenario, a text, or an error.
-/

namespace Entail

/-- The options of a command. An option that is not given leaves the settings as they are. -/
structure Options where
  strategy : Option Strategy := none
  workers : Option Nat := none
  equality : Option EqualityMode := none
  /-- The path of a settings file. -/
  config : Option String := none
  /-- The name of a profile. -/
  profile : Option String := none
  logLevel : Option LogLevel := none
  /-- Whether all rules are applied together. -/
  noLevels : Bool := false
  /-- Whether events are recorded for the report. -/
  events : Bool := false
  /-- The path of the scenario. -/
  scenario : Option String := none
  deriving DecidableEq, Repr, Inhabited

/-- Why a command cannot be understood. -/
inductive UsageError where
  | unexpected (argument : String)
  | repeated (argument : String)
  | valueMissing (option : String)
  | valueUnwanted (option : String)
  | valueInvalid (option value : String)
  | scenarioMissing
  deriving DecidableEq, Repr, Inhabited

/-- What a user is told about a command that cannot be understood. -/
def UsageError.message : UsageError → String
  | unexpected argument => "error: unexpected argument '" ++ argument ++ "' found"
  | repeated argument =>
    "error: the argument '" ++ argument ++ "' cannot be used multiple times"
  | valueMissing option =>
    "error: a value is required for '" ++ option ++ "' but none was supplied"
  | valueUnwanted option => "error: '" ++ option ++ "' takes no value"
  | valueInvalid option value => "error: invalid value '" ++ value ++ "' for '" ++ option ++ "'"
  | scenarioMissing => "error: the following required arguments were not provided:\n  <SCENARIO>"

/-- What a command asks for. -/
inductive Request where
  | help
  | version
  | run (scenario : String) (options : Options)
  deriving DecidableEq, Repr, Inhabited

/-- An argument by its form. -/
inductive Argument where
  /-- Neither of the others. -/
  | plain (text : String)
  /-- A hyphen and letters. -/
  | letters (first : Char)
  /-- Two hyphens and a name, maybe with a value after an equals sign. -/
  | named (name : String) (value : Option String)
  deriving DecidableEq, Repr, Inhabited

/-- The form of an argument. -/
def Argument.ofText (text : String) : Argument :=
  match text.toList with
  | '-' :: '-' :: rest =>
    let (name, value) := rest.span (· != '=')
    .named (String.ofList name)
      (match value with
        | '=' :: value => some (String.ofList value)
        | _ => none)
  | '-' :: first :: _ => .letters first
  | _ => .plain text

/-- Whether a text may follow an option as its value. -/
def Argument.isValue (text : String) : Bool :=
  match ofText text with
  | .plain _ => true
  | _ => false

namespace Options

/-- A path; it must not be empty. -/
def path? (text : String) : Option String := if text.isEmpty then none else some text

/-- Reads the value of an option that is not given yet. -/
def fill {α : Type} (option : String) (old : Option α) (read : String → Option α)
    (put : α → Options) (value : String) : Except UsageError Options :=
  if old.isSome then .error (.repeated option)
  else
    match read value with
    | some v => .ok (put v)
    | none => .error (.valueInvalid option value)

/-- How the value of the option with a name is set, if there is such an option. -/
def setter? (o : Options) (name : String) : Option (String → Except UsageError Options) :=
  match name with
  | "strategy" =>
    some (fill "--strategy" o.strategy Strategy.ofName? fun v => { o with strategy := some v })
  | "workers" =>
    some (fill "--workers" o.workers Text.count? fun v => { o with workers := some v })
  | "equality" =>
    some (fill "--equality" o.equality EqualityMode.ofName? fun v => { o with equality := some v })
  | "config" => some (fill "--config" o.config path? fun v => { o with config := some v })
  | "profile" => some (fill "--profile" o.profile some fun v => { o with profile := some v })
  | "log-level" =>
    some (fill "--log-level" o.logLevel LogLevel.ofName? fun v => { o with logLevel := some v })
  | _ => none

/-- The options with the one that has a name and no value, if there is such an option. -/
def flag? (o : Options) (name : String) : Option (Except UsageError Options) :=
  match name with
  | "no-levels" =>
    some (if o.noLevels then .error (.repeated "--no-levels") else .ok { o with noLevels := true })
  | "events" =>
    some (if o.events then .error (.repeated "--events") else .ok { o with events := true })
  | _ => none

/-- The options with the path of the scenario, of which there is only one. -/
def withScenario (o : Options) (text : String) : Except UsageError Options :=
  if o.scenario.isSome then .error (.unexpected text)
  else
    match path? text with
    | some path => .ok { o with scenario := some path }
    | none => .error (.valueMissing "<SCENARIO>")

/-- The request at the end of the arguments. -/
def finish (o : Options) : Except UsageError Request :=
  match o.scenario with
  | some path => .ok (.run path o)
  | none => .error .scenarioMissing

/-- Reads an argument that is an option: what was read, and whether its value is still to come. -/
def withOption (o : Options) (arg name : String) (value : Option String) :
    Except UsageError (Options × Bool) :=
  match o.setter? name, o.flag? name with
  | some set, _ =>
    match value with
    | some value => (set value).map (·, false)
    | none => .ok (o, true)
  | none, some next => if value.isSome then .error (.valueUnwanted arg) else next.map (·, false)
  | none, none => .error (.unexpected arg)

/-- Reads the value of the option with a name. -/
def withValue (o : Options) (arg name value : String) : Except UsageError Options :=
  match o.setter? name with
  | some set => if Argument.isValue value then set value else .error (.valueMissing arg)
  | none => .error (.unexpected arg)

/-- The request that the arguments amount to, after the options read so far. What follows two
hyphens alone is never an option. -/
def parse (o : Options) : List String → Except UsageError Request
  | [] => o.finish
  | arg :: rest =>
    match Argument.ofText arg with
    | .named "" none => rest.foldlM withScenario o >>= finish
    | .letters 'h' | .named "help" none => .ok .help
    | .letters 'V' | .named "version" none => .ok .version
    | .letters _ => .error (.unexpected arg)
    | .plain text =>
      match o.withScenario text with
      | .ok o => parse o rest
      | .error e => .error e
    | .named name value =>
      match o.withOption arg name value, rest with
      | .error e, _ => .error e
      | .ok (o, false), rest => parse o rest
      | .ok (_, true), [] => .error (.valueMissing arg)
      | .ok (o, true), value :: rest =>
        match o.withValue arg name value with
        | .ok o => parse o rest
        | .error e => .error e

end Options

/-- What the arguments of a command ask for. -/
def Request.parse (args : List String) : Except UsageError Request :=
  let o : Options := {}
  o.parse args

/-- What a command finds around it. -/
structure Surroundings where
  /-- The variables of the environment. -/
  env : String → Option String
  /-- The texts of the files. -/
  read : String → Except ReadFailure String
  processors : Nat := 1

/-- The settings that a command asks for: those of a file, changed by a profile and then by the
options. -/
def Options.settings (o : Options) (w : Surroundings) : Except SettingsError Settings := do
  let s ← match o.config with
    | some path => Settings.ofFile w.read path
    | none => Settings.load w.env w.read
  let s ← match o.profile with
    | some name => s.withProfile name
    | none => pure s
  pure { s with
    strategy := o.strategy.getD s.strategy
    workers := o.workers.getD s.workers
    equality := o.equality.getD s.equality
    byLevels := s.byLevels && !o.noLevels
    logLevel := o.logLevel.getD s.logLevel
    observer := if o.events then .record else s.observer }

/-- What a command comes to. -/
inductive Outcome where
  /-- A text for the user. -/
  | text (text : String)
  /-- The reports on a scenario, and what was logged. -/
  | reports (reports : List Report) (log : List LogEntry)
  | usage (e : UsageError)
  | complaint (c : Complaint)

namespace Outcome

/-- The code with which a command ends. -/
def exitCode : Outcome → Nat
  | text _ | reports .. => 0
  | complaint _ => 1
  | usage _ => 2

/-- The reports as data. -/
def reportData : List Report → Data := fun reports => .list (reports.map Report.toData)

end Outcome

namespace CommandLine

/-- What the program is called and which version it is. -/
def versionText : String := "cwm-incremental 0.1.0"

/-- How the program is used. -/
def helpText : String :=
  "Incremental materialization maintenance with DRed and FBF

Usage: cwm-incremental [OPTIONS] <SCENARIO>

Arguments:
  <SCENARIO>  Scenario file (JSON or TOML)

Options:
      --strategy <STRATEGY>    Deletion strategy [possible values: dred, fbf]
      --workers <WORKERS>      Worker threads (0 = one per core)
      --equality <EQUALITY>    Equality mode [possible values: off, no-una, una]
      --no-levels              Evaluate all rules together instead of level by level
      --config <CONFIG>        Configuration file (defaults to the usual search path)
      --profile <PROFILE>      Configuration profile (fast, exact, safe or a custom one)
      --log-level <LOG_LEVEL>  Logging verbosity [possible values: quiet, normal, verbose, debug]
      --events                 Include the recorded monitor events in the report
  -h, --help                   Print help
  -V, --version                Print version"

/-- Runs the scenario at a path. -/
def runScenario (w : Surroundings) (path : String) (o : Options) : Outcome :=
  match o.settings w with
  | .error e => .complaint (.ofSettings e)
  | .ok settings =>
    match Scenario.ofFile w.read path with
    | .error c => .complaint c
    | .ok scenario =>
      match scenario.run settings.observer (settings.engine w.processors) with
      | .ok reports _ =>
        .reports reports
          ((reports.flatMap Report.log).filter fun entry => settings.logLevel.shows entry.weight)
      | .error c _ => .complaint c

/-- What a command comes to. -/
def run (w : Surroundings) (args : List String) : Outcome :=
  match Request.parse args with
  | .error e => .usage e
  | .ok .help => .text helpText
  | .ok .version => .text versionText
  | .ok (.run path o) => runScenario w path o

/-- The files that a command may read. -/
def paths (env : String → Option String) (args : List String) : List String :=
  match Request.parse args with
  | .ok (.run path o) =>
    path :: (match o.config with
      | some config => [config]
      | none => Settings.searchPaths env)
  | _ => []

/-- The variables of the environment that a command may read. -/
def variableNames : List String :=
  ["HOME", "XDG_CONFIG_HOME", "CWM_STRATEGY", "CWM_WORKERS", "CWM_BY_LEVELS", "CWM_EQUALITY",
    "CWM_MONITOR", "CWM_LOG_LEVEL"]

end CommandLine

end Entail
