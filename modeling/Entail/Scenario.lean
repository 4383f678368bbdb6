import Entail.Complaint
import Entail.Data.Json
import Entail.Data.Toml
import Entail.Engine
import Entail.Workers

/-!
# Scenarios

A `Scenario` has rules, facts and batches of changes. `Scenario.run` materializes the facts, applies
one batch after the other, and reports on each. Scenarios are written in JSON or in TOML
(`Scenario.parse?`).
-/

namespace Entail

/-- Changes that are applied together, retractions first. -/
structure Batch where
  name : Option String := none
  retractions : List String := []
  assertions : List String := []
  deriving DecidableEq, Repr, Inhabited

/-- A store with the batches of changes that it goes through. -/
structure Scenario where
  /-- Resources that have their ids before all others. -/
  resources : List String := []
  /-- The rules with their levels. -/
  rules : List (Nat × String) := []
  facts : List String := []
  batches : List Batch := []
  deriving DecidableEq, Repr, Inhabited

/-- The format of the text of a scenario. -/
inductive Format where
  | json
  | toml
  deriving DecidableEq, Repr, Inhabited

namespace Format

/-- The name of a format. -/
def name : Format → String
  | json => "JSON"
  | toml => "TOML"

/-- The format of the file at a path: TOML if it says so in its name. -/
def ofPath (path : String) : Format :=
  let file := (path.splitOn "/").getLast?.getD ""
  if file.endsWith ".toml" && file != ".toml" then toml else json

/-- The data that a text stands for. -/
def parse : Format → String → Option Data
  | json => Json.parse
  | toml => Toml.parse

/-- Whether a list may have more items than the record that is read from it has fields. -/
def lenient : Format → Bool
  | json => false
  | toml => true

end Format

/-! ## Reading -/

/-- Texts, if they are given. -/
def Data.textsOrNone? : Option Data → Option (List String) :=
  Data.withDefault? [] (Data.listOf? Data.text?)

/-- A batch read from data. -/
def Batch.ofData? (f : Format) (d : Data) : Option Batch := do
  match ← d.fields? f.lenient ["name", "delete", "insert"] with
  | [name, retractions, assertions] =>
    pure {
      name := ← Data.optional? Data.text? name
      retractions := ← Data.textsOrNone? retractions
      assertions := ← Data.textsOrNone? assertions }
  | _ => none

namespace Scenario

/-- A rule with its level read from data. -/
def ruleOfData? (f : Format) (d : Data) : Option (Nat × String) := do
  match ← d.fields? f.lenient ["level", "rule"] with
  | [level, rule] =>
    pure (← Data.withDefault? 0 Data.nat? level, ← Data.required? Data.text? rule)
  | _ => none

/-- A scenario read from data. -/
def ofData? (f : Format) (d : Data) : Option Scenario := do
  match ← d.fields? f.lenient ["resources", "rules", "facts", "batches"] with
  | [resources, rules, facts, batches] =>
    pure {
      resources := ← Data.textsOrNone? resources
      rules := ← Data.withDefault? [] (Data.listOf? (ruleOfData? f)) rules
      facts := ← Data.textsOrNone? facts
      batches := ← Data.withDefault? [] (Data.listOf? (Batch.ofData? f)) batches }
  | _ => none

/-- The scenario that a text stands for. -/
def parse? (f : Format) (text : String) : Option Scenario := (f.parse text).bind (ofData? f)

/-- The scenario in the file at a path. -/
def ofFile (read : String → Except ReadFailure String) (path : String) :
    Except Complaint Scenario :=
  match read path with
  | .error f => .error ⟨"Failed to read scenario: " ++ path, some f.message⟩
  | .ok text =>
    let format := Format.ofPath path
    match parse? format text with
    | some s => .ok s
    | none => .error ⟨"Invalid " ++ format.name ++ " scenario: " ++ path, none⟩

end Scenario

/-! ## Running -/

/-- What is told about a batch, or about the first materialization. -/
structure Report where
  batch : String
  /-- What applying the batch took. -/
  stats : Option Stats := none
  /-- The size of the materialization. -/
  size : Nat
  /-- The materialization, in the order of the texts. -/
  facts : List String
  /-- The events, if they are recorded. -/
  events : Option (List Event) := none
  log : List LogEntry := []

/-- A report as data. The log is no part of it. -/
def Report.toData (r : Report) : Data :=
  let stats := match r.stats with
    | some stats => [("stats", stats.toData)]
    | none => []
  let events := match r.events with
    | some events => [("events", Data.list (events.filterMap Event.recorded?))]
    | none => []
  .table
    ([("batch", .text r.batch)] ++ stats ++
      [("size", .nat r.size), ("facts", .list (r.facts.map .text))] ++ events)

/-- The engine that the settings ask for, on a machine with the given number of processors. -/
def Settings.engine (s : Settings) (processors : Nat) : Engine :=
  { strategy := s.strategy
    mode := ⟨s.equality, s.byLevels⟩
    workers := (Workers.mk s.workers false).effective processors }

namespace Scenario

/-- A computation on an engine that ends with a complaint if it fails. -/
abbrev Session := EStateM Complaint Engine

/-- Performs an action as part of what is `attempted`. -/
def perform {α : Type} (attempted : Option String) (x : Engine.Action α) : Session α := fun e =>
  match x e with
  | .ok a e => .ok a e
  | .error f e => .error (Complaint.ofFailure attempted f) e

/-- The facts that texts stand for. -/
def readFacts (texts : List String) : Session (List Triple) :=
  texts.mapM fun text => perform (some ("Invalid fact: " ++ text)) (Engine.parseTriple text)

/-- What an engine has logged for an observer. -/
def logFor (o : Observer) (e : Engine) : List LogEntry :=
  if o = .tracing then e.run.log ⟨some e.dictionary⟩ else e.run.notes

/-- Loads the scenario and computes the materialization. -/
def load (s : Scenario) (o : Observer) : Session Report := do
  s.resources.forM fun text => perform none (discard (Engine.intern text))
  s.rules.forM fun (level, text) =>
    perform (some ("Invalid rule: " ++ text)) (Engine.addRuleText text level)
  let facts ← readFacts s.facts
  facts.forM fun t => perform none (Engine.addFact t)
  let size ← perform none Engine.materialize
  let e ← get
  pure { batch := "initial", size, facts := e.rendered true, log := logFor o e }

/-- Applies a batch, the one with the given number. -/
def applyBatch (o : Observer) (number : Nat) (b : Batch) : Session Report := do
  let retractions ← readFacts b.retractions
  let assertions ← readFacts b.assertions
  let stats ← perform none do
    Engine.refresh
    Engine.applyChanges retractions assertions (o != .off) .never
  let e ← get
  pure {
    batch := b.name.getD s!"batch {number}"
    stats := some stats
    size := e.facts.length
    facts := e.rendered true
    events := if o = .record then some e.run.events else none
    log := logFor o e }

/-- Loads the scenario and applies its batches. -/
def run (s : Scenario) (o : Observer) : Session (List Report) := do
  let first ← s.load o
  let others ← s.batches.zipIdx.mapM fun (b, i) => applyBatch o (i + 1) b
  pure (first :: others)

end Scenario

end Entail
