import Entail.Maintenance
import Entail.Rule.Text

/-!
# The engine

An `Engine` keeps a store, its rules and the materialization of both. Facts and rules may be added
before the first materialization (`Engine.addFact`, `Engine.addRule`); after that
`Engine.applyChanges` retracts and asserts facts and keeps the materialization up to date.
`Engine.contains` asks for a fact, modulo the equalities that hold. Tasks are done by one worker:
`Engine.workers` is the number that they announce.

An `Action` keeps the engine as it was when it failed.
-/

namespace Entail

/-- A store with rules and a materialization. -/
structure Engine where
  strategy : Strategy := .fbf
  mode : Mode := {}
  /-- The number of workers that tasks announce. -/
  workers : Nat := 1
  dictionary : Dictionary := .vocabulary
  rules : Array Rule := #[]
  /-- The rules ready for maintenance, if they did not change since. -/
  index : Option RuleIndex := none
  /-- Whether the materialization is up to date. -/
  materialized : Bool := false
  run : Run := {}
  deriving Inhabited

namespace Engine

/-- A computation on an engine. -/
abbrev Action := EStateM Failure Engine

/-- Gives the resource that a text stands for an id. -/
def intern (text : String) : Action Nat := modifyGet fun e =>
  let (id, dictionary) := e.dictionary.internText text
  (id, { e with dictionary })

/-- The words of a text, dots at its end not counted. -/
def factWords (text : String) : List (List Char) :=
  Text.wordChars (Text.dropEndWhile (· == '.') (Text.trimChars text.toList))

/-- The fact that a text of three words stands for. -/
def parseTriple (text : String) : Action Triple :=
  match factWords text with
  | [s, p, o] => do
    let s ← intern (String.ofList s)
    let p ← intern (String.ofList p)
    let o ← intern (String.ofList o)
    pure ⟨s, p, o⟩
  | _ =>
    throw (.error ((Error.validation ("'" ++ text ++ "' is not a triple")).withHint
      "write facts as 'subject predicate object'"))

/-- Adds a rule. -/
def addRule (rule : Rule) : Action Unit :=
  modify fun e => { e with rules := e.rules.push rule, index := none, materialized := false }

/-- Adds the rule that a text stands for, at a level. -/
def addRuleText (text : String) (level : Nat) : Action Unit := do
  let parsed ← modifyGet fun e =>
    let (parsed, dictionary) := Rule.parse text e.dictionary
    (parsed, { e with dictionary })
  match parsed with
  | .ok rule => addRule (rule.atLevel level)
  | .error e => throw (.error e)

/-- Asserts a fact. The materialization is not brought up to date. -/
def addFact (t : Triple) : Action Unit := modify fun e =>
  let ((isNew, _), table) := e.run.table.add t Status.asserted
  { e with run := { e.run with table }, materialized := e.materialized && !isNew }

/-- The rules ready for maintenance, if they can be maintained in the mode. -/
def buildIndex (rules : List Rule) (mode : Mode) : Except Error RuleIndex := do
  let index ← RuleIndex.build rules mode.usesLevels
  if !mode.usesLevels && index.hasNegation .all then
    throw ((Error.unstratifiableNegation
        "negation needs the rules to be processed by levels").withHint
      (if mode.equality.enabled then "equality reasoning does not support negation"
        else "enable maintenance.by_levels"))
  else pure index

/-- Makes the rules ready for maintenance. -/
def ensureIndex : Action RuleIndex := fun e =>
  match e.index with
  | some index => .ok index e
  | none =>
    match buildIndex e.rules.toList e.mode with
    | .ok index => .ok index { e with index := some index }
    | .error error => .error (.error error) e

/-- What the tasks of an engine read. The number of workers is for them to announce only. -/
def context (e : Engine) (rules : RuleIndex) (monitored : Bool) (stop : StopPoint) : Context :=
  { dictionary := e.dictionary, rules, mode := e.mode, workers := e.workers, monitored, stop }

/-- Runs a task on the store of the engine. -/
def perform {α : Type} (x : Routine α) : Action α := fun e =>
  match x e.run with
  | .ok a run => .ok a { e with run }
  | .error failure run => .error failure { e with run }

/-- Takes every fact out of the materialization. -/
def clearMaterialization : Routine Unit := do
  let rows ← Routine.reads fun r => r.table.select fun s => s.any (Status.derived ||| Status.merged)
  rows.forM fun (row, _) =>
    discard <| Routine.updateStatus row (Status.derived ||| Status.merged) 0
  modify fun r => { r with steady := .discrete }

/-- Computes the materialization from the asserted facts. The answer is its size. -/
def materialize : Action Nat := do
  let rules ← ensureIndex
  let e ← get
  let size ← perform do
    Routine.note .materializing
    clearMaterialization
    Materialization.materialize (e.context rules false .never)
  modify fun e => { e with materialized := true }
  pure size

/-- Retracts and asserts facts and brings the materialization up to date. It is computed from
scratch first if it is not up to date. A request to stop from before is forgotten. -/
def applyChanges (retractions assertions : List Triple) (monitored : Bool := true)
    (stop : StopPoint := .never) : Action Stats := do
  let e ← get
  if e.strategy = .dred ∧ e.mode.equality.enabled then
    throw (.error ((Error.unsupportedMode "DRed does not support equality reasoning").withHint
      "use the fbf strategy or turn equality off"))
  if !e.materialized then discard materialize
  let rules ← ensureIndex
  let e ← get
  let stats ← perform do
    modify fun r => { r with stopped := false }
    Maintenance.update (e.context rules monitored stop) e.strategy retractions assertions
  if stats.cancelled then modify fun e => { e with materialized := false }
  pure stats

/-- Adds rules, each at its level, and then facts that are still to be read. The facts are added
only if all of them can be read. -/
def load (rules : List (Nat × String)) (facts : List (Action Triple)) : Action Unit := do
  rules.forM fun (level, text) => addRuleText text level
  let facts ← facts.mapM id
  facts.forM addFact

/-- Forgets what was announced and noted so far. -/
def refresh : Action Unit := modify fun e => { e with run := e.run.refresh }

/-- Asks the engine to stop. -/
def requestStop : Action Unit := modify fun e => { e with run := { e.run with stopped := true } }

/-- The status of a fact, if it has a row. -/
def statusOf (e : Engine) (t : Triple) : Option Status :=
  (e.run.table.index? t).map e.run.table.status

/-- Whether a fact, read modulo equality, is in the materialization. -/
def contains (e : Engine) (t : Triple) : Bool :=
  let t := if e.mode.equality.enabled then e.run.steady.normalizeTriple t else t
  (e.statusOf t).any Standing.before

/-- Whether a fact is asserted. -/
def isAsserted (e : Engine) (t : Triple) : Bool :=
  (e.statusOf t).any fun status => status.any Status.asserted

/-- The facts of the materialization. -/
def facts (e : Engine) : List Triple := e.run.table.materialized

/-- The resource that represents the class of a resource. -/
def representative (e : Engine) (id : Nat) : Nat := e.run.steady.normalize id

/-- The facts of the materialization as texts, in the order of the texts if they are to be
sorted. -/
def rendered (e : Engine) (sorted : Bool := false) : List String :=
  let texts := e.facts.map e.dictionary.displayTriple
  if sorted then texts.mergeSort fun a b => !(b < a) else texts

end Engine

end Entail
