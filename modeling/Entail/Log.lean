import Entail.Dictionary
import Entail.Event

/-!
# The log

The log of a run has an entry for every event that a person may want to follow (`Event.logged?`)
and for the results of the tasks (`Note`). The values of an entry are texts.
-/

namespace Entail

/-- How much an entry of the log matters. A span marks the start of a stretch of work. -/
inductive Weight where
  | trace
  | debug
  | info
  | warn
  | span
  deriving DecidableEq, Repr, Inhabited

/-- The name of a weight. -/
def Weight.name : Weight → String
  | trace => "TRACE"
  | debug => "DEBUG"
  | info => "INFO"
  | warn => "WARN"
  | span => "SPAN"

/-- An entry of the log. -/
structure LogEntry where
  weight : Weight
  message : String
  fields : List (String × String)
  deriving DecidableEq, Repr, Inhabited

namespace LogEntry

/-- A level as a value in the log. -/
def showLevel : Option Nat → String
  | some level => s!"Some({level})"
  | none => "None"

/-- A truth value in the log. -/
def showBool : Bool → String
  | true => "true"
  | false => "false"

/-- An entry as data. -/
def toData (e : LogEntry) : Data :=
  .list [.text e.weight.name, .text e.message,
    .table (e.fields.map fun (name, value) => (name, .text value))]

end LogEntry

/-- The result of a task, or the start of a stretch of work. -/
inductive Note where
  | materializing
  | applyingChanges (strategy : String)
  | retractionsSeeded (seeded ignored : Nat)
  | assertionsSeeded (inserted : Nat)
  | levelSaturated (level : Option Nat) (rounds : Nat)
  | materialized (facts : Nat)
  | checksFinished (level : Option Nat) (checks : Nat)
  | rederivationFinished (level : Option Nat) (rederived : Nat)
  | insertionFinished (level : Option Nat) (inserted : Nat)
  | levelMaintained (level : Option Nat) (inserted : Nat)
  | changesPropagated (deleted added : Nat)
  | updateCancelled (levels : Nat)
  | updateApplied (deleted added rederived checks : Nat)
  deriving DecidableEq, Repr, Inhabited

open LogEntry in
/-- The entry of a note. -/
def Note.logged : Note → LogEntry
  | materializing => ⟨.span, "materialize", []⟩
  | applyingChanges strategy => ⟨.span, "apply_changes", [("strategy", strategy)]⟩
  | retractionsSeeded seeded ignored =>
    ⟨.debug, "retractions seeded", [("seeded", toString seeded), ("ignored", toString ignored)]⟩
  | assertionsSeeded inserted => ⟨.debug, "assertions seeded", [("inserted", toString inserted)]⟩
  | levelSaturated level rounds =>
    ⟨.debug, "level saturated", [("level", showLevel level), ("rounds", toString rounds)]⟩
  | materialized facts => ⟨.info, "materialization computed", [("facts", toString facts)]⟩
  | checksFinished level checks =>
    ⟨.debug, "backward checks finished", [("level", showLevel level), ("checks", toString checks)]⟩
  | rederivationFinished level rederived =>
    ⟨.debug, "rederivation finished",
      [("level", showLevel level), ("rederived", toString rederived)]⟩
  | insertionFinished level inserted =>
    ⟨.debug, "insertion finished", [("level", showLevel level), ("inserted", toString inserted)]⟩
  | levelMaintained level inserted =>
    ⟨.info, "level maintained", [("level", showLevel level), ("inserted", toString inserted)]⟩
  | changesPropagated deleted added =>
    ⟨.debug, "changes propagated", [("deleted", toString deleted), ("added", toString added)]⟩
  | updateCancelled levels => ⟨.info, "update cancelled", [("levels", toString levels)]⟩
  | updateApplied deleted added rederived checks =>
    ⟨.info, "update applied",
      [("deleted", toString deleted), ("added", toString added),
        ("rederived", toString rederived), ("checks", toString checks)]⟩

/-- How facts and resources are written in the log: by name with a dictionary, else by id. -/
structure Naming where
  dictionary : Option Dictionary

namespace Naming

/-- A fact in the log. -/
def fact (n : Naming) (t : Triple) : String :=
  match n.dictionary with
  | some d => d.displayTriple t
  | none => t.showIds

/-- A resource in the log. -/
def resource (n : Naming) (id : Nat) : String :=
  match n.dictionary with
  | some d => d.display id
  | none => "#" ++ toString id

end Naming

open LogEntry in
/-- The entry of an event, if it has one. -/
def Event.logged? (n : Naming) (e : Event) : Option LogEntry :=
  let worker := ("worker", "0")
  match e with
  | taskStarted task level workers =>
    some ⟨.debug, "task started",
      [("task", task.title), ("level", showLevel level), ("workers", toString workers)]⟩
  | taskFinished task level =>
    some ⟨.debug, "task finished", [("task", task.title), ("level", showLevel level)]⟩
  | possiblyDeleted fact => some ⟨.trace, "possibly deleted", [worker, ("fact", n.fact fact)]⟩
  | deletionJudged fact gone =>
    some ⟨.trace, "deletion judged", [worker, ("fact", n.fact fact), ("deleted", showBool gone)]⟩
  | deletedViaReplacement fact =>
    some ⟨.trace, "deleted via replacement", [worker, ("fact", n.fact fact)]⟩
  | derived fact isNew =>
    some ⟨.trace, "derived", [worker, ("fact", n.fact fact), ("is_new", showBool isNew)]⟩
  | proved fact fromAsserted fromDelayed fromRule =>
    some ⟨.trace, "proved",
      [worker, ("fact", n.fact fact), ("from_edb", showBool fromAsserted),
        ("from_delayed", showBool fromDelayed), ("from_nonrecursive_rule", showBool fromRule)]⟩
  | disproved fact => some ⟨.trace, "disproved", [worker, ("fact", n.fact fact)]⟩
  | constantMerged source target =>
    some ⟨.trace, "merged",
      [worker, ("source", n.resource source), ("target", n.resource target)]⟩
  | inconsistency resource =>
    some ⟨.warn, "inconsistency detected", [worker, ("resource", n.resource resource)]⟩
  | rederived fact => some ⟨.trace, "rederived", [worker, ("fact", n.fact fact)]⟩
  | inserted fact => some ⟨.trace, "inserted", [worker, ("fact", n.fact fact)]⟩
  | deleted fact => some ⟨.trace, "removed from materialization", [("fact", n.fact fact)]⟩
  | added fact => some ⟨.trace, "added to materialization", [("fact", n.fact fact)]⟩
  | _ => none

end Entail
