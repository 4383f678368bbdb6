import Entail.Data
import Entail.Triple

/-!
# Events

While a store is maintained, every step is announced as an `Event`. Each event has a name and
arguments (`Event.toData`), and most events also have a recorded form with named fields
(`Event.recorded?`). The work is done by one worker, whose number is 0; events that come from a
worker carry that number.
-/

namespace Entail

/-- The tasks of an update. -/
inductive TaskKind where
  | deletion
  | rederivation
  | insertion
  | propagation
  deriving DecidableEq, Repr, Inhabited

namespace TaskKind

/-- The tasks. -/
def all : List TaskKind := [deletion, rederivation, insertion, propagation]

/-- The name of a task in written data. -/
def name : TaskKind → String
  | deletion => "deletion"
  | rederivation => "rederivation"
  | insertion => "insertion"
  | propagation => "propagation"

/-- The task with a name. -/
def ofName? (name : String) : Option TaskKind := all.find? fun t => t.name == name

/-- The name of a task in the log. -/
def title : TaskKind → String
  | deletion => "Deletion"
  | rederivation => "Rederivation"
  | insertion => "Insertion"
  | propagation => "Propagation"

end TaskKind

/-- A step of maintenance. -/
inductive Event where
  | taskStarted (task : TaskKind) (level : Option Nat) (workers : Nat)
  | taskFinished (task : TaskKind) (level : Option Nat)
  | levelStarted (level : Option Nat)
  | levelFinished (level : Option Nat)
  | deletionPreviousLevelsStarted
  | deletionRecursiveStarted
  | deletionFinished
  /-- A fact that may have lost its support is taken up. -/
  | possiblyDeleted (fact : Triple)
  /-- It is settled whether a fact that was taken up is deleted. -/
  | deletionJudged (fact : Triple) (deleted : Bool)
  | deletionPropagationStarted (fact : Triple)
  | deletionPropagationFinished
  /-- A fact is queued because an equality that may have led to it is deleted. -/
  | deletedViaReplacement (fact : Triple)
  /-- A rule leads to a fact. -/
  | derived (fact : Triple) (isNew : Bool)
  /-- A proof of a fact is asked for. -/
  | checkingStarted (fact : Triple) (alreadyChecked : Bool)
  | checkingFinished (fact : Triple)
  /-- A fact is proved without a search. -/
  | proved (fact : Triple) (fromAsserted fromDelayed fromNonrecursiveRule : Bool)
  /-- A fact is proved that nobody has asked for yet. -/
  | provedDelayed (fact : Triple)
  /-- The search has shown that a fact has no proof. -/
  | disproved (fact : Triple)
  | backwardRecursiveRuleStarted (rule : Nat)
  | backwardNonrecursiveRuleStarted (fact : Triple)
  /-- A resource is absorbed into another one. -/
  | constantMerged (source target : Nat)
  /-- Two resources are equal that must not be. -/
  | inconsistency (resource : Nat)
  /-- A class is set back to the equalities proved. -/
  | classCopied (resource : Nat)
  | rederivationStarted
  /-- A deleted fact is put back. -/
  | rederived (fact : Triple)
  | insertionPreviousLevelsStarted
  | insertionRecursiveStarted
  /-- A fact is added. -/
  | inserted (fact : Triple)
  | insertionFinished
  | propagationStarted
  /-- A fact leaves the materialization. -/
  | deleted (fact : Triple)
  /-- A fact enters the materialization. -/
  | added (fact : Triple)
  | propagationFinished
  deriving DecidableEq, Repr, Inhabited

namespace Triple

/-- A fact as data. -/
def toData (t : Triple) : Data := .list (t.toList.map .nat)

/-- A fact read from data. -/
def ofData? : Data → Option Triple
  | .list [s, p, o] => do
    let s ← s.nat?
    let p ← p.nat?
    let o ← o.nat?
    pure ⟨s, p, o⟩
  | _ => none

end Triple

namespace Event

/-- The number of the worker that events come from. -/
def worker : Data := .nat 0

/-- The name of an event and its arguments. -/
def parts : Event → String × List Data
  | taskStarted task level workers =>
    ("task_started", [.text task.name, .ofNat? level, .nat workers])
  | taskFinished task level => ("task_finished", [.text task.name, .ofNat? level])
  | levelStarted level => ("level_started", [.ofNat? level])
  | levelFinished level => ("level_finished", [.ofNat? level])
  | deletionPreviousLevelsStarted => ("tuple_deletion_previous_levels_started", [worker])
  | deletionRecursiveStarted => ("tuple_deletion_recursive_started", [worker])
  | deletionFinished => ("tuple_deletion_finished", [worker])
  | possiblyDeleted fact => ("possibly_deleted_tuple_extracted", [worker, fact.toData])
  | deletionJudged fact gone =>
    ("possibly_deleted_tuple_processed", [worker, fact.toData, .bool gone])
  | deletionPropagationStarted fact => ("deletion_propagation_started", [worker, fact.toData])
  | deletionPropagationFinished => ("deletion_propagation_finished", [worker])
  | deletedViaReplacement fact =>
    ("propagated_deletion_via_replacement", [worker, fact.toData])
  | derived fact isNew => ("tuple_derived", [worker, fact.toData, .bool isNew])
  | checkingStarted fact already =>
    ("checking_provability_started", [worker, fact.toData, .bool already])
  | checkingFinished fact => ("checking_provability_finished", [worker, fact.toData])
  | proved fact fromAsserted fromDelayed fromRule =>
    ("checked_tuple_proved",
      [worker, fact.toData, .bool fromAsserted, .bool fromDelayed, .bool fromRule])
  | provedDelayed fact => ("tuple_proved_delayed", [worker, fact.toData])
  | disproved fact => ("checked_tuple_disproved", [worker, fact.toData])
  | backwardRecursiveRuleStarted rule => ("backward_recursive_rule_started", [worker, .nat rule])
  | backwardNonrecursiveRuleStarted fact =>
    ("backward_nonrecursive_rule_started", [worker, fact.toData])
  | constantMerged source target => ("constant_merged", [worker, .nat source, .nat target])
  | inconsistency resource => ("inconsistency_detected", [worker, .nat resource])
  | classCopied resource => ("equivalence_class_copied", [.nat resource])
  | rederivationStarted => ("rederivation_started", [worker])
  | rederived fact => ("tuple_rederived", [worker, fact.toData])
  | insertionPreviousLevelsStarted => ("insertion_previous_levels_started", [worker])
  | insertionRecursiveStarted => ("insertion_recursive_started", [worker])
  | inserted fact => ("tuple_inserted", [worker, fact.toData])
  | insertionFinished => ("insertion_finished", [worker])
  | propagationStarted => ("propagate_started", [])
  | deleted fact => ("tuple_deleted", [fact.toData])
  | added fact => ("tuple_added", [fact.toData])
  | propagationFinished => ("propagate_finished", [])

/-- The name of an event. -/
def name (e : Event) : String := e.parts.1

/-- An event as data: its name and its arguments. -/
def toData (e : Event) : Data :=
  let (name, arguments) := e.parts
  .list (.text name :: arguments)

/-- The name and the fields under which an event is recorded, if it is. -/
def recordedParts? : Event → Option (String × List (String × Data))
  | taskStarted task level _ =>
    some ("task_started", [("task", .text task.name), ("level", .ofNat? level)])
  | taskFinished task level =>
    some ("task_finished", [("task", .text task.name), ("level", .ofNat? level)])
  | levelStarted level => some ("level_started", [("level", .ofNat? level)])
  | levelFinished level => some ("level_finished", [("level", .ofNat? level)])
  | possiblyDeleted fact => some ("possibly_deleted", [("fact", fact.toData)])
  | deletionJudged fact gone =>
    some ("deletion_judged", [("fact", fact.toData), ("deleted", .bool gone)])
  | deletedViaReplacement fact => some ("deleted_via_replacement", [("fact", fact.toData)])
  | derived fact isNew => some ("derived", [("fact", fact.toData), ("is_new", .bool isNew)])
  | checkingStarted fact already =>
    some ("checking_started", [("fact", fact.toData), ("already_checked", .bool already)])
  | proved fact fromAsserted fromDelayed fromRule =>
    some ("proved",
      [("fact", fact.toData), ("from_edb", .bool fromAsserted),
        ("from_delayed", .bool fromDelayed), ("from_nonrecursive_rule", .bool fromRule)])
  | provedDelayed fact => some ("proved_delayed", [("fact", fact.toData)])
  | disproved fact => some ("disproved", [("fact", fact.toData)])
  | constantMerged source target =>
    some ("constant_merged", [("source", .nat source), ("target", .nat target)])
  | inconsistency resource => some ("inconsistency", [("resource", .nat resource)])
  | classCopied resource => some ("class_copied", [("resource", .nat resource)])
  | rederived fact => some ("rederived", [("fact", fact.toData)])
  | inserted fact => some ("inserted", [("fact", fact.toData)])
  | deleted fact => some ("deleted", [("fact", fact.toData)])
  | added fact => some ("added", [("fact", fact.toData)])
  | _ => none

/-- The recorded form of an event, with its fields in alphabetical order. -/
def recorded? (e : Event) : Option Data :=
  e.recordedParts?.map fun (name, fields) =>
    .table ((("event", Data.text name) :: fields).mergeSort fun a b => a.1 ≤ b.1)

/-- The arguments of an event, each under a name. -/
structure Arguments where
  task : Option TaskKind := none
  level : Option Nat := none
  workers : Option Nat := none
  fact : Option Triple := none
  flag : Bool := false
  fromAsserted : Bool := false
  fromDelayed : Bool := false
  fromRule : Bool := false
  rule : Option Nat := none
  source : Option Nat := none
  target : Option Nat := none
  resource : Option Nat := none
  deriving Repr, Inhabited

/-- The event with a name and arguments, if it has all that it needs. -/
def ofArguments? (name : String) (a : Arguments) : Option Event :=
  match name with
  | "task_started" => do pure (taskStarted (← a.task) a.level (← a.workers))
  | "task_finished" => a.task.map fun task => taskFinished task a.level
  | "level_started" => some (levelStarted a.level)
  | "level_finished" => some (levelFinished a.level)
  | "tuple_deletion_previous_levels_started" => some deletionPreviousLevelsStarted
  | "tuple_deletion_recursive_started" => some deletionRecursiveStarted
  | "tuple_deletion_finished" => some deletionFinished
  | "possibly_deleted_tuple_extracted" => a.fact.map possiblyDeleted
  | "possibly_deleted_tuple_processed" => a.fact.map (deletionJudged · a.flag)
  | "deletion_propagation_started" => a.fact.map deletionPropagationStarted
  | "deletion_propagation_finished" => some deletionPropagationFinished
  | "propagated_deletion_via_replacement" => a.fact.map deletedViaReplacement
  | "tuple_derived" => a.fact.map (derived · a.flag)
  | "checking_provability_started" => a.fact.map (checkingStarted · a.flag)
  | "checking_provability_finished" => a.fact.map checkingFinished
  | "checked_tuple_proved" => a.fact.map (proved · a.fromAsserted a.fromDelayed a.fromRule)
  | "tuple_proved_delayed" => a.fact.map provedDelayed
  | "checked_tuple_disproved" => a.fact.map disproved
  | "backward_recursive_rule_started" => a.rule.map backwardRecursiveRuleStarted
  | "backward_nonrecursive_rule_started" => a.fact.map backwardNonrecursiveRuleStarted
  | "constant_merged" => do pure (constantMerged (← a.source) (← a.target))
  | "inconsistency_detected" => a.resource.map inconsistency
  | "equivalence_class_copied" => a.resource.map classCopied
  | "rederivation_started" => some rederivationStarted
  | "tuple_rederived" => a.fact.map rederived
  | "insertion_previous_levels_started" => some insertionPreviousLevelsStarted
  | "insertion_recursive_started" => some insertionRecursiveStarted
  | "tuple_inserted" => a.fact.map inserted
  | "insertion_finished" => some insertionFinished
  | "propagate_started" => some propagationStarted
  | "tuple_deleted" => a.fact.map deleted
  | "tuple_added" => a.fact.map added
  | "propagate_finished" => some propagationFinished
  | _ => none

end Event

end Entail
