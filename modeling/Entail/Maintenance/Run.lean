import Entail.Classes.Direction
import Entail.Log
import Entail.Maintenance.Examination
import Entail.Mode
import Entail.Update
import Entail.Update.Reflexivity

/-!
# Runs of maintenance tasks

A `Routine` is a computation on a `Run`: the store with its classes of equal resources, the update
in progress and the journal of what happened. What a task reads and never changes is in a `Context`.
The pool of workers is taken as one worker: a task is one computation, which goes through its queue in
order, whatever number of workers it announces.

Tasks work off queues with `drain`, which takes a bound on the number of rows that can come out. All
facts are made of the finitely many ids that the store and the rules mention, and a row is queued
only when a flag of it is newly set, so `Context.budget` bounds every queue of a run.
-/

namespace Entail

/-- When a run is asked to stop. -/
inductive StopPoint where
  | never
  /-- When an event with this name is announced for the `nth` time, counted from 1. -/
  | event (name : String) (nth : Nat)
  /-- When a task asks for the `nth` time whether to go on, counted from 1. -/
  | poll (nth : Nat)
  deriving DecidableEq, Repr, Inhabited

/-- What the tasks of an update read and never change. -/
structure Context where
  dictionary : Dictionary
  rules : RuleIndex
  mode : Mode
  /-- The number of workers that are announced. One worker does the task whatever it is. -/
  workers : Nat := 1
  /-- Whether events are announced. -/
  monitored : Bool := true
  stop : StopPoint := .never
  deriving Inhabited

/-- An entry of a journal. -/
inductive Entry where
  | event (e : Event)
  | note (n : Note)
  deriving DecidableEq, Repr, Inhabited

/-- What the tasks of an update change. -/
structure Run where
  table : Table := .empty
  /-- The classes of equal resources in the materialization. -/
  steady : Classes := .discrete
  /-- The classes of the equalities proved in this update. -/
  proving : Classes := .discrete
  update : Update := .idle
  /-- The resources whose reflexive fact the current task has looked at. -/
  reflexivity : Reflexivity := .new 0 0
  /-- The facts under examination, each for the sake of the next one. -/
  examinations : List Examination := []
  /-- The rows for which the current check looked for a proof. -/
  checked : Array RowIndex := #[]
  /-- The number of checks of the current task. -/
  checks : Nat := 0
  journal : Array Entry := #[]
  /-- Whether the run is asked to stop. -/
  stopped : Bool := false
  /-- How often tasks asked whether to go on. -/
  polls : Nat := 0
  /-- How often the event of the stop point was announced. -/
  heard : Nat := 0
  deriving Inhabited

/-- A computation on a run. -/
abbrev Routine := EStateM Failure Run

/-- The queues that tasks work off. -/
inductive WorkList where
  | deleted
  | added
  | proved
  deriving DecidableEq, Repr, Inhabited

namespace Update

/-- The queue of a work list. -/
def queue (u : Update) : WorkList → Queue
  | .deleted => u.deleted
  | .added => u.added
  | .proved => u.proved

/-- The update with another queue for a work list. -/
def withQueue (u : Update) (w : WorkList) (q : Queue) : Update :=
  match w with
  | .deleted => { u with deleted := q }
  | .added => { u with added := q }
  | .proved => { u with proved := q }

end Update

namespace Run

/-- The flags of a row in the update. -/
def flags (r : Run) (row : RowIndex) : Flags := r.update.flags.flags row

/-- The flags of a row at the current level. -/
def levelFlags (r : Run) (row : RowIndex) : Flags := r.update.levelFlags.flags row

/-- What is known of a row with the given status. -/
def standing (r : Run) (row : RowIndex) (status : Status) : Standing := ⟨status, r.flags row⟩

/-- The run without a journal, ready for a stop point. -/
def refresh (r : Run) : Run := { r with journal := #[], polls := 0, heard := 0 }

/-- The run with one more announcement. -/
def hear (r : Run) (stop : StopPoint) (e : Event) : Run :=
  let r := { r with journal := r.journal.push (.event e) }
  match stop with
  | .event name nth =>
    if e.name = name then
      { r with heard := r.heard + 1, stopped := r.stopped || r.heard + 1 == nth }
    else r
  | _ => r

/-- The events announced. -/
def events (r : Run) : List Event :=
  r.journal.toList.filterMap fun
    | .event e => some e
    | .note _ => none

/-- The log without the events. -/
def notes (r : Run) : List LogEntry :=
  r.journal.toList.filterMap fun
    | .event _ => none
    | .note note => some note.logged

/-- The log. -/
def log (r : Run) (n : Naming) : List LogEntry :=
  r.journal.toList.filterMap fun
    | .event e => e.logged? n
    | .note note => some note.logged

end Run

namespace Context

variable (c : Context)

/-- The steady classes, if equality is in use. -/
def steady? (r : Run) : Option Classes :=
  if c.mode.equality.enabled then some r.steady else none

/-- The proving classes, if equality is in use. -/
def proving? (r : Run) : Option Classes :=
  if c.mode.equality.enabled then some r.proving else none

/-- An evaluation over the steady classes with the given filter. -/
def view (accepts : Run → Role → Occurrence → RowIndex → Status → Bool) : View Run :=
  { table := Run.table, classes := c.steady?, accepts }

/-- An evaluation over the proving classes with the given filter. -/
def provingView (accepts : Run → Role → Occurrence → RowIndex → Status → Bool) : View Run :=
  { table := Run.table, classes := c.proving?, accepts }

/-- No fact that the tasks come across has a higher id. -/
def maxId (r : Run) : Nat :=
  let facts := r.table.facts.foldl (fun n t => t.toList.foldl max n) 0
  let constants :=
    (c.rules.rules.toList.flatMap fun i => i.rule.atoms.flatMap Atom.constants).foldl max 0
  [nothingId, c.dictionary.size, facts, constants, r.steady.size, r.proving.size].foldl max 0

/-- A bound on the number of facts that the tasks come across. -/
def factBound (r : Run) : Nat := Nat.pow (c.maxId r + 1) 3

/-- A bound on the number of rows in a queue. -/
def budget (r : Run) : Nat :=
  c.factBound r + r.update.deleted.size + r.update.added.size + r.update.proved.size + 1

/-- Announces an event. -/
def announce (e : Event) : Routine Unit :=
  if c.monitored then modify fun r => r.hear c.stop e else pure ()

/-- Whether to go on. -/
def isRunning : Routine Bool := modifyGet fun r =>
  let polls := r.polls + 1
  let stopped := r.stopped || c.stop == .poll polls
  (!stopped, { r with polls, stopped })

/-- What `next` takes, or 0 once the run is asked to stop. -/
def whileRunning (next : Routine RowIndex) : Routine RowIndex := do
  if ← c.isRunning then next else pure 0

end Context

namespace Routine

variable {α β : Type}

/-- The value of an operation that may report an error. -/
def ofExcept : Except Error α → Routine α
  | .ok a => pure a
  | .error e => throw (.error e)

/-- The value of an operation that may fail. -/
def lift : Except Failure α → Routine α
  | .ok a => pure a
  | .error f => throw f

/-- A value read off the run. -/
def reads (f : Run → α) : Routine α := fun r => .ok (f r) r

/-- A value that must be there. -/
def demand (f : Run → Option α) : Routine α := fun r =>
  match f r with
  | some a => .ok a r
  | none => .error .misuse r

/-- The end of the part of a queue that belongs to the level below, as `ends` has it. -/
def endBefore (ends : Run → Array Nat) (level : Option Nat) : Routine Nat := fun r =>
  match Update.endBefore (ends r) level with
  | .ok place => .ok place r
  | .error e => .error e r

/-- Starts an update with the levels from 0 to `maxLevel`, or with a single pass. -/
def startUpdate (maxLevel : Option Nat) : Routine Unit := fun r =>
  match r.update.start maxLevel with
  | .ok update => .ok () { r with update }
  | .error f => .error f r

/-- Ends the parts of the work lists that belong to a level of the update. -/
def closeLevel (level : Option Nat) : Routine Unit := do
  demand fun r => if r.update.hasLevel level then some () else none
  modify fun r => { r with update := r.update.closeLevel level }

/-- Adds a note to the journal. -/
def note (n : Note) : Routine Unit :=
  modify fun r => { r with journal := r.journal.push (.note n) }

/-- What comes of a task that may report an error. What it did before stays. -/
def attempt (x : Routine α) : Routine (Except Error α) := fun r =>
  match x r with
  | .ok a r => .ok (.ok a) r
  | .error (.error e) r => .ok (.error e) r
  | .error f r => .error f r

/-- A task whose failure stops the run. -/
def orStop (x : Routine α) : Routine α := fun r =>
  match x r with
  | .ok a r => .ok a r
  | .error e r => .error e { r with stopped := true }

/-- The fact in a row. -/
def factOf (row : RowIndex) : Routine Triple := fun r =>
  match r.table.fact? row with
  | some t => .ok t r
  | none =>
    .error (.error (Error.invariantViolation s!"tuple {row} is not in the store")) r

/-- Makes sure that a fact has a row, and gives its number. -/
def rowOf (t : Triple) : Routine RowIndex := modifyGet fun r =>
  let ((_, row), table) := r.table.add t 0
  (row, { r with table })

/-- Adds a fact with some status bits; whether that changed any. -/
def store (t : Triple) (set : Status) : Routine (Bool × RowIndex) := modifyGet fun r =>
  let (added, table) := r.table.add t set
  (added, { r with table })

/-- Changes the status of a row; whether it was different before. -/
def updateStatus (row : RowIndex) (cleared set : Status) : Routine Bool := modifyGet fun r =>
  let (changed, table) := r.table.updateStatus row cleared set
  (changed, { r with table })

/-- Sets flags of a row; whether that changed any. -/
def addFlags (row : RowIndex) (set : Flags) : Routine Bool := fun r =>
  match r.update.flags.add row set with
  | .ok (changed, flags) => .ok changed { r with update := { r.update with flags } }
  | .error e => .error (.error e) r

/-- Sets flags of a row at the current level; whether that changed any. -/
def addLevelFlags (row : RowIndex) (set : Flags) : Routine Bool := fun r =>
  match r.update.levelFlags.add row set with
  | .ok (changed, levelFlags) => .ok changed { r with update := { r.update with levelFlags } }
  | .error e => .error (.error e) r

/-- Sets the mark of a resource and a kind; whether it was new. -/
def checkReflexivity (id kind : Nat) : Routine Bool := modifyGet fun r =>
  let (isNew, reflexivity) := r.reflexivity.check id kind
  (isNew, { r with reflexivity })

/-- Merges two resources in the steady classes; whether they were different. -/
def mergeSteady (source target : Nat) : Routine Bool := fun r =>
  match r.steady.merge? source target with
  | some (merged, steady) => .ok merged { r with steady }
  | none => .error .misuse r

/-- Merges two resources in the proving classes; whether they were different. -/
def mergeProving (source target : Nat) : Routine Bool := fun r =>
  match r.proving.merge? source target with
  | some (merged, proving) => .ok merged { r with proving }
  | none => .error .misuse r

/-- Puts a row into a work list. -/
def enqueue (w : WorkList) (row : RowIndex) : Routine Unit := fun r =>
  match (r.update.queue w).enqueue row with
  | .ok q => .ok () { r with update := r.update.withQueue w q }
  | .error e => .error (.error e) r

/-- Puts what a queue still holds into a work list. -/
def append (w : WorkList) (other : Queue) : Routine Unit := fun r =>
  match (r.update.queue w).append other with
  | .ok q => .ok () { r with update := r.update.withQueue w q }
  | .error e => .error (.error e) r

/-- Takes a row out of a work list; 0 if there is none left. -/
def dequeue (w : WorkList) : Routine RowIndex := modifyGet fun r =>
  let (row, q) := (r.update.queue w).dequeue
  (row, { r with update := r.update.withQueue w q })

/-- Takes a row out of a work list before the given place; 0 if there is none left. -/
def dequeueBefore (w : WorkList) (limit : Nat) : Routine RowIndex := modifyGet fun r =>
  let (row, q) := (r.update.queue w).dequeueBefore limit
  (row, { r with update := r.update.withQueue w q })

/-- Moves the cursor of a work list. -/
def seek (w : WorkList) (place : Nat) : Routine Unit :=
  modify fun r => { r with update := r.update.withQueue w ((r.update.queue w).seek place) }

/-- Takes rows with `next` and hands each to `handle`, until `next` answers 0. -/
def drain (next : Routine RowIndex) (handle : RowIndex → β → Routine β) : Nat → β → Routine β
  | 0, _ => throw .exhausted
  | fuel + 1, b => do
    let row ← next
    if row = 0 then pure b
    else
      let b ← handle row b
      drain next handle fuel b

end Routine

/-- Announces an event about the fact in a row. Without announcements the row is not looked at. -/
def Context.announceRow (c : Context) (row : RowIndex) (e : Triple → Event) : Routine Unit := do
  if c.monitored then c.announce (e (← Routine.factOf row))

end Entail
