import Entail.Maintenance.Run

/-!
# Deletion

A `DeletionTask` works off the facts of one level that may have lost their support. First the
consequences of changes at lower levels are queued (`replay`), then every queued fact is judged by a
check, which is a parameter (`run`): a fact that is not kept is deleted, and what was derived from
it is queued in turn.
-/

namespace Entail

/-- The deletion of one level. -/
structure DeletionTask where
  level : Option Nat
  /-- The end of what lower levels queued. -/
  lowerEnd : Nat
  /-- Whether changes at lower levels matter to the level. -/
  replays : Bool
  /-- A bound on the number of rows in a queue. -/
  budget : Nat
  deriving DecidableEq, Repr, Inhabited

/-- Whether a level has lower ones and rules of its own, which may read what changed there. -/
def Context.readsLower (c : Context) : Option Nat → Bool
  | some level => 0 < level && c.rules.hasRules (.level level)
  | none => false

namespace DeletionTask

variable (c : Context) (task : DeletionTask)

/-- The rules of the level. -/
def scope : Scope := .ofLevel task.level

/-- Queues the facts retracted at a level, and sets the queues back for the replay of lower levels.
`width` is the number of marks that the task keeps for each resource. -/
def start (level : Option Nat) (width : Nat) : Routine DeletionTask := do
  let lowerEnd ← match level with
    | none => pure 0
    | some level => do
      let place ← Routine.reads fun r => r.update.deleted.size
      let retracted ← Routine.demand fun r => r.update.initiallyDeleted[level]?
      Routine.append .deleted retracted
      pure place
  let replays := c.readsLower level
  Routine.seek .deleted (if replays then 0 else lowerEnd)
  if c.rules.hasNegation (.ofLevel level) then Routine.seek .added 0
  modify fun r => { r with reflexivity := .new c.dictionary.size width }
  let budget ← Routine.reads c.budget
  pure { level, lowerEnd, replays, budget }

/-- Queues a fact that may have lost its support. -/
def delete (t : Triple) : Routine Unit := do
  match ← Routine.reads fun r => r.table.index? t with
  | none =>
    let e := Error.invariantViolation
      "a derived fact is missing from the store; the rules do not seem to match the current data"
    throw (.error (e.withField "fact" (c.dictionary.displayTriple t)))
  | some row =>
    let isNew ← Routine.addFlags row Flag.Update.deletedNew
    if isNew then Routine.enqueue .deleted row
    c.announce (.derived t isNew)

/-- Which rows count as present while deletions of lower levels are replayed. -/
def replayDeleted (r : Run) (role : Role) (_ : Occurrence) (row : RowIndex) (status : Status) :
    Bool :=
  match role with
  | .positiveBeforePivot => (r.standing row status).kept
  | _ => Standing.before status

/-- Which rows count as present while additions of lower levels are replayed. -/
def replayAdded (r : Run) (role : Role) (_ : Occurrence) (row : RowIndex) (status : Status) :
    Bool :=
  let s := r.standing row status
  match role with
  | .positiveBeforePivot | .underlyingBeforePivot => s.kept
  | .negativeSingleAtomBeforePivot => s.withAdded
  | .underlyingAfterPivot => s.after
  | _ => Standing.before status

open Flag.Update in
/-- Queues what rules of the level derive from a fact deleted at a lower level. -/
def replayDeletion (row : RowIndex) : Routine Unit := do
  if (← Routine.reads fun r => r.flags row).only (added ||| deleted) deleted then
    let t ← Routine.factOf row
    c.rules.applyToPositive (c.view replayDeleted) row t task.scope fun _ head => delete c head

open Flag.Update in
/-- Queues what rules of the level derive because a fact added at a lower level was absent. -/
def replayAddition (row : RowIndex) : Routine Unit := do
  if (← Routine.reads fun r => r.flags row).only (added ||| deleted) added then
    let t ← Routine.factOf row
    c.rules.applyToNegation (c.view replayAdded) t task.scope fun _ head => delete c head

/-- Queues the consequences of changes at lower levels. -/
def replay : Routine Unit := do
  c.announce .deletionPreviousLevelsStarted
  Routine.drain (Routine.dequeueBefore .deleted task.lowerEnd)
    (fun row _ => task.replayDeletion c row) task.budget ()
  if c.rules.hasNegation task.scope then
    Routine.drain (Routine.dequeue .added) (fun row _ => task.replayAddition c row) task.budget ()

/-- Which rows count as present while the deletion of a row is propagated. -/
def propagationFilter (current : RowIndex) (r : Run) (role : Role) (_ : Occurrence)
    (row : RowIndex) (status : Status) : Bool :=
  let s := r.standing row status
  match role with
  | .positiveBeforePivot => row != current && s.kept
  | .positiveAfterPivot => s.kept
  | _ => s.withAdded

/-- Queues a row if its fact is in the materialization, because it may have got there by replacing
a resource by another one. -/
def deleteReplaced (row : RowIndex) : Routine Unit := do
  if Standing.before (← Routine.reads fun r => r.table.status row) then
    if ← Routine.addFlags row Flag.Update.deletedNew then
      Routine.enqueue .deleted row
      c.announceRow row .deletedViaReplacement

/-- Queues every fact that mentions a resource. -/
def deleteReplacements (id : Nat) : Routine Unit := do
  (← Routine.reads fun r => r.table.rowsMentioning id).forM (deleteReplaced c)

/-- Queues what a deleted fact was the reason for by the rules of equality: facts that mention a
resource of a class that may come apart, and the reflexive facts of its resources. -/
def propagateEquality (t : Triple) : Routine Unit := do
  match ← Routine.reads c.steady? with
  | none => pure ()
  | some classes =>
    if t.isSameAs && t.subject == t.object && !classes.isSingleton t.subject then
      deleteReplacements c t.subject
    t.toList.forM fun id => do
      if ← Routine.checkReflexivity id 0 then delete c (.reflexive id)

/-- Queues what was derived from a fact. -/
def propagate (row : RowIndex) (t : Triple) : Routine Unit := do
  propagateEquality c t
  if c.rules.hasRecursive task.scope then
    c.rules.applyToPositive (c.view (propagationFilter row)) row t task.scope fun _ head =>
      delete c head

/-- Judges a queued row: unless `check` finds that its fact is kept, it is deleted. -/
def judge (check : RowIndex → Triple → Routine Bool) (row : RowIndex) : Routine Unit := do
  let t ← Routine.factOf row
  c.announce (.possiblyDeleted t)
  let kept ← check row t
  if !kept then
    c.announce (.deletionPropagationStarted t)
    task.propagate c row t
    discard <| Routine.addFlags row Flag.Update.deleted
    c.announce .deletionPropagationFinished
  c.announce (.deletionJudged t (!kept))

/-- Judges queued rows until there are none left. -/
def judgeAll (check : RowIndex → Triple → Routine Bool) : Routine Unit := do
  c.announce .deletionRecursiveStarted
  Routine.drain (c.whileRunning (Routine.dequeue .deleted)) (fun row _ => task.judge c check row)
    task.budget ()
  c.announce .deletionFinished

/-- Works off the level. A failure stops the run. -/
def run (check : RowIndex → Triple → Routine Bool) : Routine Unit := do
  if task.replays then Routine.orStop (task.replay c)
  Routine.orStop (task.judgeAll c check)

/-- Works off the level with the first of some checks, of which there must be one. -/
def runFirst (checks : List (RowIndex → Triple → Routine Bool)) : Routine Unit :=
  match checks with
  | [] => throw (.error (Error.internal "deletion task started without a strategy"))
  | check :: _ => task.run c check

end DeletionTask

end Entail
