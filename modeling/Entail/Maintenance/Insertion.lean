import Entail.Maintenance.Deletion

/-!
# Insertion

An `InsertionTask` adds the facts queued at a level and what follows from them. First the
consequences of changes at lower levels are queued (`replay`), then the queued facts are added one
by one, each with its consequences (`addAll`).

With equality only facts in normal form are added. When two resources become equal, the facts that
mention the one absorbed give way to their normal forms and the rules that mention it are applied
anew (`unite`); that may make more resources equal.
-/

namespace Entail

/-- The insertion of one level. -/
structure InsertionTask where
  level : Option Nat
  /-- The end of what lower levels queued. -/
  lowerEnd : Nat
  /-- Whether changes at lower levels matter to the level. -/
  replays : Bool
  /-- A bound on the number of rows in a queue, and on the nesting of derivations. -/
  budget : Nat
  deriving DecidableEq, Repr, Inhabited

namespace InsertionTask

variable (c : Context) (task : InsertionTask)

/-- The rules of the level. -/
def scope : Scope := .ofLevel task.level

/-- Queues the facts asserted at a level, and sets the queues back. -/
def start (level : Option Nat) : Routine InsertionTask := do
  match level with
  | none => pure ()
  | some level =>
    let asserted ← Routine.demand fun r => r.update.initiallyAdded[level]?
    Routine.append .added asserted
  Routine.seek .added 0
  if c.rules.hasNegation (.ofLevel level) then Routine.seek .deleted 0
  let lowerEnd ← Routine.endBefore (fun r => r.update.addedEnds) level
  modify fun r => { r with reflexivity := .new c.dictionary.size 1 }
  let budget ← Routine.reads c.budget
  pure { level, lowerEnd, replays := c.readsLower level, budget }

open Entail.Flag in
/-- Whether a row with the given status is there after the update. With equality this includes what
was proved while deletions were worked off. -/
def present (r : Run) (row : RowIndex) (status : Status) : Bool :=
  (r.standing row status).after ||
    (c.mode.equality.enabled &&
      (r.levelFlags row).only (Level.proved ||| Level.provedMerged) Level.proved &&
      !(r.flags row).any Update.addedMerged)

/-- Marks a row as given up for its normal form; whether it was not yet. -/
def markMerged (row : RowIndex) : Routine Bool := do
  let merged ← Routine.addFlags row Flag.Update.addedMerged
  if (← Routine.reads fun r => r.table.status row).any Status.derived then
    discard <| Routine.updateStatus row Status.derived Status.merged
  pure merged

/-- Gives up a row if its fact is present and not in normal form any more. -/
def renormalize (derive : Triple → Routine Unit) (row : RowIndex) : Routine Unit := do
  if ← Routine.reads fun r => present c r row (r.table.status row) then
    let t ← Routine.factOf row
    let normal ← Routine.reads fun r => r.steady.normalizeTriple t
    if normal ≠ t then
      if ← markMerged row then derive normal

/-- Brings facts and rules up to date after a resource was absorbed. -/
def absorb (derive : Triple → Routine Unit) (source : Nat) : Routine Unit := do
  Position.all.forM fun p => do
    (← Routine.reads fun r => r.table.rowsAt source p).forM (renormalize c derive)
  let rules ← Routine.reads fun r => c.rules.rulesMentioning (some r.steady) source task.scope
  let view : View Run :=
    { table := Run.table, classes := fun r => some r.steady, accepts := fun r _ _ => present c r }
  rules.forM fun rule => c.rules.evaluateRule view rule fun _ head => derive head

/-- Merges two resources that are equal. -/
def unite (derive : Triple → Routine Unit) (first second : Nat) : Routine Unit := do
  let d := c.dictionary.mergeDirection c.mode.equality.uniqueNames first second
  let merged ← Routine.mergeSteady d.source d.target
  if merged then
    c.announce (.constantMerged d.source d.target)
    absorb c task derive d.source
  if d.clash then
    c.announce (.inconsistency d.target)
    let nothing ← Routine.reads fun r => r.steady.normalizeTriple ⟨d.target, rdfTypeId, nothingId⟩
    derive nothing

/-- Queues a derived fact. With equality, what is not in normal form does not count, and an equality
takes effect at once. `depth` bounds the nesting of derivations. -/
def derive : Nat → Triple → Routine Unit
  | 0, _ => throw .exhausted
  | depth + 1, t => do
    let equality := c.mode.equality.enabled
    let normal ← Routine.reads fun r => !equality || r.steady.isNormalTriple t
    if normal then
      let row ← Routine.rowOf t
      let isNew ← Routine.addFlags row Flag.Update.addedNew
      if isNew then Routine.enqueue .added row
      c.announce (.derived t isNew)
      if isNew ∧ equality ∧ t.isSameAs ∧ t.subject ≠ t.object then
        unite c task (derive depth) t.subject t.object

/-- Queues a derived fact, with room for as many nested derivations as there are facts. -/
def deriveFact (t : Triple) : Routine Unit := derive c task task.budget t

/-- Which rows count as present while additions of lower levels are replayed. -/
def replayAdded (r : Run) (role : Role) (_ : Occurrence) (row : RowIndex) (status : Status) :
    Bool :=
  match role with
  | .positiveBeforePivot => (r.standing row status).kept
  | _ => present c r row status

/-- Which rows count as present while deletions of lower levels are replayed. -/
def replayDeleted (r : Run) (role : Role) (_ : Occurrence) (row : RowIndex) (status : Status) :
    Bool :=
  let s := r.standing row status
  match role with
  | .positiveBeforePivot | .underlyingBeforePivot => s.kept
  | .negativeSingleAtomBeforePivot => s.withAdded
  | .underlyingAfterPivot => Standing.before status
  | _ => present c r row status

open Flag.Update in
/-- Derives what follows from a fact added at a lower level. -/
def replayAddition (row : RowIndex) : Routine Unit := do
  if (← Routine.reads fun r => r.flags row).only (added ||| addedMerged ||| deleted) added then
    let t ← Routine.factOf row
    c.rules.applyToPositive (c.view (replayAdded c)) row t task.scope fun _ head =>
      task.deriveFact c head

open Flag.Update in
/-- Derives what follows because a fact was deleted at a lower level. -/
def replayDeletion (row : RowIndex) : Routine Unit := do
  if (← Routine.reads fun r => r.flags row).only (added ||| addedMerged ||| deleted) deleted then
    let t ← Routine.factOf row
    c.rules.applyToNegation (c.view (replayDeleted c)) t task.scope fun _ head =>
      task.deriveFact c head

/-- Derives the consequences of changes at lower levels. -/
def replay : Routine Unit := do
  Routine.drain (c.whileRunning (Routine.dequeueBefore .added task.lowerEnd))
    (fun row _ => task.replayAddition c row) task.budget ()
  if c.rules.hasNegation task.scope then
    Routine.drain (c.whileRunning (Routine.dequeue .deleted))
      (fun row _ => task.replayDeletion c row) task.budget ()

/-- Which rows count as present while a row is added. -/
def additionFilter (current : RowIndex) (r : Run) (role : Role) (_ : Occurrence)
    (row : RowIndex) (status : Status) : Bool :=
  match role with
  | .positiveBeforePivot => row != current && present c r row status
  | _ => present c r row status

/-- Derives what follows from an added fact. -/
def propagate (row : RowIndex) (t : Triple) : Routine Unit := do
  if c.mode.equality.enabled then
    t.toList.forM fun id => do
      if ← Routine.checkReflexivity id 0 then task.deriveFact c (.reflexive id)
  if c.rules.hasRecursive task.scope then
    c.rules.applyToPositive (c.view (additionFilter c row)) row t task.scope fun _ head =>
      task.deriveFact c head

open Flag.Update in
/-- Adds a fact in normal form, and counts it if it is new. -/
def addNormal (row : RowIndex) (t : Triple) (count : Nat) : Routine Nat := do
  let isNew ← Routine.addFlags row added
  if isNew then c.announce (.inserted t)
  if c.mode.equality.enabled ∧ t.isSameAs ∧ t.subject ≠ t.object then
    unite c task (task.deriveFact c) t.subject t.object
  else task.propagate c row t
  pure (if isNew then count + 1 else count)

/-- Adds a queued fact or, with equality, derives its normal form instead if that is another
fact. -/
def add (row : RowIndex) (t : Triple) (count : Nat) : Routine Nat := do
  let normal ← Routine.reads fun r =>
    match c.steady? r with
    | some classes => classes.normalizeTriple t
    | none => t
  if normal ≠ t then
    discard <| markMerged row
    task.deriveFact c normal
    pure count
  else task.addNormal c row t count

/-- Adds a queued row unless it is present, and counts it if it is new. -/
def consider (row : RowIndex) (count : Nat) : Routine Nat := do
  match ← Routine.reads fun r => r.table.row? row with
  | none => pure count
  | some (status, t) =>
    if ← Routine.reads fun r => present c r row status then pure count
    else task.add c row t count

/-- Adds queued rows until there are none left. The answer is how many were new. -/
def addAll : Routine Nat := do
  c.announce .insertionPreviousLevelsStarted
  if task.replays then task.replay c
  c.announce .insertionRecursiveStarted
  let count ← Routine.drain (c.whileRunning (Routine.dequeue .added)) (task.consider c)
    task.budget 0
  c.announce .insertionFinished
  pure count

end InsertionTask

/-- Adds the facts of a level. The answer is how many were new. A failure stops the run. -/
def insert (c : Context) (level : Option Nat) : Routine Nat := do
  let task ← InsertionTask.start c level
  let workers := if c.mode.equality.enabled then 1 else c.workers
  c.announce (.taskStarted .insertion level workers)
  let count ← Routine.orStop (task.addAll c)
  Routine.note (.insertionFinished level count)
  c.announce (.taskFinished .insertion level)
  pure count

end Entail
