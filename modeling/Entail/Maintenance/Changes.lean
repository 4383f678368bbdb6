import Entail.Maintenance.Run

/-!
# The changes of an update

`Changes.retract` and `Changes.assert` put the changes of base facts into the store and queue them,
each at the level of the rules that derive such facts. `Changes.copyClasses` sets the classes of
deleted equalities back to what was proved again. `Changes.propagate` finally turns the flags of the
update into the status of the rows.
-/

namespace Entail

/-- How many retractions had a base fact to retract, and how many had none. -/
structure Retracted where
  seeded : Nat
  ignored : Nat
  deriving DecidableEq, Repr, Inhabited

/-- How many facts left the materialization and how many entered it. -/
structure Propagated where
  deleted : Nat
  added : Nat
  deriving DecidableEq, Repr, Inhabited

namespace Changes

variable (c : Context)

/-- Queues a row with its fact: in the queue that `byLevel` has for the level of the fact if levels
are in use, else in a work list. -/
def queue (w : WorkList) (byLevel : Update → Array Queue)
    (withQueues : Update → Array Queue → Update) (row : RowIndex) (t : Triple) : Routine Unit := do
  if !c.mode.usesLevels then Routine.enqueue w row
  else
    let level := c.rules.componentLevel t
    let q ← Routine.demand fun r => (byLevel r.update)[level]?
    let q ← Routine.ofExcept (q.enqueue row)
    modify fun r =>
      { r with update := withQueues r.update ((byLevel r.update).setIfInBounds level q) }

/-- Queues a row for deletion, unless it is queued already. -/
def queueDeleted (row : RowIndex) (t : Triple) : Routine Unit := do
  if ← Routine.addFlags row Flag.Update.deletedNew then
    queue c .deleted Update.initiallyDeleted (fun u qs => { u with initiallyDeleted := qs }) row t

/-- Queues a row for addition, unless it is queued already. -/
def queueAdded (row : RowIndex) (t : Triple) : Routine Unit := do
  if ← Routine.addFlags row Flag.Update.addedNew then
    queue c .added Update.initiallyAdded (fun u qs => { u with initiallyAdded := qs }) row t

/-- The row and the fact to delete when a base fact is retracted: with equality those of its normal
form. -/
def standIn (row : RowIndex) (t : Triple) : Routine (RowIndex × Triple) := do
  match ← Routine.reads c.steady? with
  | none => pure (row, t)
  | some classes =>
    let normal := classes.normalizeTriple t
    if normal = t then pure (row, t)
    else
      let row ← Routine.rowOf normal
      pure (row, normal)

/-- Retracts one fact; whether it was asserted. -/
def retractOne (t : Triple) : Routine Bool := do
  match ← Routine.reads fun r => r.table.index? t with
  | none => pure false
  | some row =>
    if ← Routine.updateStatus row Status.asserted 0 then
      let (row, t) ← standIn c row t
      queueDeleted c row t
      pure true
    else pure false

/-- Retracts base facts. -/
def retract (facts : List Triple) : Routine Retracted := do
  let result ← facts.foldlM (fun (n : Retracted) t => do
    if ← retractOne c t then pure { n with seeded := n.seeded + 1 }
    else pure { n with ignored := n.ignored + 1 }) ⟨0, 0⟩
  Routine.note (.retractionsSeeded result.seeded result.ignored)
  pure result

/-- Asserts one fact; whether it was not asserted before. -/
def assertOne (t : Triple) : Routine Bool := do
  let (isNew, row) ← Routine.store t Status.asserted
  if isNew then queueAdded c row t
  pure isNew

/-- Asserts base facts. The answer is how many were not asserted before. -/
def assert (facts : List Triple) : Routine Nat := do
  let count ← facts.foldlM (fun n t => do
    if ← assertOne c t then pure (n + 1) else pure n) 0
  Routine.note (.assertionsSeeded count)
  pure count

/-- Sets the class of a deleted equality back to what was proved, and counts it then. -/
def copyClass (row : RowIndex) (count : Nat) : Routine Nat := do
  match ← Routine.reads fun r => r.table.fact? row with
  | none => pure count
  | some t =>
    let deleted ← Routine.reads fun r => (r.flags row).any Flag.Update.deleted
    if t.isSameAs && deleted then
      c.announce (.classCopied t.subject)
      modify fun r => { r with steady := r.steady.copyClass t.subject r.proving }
      pure (count + 1)
    else pure count

/-- Sets the classes of all deleted equalities back to what was proved. The answer is how many
equalities these are. -/
def copyClasses : Routine Nat := do
  Routine.seek .deleted 0
  let budget ← Routine.reads c.budget
  Routine.drain (c.whileRunning (Routine.dequeue .deleted)) (copyClass c) budget 0

/-- Puts a row into the materialization; whether it was not there. -/
def enter (row : RowIndex) : Routine Bool := Routine.updateStatus row Status.merged Status.derived

/-- The fact in a row, or one without resources if there is no such row. -/
def factOrNone (row : RowIndex) : Routine Triple :=
  Routine.reads fun r => (r.table.fact? row).getD ⟨0, 0, 0⟩

/-- Counts and announces a fact that enters the materialization, if it was not there. -/
def countAdded (isNew : Bool) (t : Triple) (n : Propagated) : Routine Propagated := do
  if isNew then
    c.announce (.added t)
    pure { n with added := n.added + 1 }
  else pure n

/-- Gives a fact that was kept the normal form that it has now. -/
def renormalize (row : RowIndex) (n : Propagated) : Routine Propagated := do
  match ← Routine.reads c.steady?, ← Routine.reads fun r => r.table.row? row with
  | some classes, some (status, t) =>
    let normal := classes.normalizeTriple t
    if !Standing.before status || normal = t then pure n
    else if !(← Routine.updateStatus row Status.derived Status.merged) then pure n
    else
      let normalRow ← Routine.rowOf normal
      countAdded c (← enter normalRow) normal n
  | _, _ => pure n

open Flag.Update in
/-- Takes a deleted row out of the materialization. A row that was queued but not deleted gets its
normal form. -/
def propagateDeleted (row : RowIndex) (n : Propagated) : Routine Propagated := do
  if (← Routine.reads fun r => r.flags row).only (deleted ||| added) deleted then
    if ← Routine.updateStatus row (Status.derived ||| Status.merged) 0 then
      c.announce (.deleted (← factOrNone row))
      pure { n with deleted := n.deleted + 1 }
    else pure n
  else renormalize c row n

/-- Puts a proved row into the materialization, in the normal form that its fact has now. -/
def propagateProved (row : RowIndex) (n : Propagated) : Routine Propagated := do
  let proved ← Routine.reads fun r =>
    (r.levelFlags row).any Flag.Level.proved && !(r.flags row).any Flag.Update.addedMerged
  if proved then
    let t ← factOrNone row
    let normal ← Routine.reads fun r => r.steady.normalizeTriple t
    let row ← if normal = t then pure row else Routine.rowOf normal
    countAdded c (← enter row) normal n
  else pure n

open Flag.Update in
/-- Puts an added row into the materialization. -/
def propagateAdded (row : RowIndex) (n : Propagated) : Routine Propagated := do
  if (← Routine.reads fun r => r.flags row).only (deleted ||| added ||| addedMerged) added then
    countAdded c (← enter row) (← factOrNone row) n
  else pure n

/-- Propagates what the update queued at one level. -/
def propagateLevel (budget : Nat) (n : Propagated) (level : Nat) : Routine Propagated := do
  let deletedEnd ← Routine.demand fun r => r.update.deletedEnds[level]?
  let n ← Routine.drain (c.whileRunning (Routine.dequeueBefore .deleted deletedEnd))
    (propagateDeleted c) budget n
  let n ←
    if c.mode.equality.enabled then
      Routine.drain (c.whileRunning (Routine.dequeue .proved)) (propagateProved c) budget n
    else pure n
  let addedEnd ← Routine.demand fun r => r.update.addedEnds[level]?
  Routine.drain (c.whileRunning (Routine.dequeueBefore .added addedEnd)) (propagateAdded c) budget n

/-- Writes the outcome of an update to the store. -/
def propagate : Routine Propagated := do
  let levels ← Routine.reads fun r => r.update.levels
  Routine.seek .deleted 0
  Routine.seek .proved 0
  Routine.seek .added 0
  c.announce .propagationStarted
  let budget ← Routine.reads c.budget
  let n ← (List.range levels).foldlM (propagateLevel c budget) ⟨0, 0⟩
  Routine.note (.changesPropagated n.deleted n.added)
  c.announce .propagationFinished
  pure n

end Changes

end Entail
