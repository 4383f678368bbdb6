import Entail.Maintenance.Deletion

/-!
# Deleting first and putting back afterwards

`Rederivation.delete` deletes every fact of a level that may have lost its support.
`Rederivation.rederive` then puts back those that are asserted or follow in one step from what was
kept.
-/

namespace Entail.Rederivation

variable (c : Context)

/-- Deletes every fact of a level that may have lost its support. -/
def delete (level : Option Nat) : Routine Unit := do
  c.announce (.taskStarted .deletion level c.workers)
  let task ← DeletionTask.start c level 1
  task.run c fun _ _ => pure false
  c.announce (.taskFinished .deletion level)

/-- Which rows can support a fact that is put back. -/
def supports (r : Run) (role : Role) (_ : Occurrence) (row : RowIndex) (status : Status) : Bool :=
  let s := r.standing row status
  match role with
  | .supportingNegative => s.withAdded
  | _ => s.kept

/-- Queues a fact for addition if some rule derives it or it is asserted, and counts it then. -/
def putBack (row : RowIndex) (status : Status) (t : Triple) (count : Nat) : Routine Nat := do
  let kept ←
    if status.any Status.asserted then pure true
    else c.rules.isDerivable (c.view supports) t
  if !kept then pure count
  else if !(← Routine.addFlags row Flag.Update.addedNew) then pure count
  else
    Routine.enqueue .added row
    c.announce (.rederived t)
    pure (count + 1)

/-- Puts a row back if it is deleted and still has support, and counts it then. -/
def consider (row : RowIndex) (count : Nat) : Routine Nat := do
  if !(← Routine.reads fun r => r.flags row).any Flag.Update.deleted then pure count
  else
    match ← Routine.reads fun r => r.table.row? row with
    | none => pure count
    | some (status, t) => putBack c row status t count

/-- Puts back the facts of a level that still have support. The answer is how many these are. -/
def rederive (level : Option Nat) : Routine Nat := do
  c.announce (.taskStarted .rederivation level c.workers)
  let place ← Routine.endBefore (fun r => r.update.deletedEnds) level
  Routine.seek .deleted place
  let budget ← Routine.reads c.budget
  c.announce .rederivationStarted
  let count ← Routine.drain (c.whileRunning (Routine.dequeue .deleted)) (consider c) budget 0
  Routine.note (.rederivationFinished level count)
  c.announce (.taskFinished .rederivation level)
  pure count

end Entail.Rederivation
