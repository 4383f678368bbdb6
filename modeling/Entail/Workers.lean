import Entail.Error

/-!
# Workers

A task may be shared by several workers, each of which does the same job. `Workers.run` says what
the result of the jobs is, and what workers do to each other in between is not part of it. The tasks
of an engine take the pool to be one worker: the number of workers is announced, and nothing else
depends on it (`Context.workers`).
-/

namespace Entail

/-- How many workers share a task. -/
structure Workers where
  /-- The number of workers, or 0 for one on each processor. -/
  count : Nat
  /-- Whether there is one worker whatever `count` says. -/
  sequential : Bool := false
  deriving DecidableEq, Repr, Inhabited

/-- How the job of one worker ends. -/
inductive JobResult where
  | done
  | failed (e : Error)
  /-- The job does not end properly. -/
  | crashed
  deriving DecidableEq, Repr, Inhabited

/-- The result that a text stands for: `ok`, `panic` for a job that does not end properly, and the
message of an internal error else. -/
def JobResult.ofText (text : String) : JobResult :=
  if text = "ok" then .done
  else if text = "panic" then .crashed
  else .failed (Error.internal text)

namespace Workers

/-- The number of workers on a machine with the given number of processors. -/
def effective (w : Workers) (processors : Nat := 1) : Nat :=
  if w.sequential then 1 else if w.count = 0 then processors else w.count

/-- The number of workers for a task that several may share, or not. -/
def forTask (w : Workers) (shared : Bool) : Nat := if shared then max w.effective 1 else 1

/-- The workers that take part when `count` are asked for: at least one does. -/
def taking (count : Nat) : List Nat := List.range (max count 1)

/-- The failure of a job, if it fails, when it is one of several. -/
def failure? : JobResult → Option Error
  | .done => none
  | .failed e => some e
  | .crashed => some (Error.internal "maintenance worker panicked")

/-- The result of the jobs of `count` workers: that of a single worker, or the first failure of
several. -/
def run (count : Nat) (job : Nat → JobResult) : Except Failure Unit :=
  if count ≤ 1 then
    match job 0 with
    | .done => .ok ()
    | .failed e => .error (.error e)
    | .crashed => .error .misuse
  else
    match (taking count).findSome? fun worker => failure? (job worker) with
    | none => .ok ()
    | some e => .error (.error e)

end Workers

end Entail
