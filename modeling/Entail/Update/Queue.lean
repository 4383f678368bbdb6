import Entail.Error
import Entail.Table

/-!
# Work queues

A `Queue` is a list of row numbers with a cursor that marks the next one to take. Values stay in
place when they are taken, so the cursor can go back and a part of the list can be taken again.
-/

namespace Entail

/-- Row numbers in the order in which they were queued, and the place of the next one to take. -/
structure Queue where
  values : Array RowIndex
  cursor : Nat

namespace Queue

/-- The queue without values. -/
def empty : Queue := ⟨#[], 0⟩

instance : Inhabited Queue := ⟨empty⟩

/-- The value at a place, and 0 where there is none. -/
def valueAt (q : Queue) (place : Nat) : RowIndex := q.values[place]?.getD 0

/-- The first place without a value. -/
def size (q : Queue) : Nat := q.values.size

/-- Adds a row number at the end. There is no row 0, so 0 is refused. -/
def enqueue (q : Queue) (row : RowIndex) : Except Error Queue :=
  if row = 0 then .error (Error.invariantViolation "cannot enqueue the invalid tuple index")
  else .ok { q with values := q.values.push row }

/-- Takes the next value unless the cursor has reached `limit`; the answer is 0 if there is nothing
to take. -/
def dequeueBefore (q : Queue) (limit : Nat) : RowIndex × Queue :=
  if limit ≤ q.cursor then (0, q)
  else
    match q.values[q.cursor]? with
    | some row => (row, { q with cursor := q.cursor + 1 })
    | none => (0, q)

/-- Takes the next value; the answer is 0 if there is nothing to take. -/
def dequeue (q : Queue) : RowIndex × Queue :=
  match q.values[q.cursor]? with
  | some row => (row, { q with cursor := q.cursor + 1 })
  | none => (0, q)

/-- The value that would be taken next. -/
def peek (q : Queue) : RowIndex := q.valueAt q.cursor

/-- Whether there is a value to take. -/
def canDequeue (q : Queue) : Bool := q.peek != 0

/-- Moves the cursor. -/
def seek (q : Queue) (place : Nat) : Queue := { q with cursor := place }

/-- The number of values not taken yet. -/
def unprocessed (q : Queue) : Nat := q.size - q.cursor

/-- The values at the places from `start` up to `stop`. -/
def between (q : Queue) (start stop : Nat) : List RowIndex :=
  (q.values.toList.take stop).drop start

/-- Queues each of `rows`, up to the first that is refused. -/
def enqueueAll (q : Queue) : List RowIndex → Except Error Queue
  | [] => .ok q
  | row :: rest => do (← q.enqueue row).enqueueAll rest

/-- Queues the values that `other` still has to take. -/
def append (q other : Queue) : Except Error Queue :=
  q.enqueueAll (other.between other.cursor other.size)

end Queue

end Entail
