import Entail.Update.Queue

/-!
# Segmented work queues

A `SegmentedQueue` is how a work queue is kept: row numbers lie in segments of `slots` slots, and a
slot that holds 0 is free. `head` is the next slot to fill and `tail` the next one to take from.
Slots keep their values when they are taken, and segments are kept when the queue is cleared. There
may be no room for one more segment: `memory` says of each number of segments whether there is room
for so many.

`Call` lists what a queue can be asked, and `answer` says what a segmented queue answers, and what a
list of values with a cursor answers.
-/

namespace Entail

/-- The number of slots in a segment. -/
def SegmentedQueue.slots : Nat := 4096

/-- Segments of slots, the next slot to fill and the next one to take from. -/
structure SegmentedQueue where
  segments : Array (Vector RowIndex SegmentedQueue.slots)
  head : Nat
  tail : Nat

namespace SegmentedQueue

theorem slots_pos : 0 < slots := by decide

/-- The queue without segments. -/
def empty : SegmentedQueue := ⟨#[], 0, 0⟩

instance : Inhabited SegmentedQueue := ⟨empty⟩

/-- The number of slots of all segments. -/
def capacity (q : SegmentedQueue) : Nat := q.segments.size * slots

/-- What the slot at a place holds, and 0 where there is no slot. -/
def load (q : SegmentedQueue) (place : Nat) : RowIndex :=
  have inside : place % slots < slots := Nat.mod_lt _ slots_pos
  match q.segments[place / slots]? with
  | some segment => segment[place % slots]
  | none => 0

/-- Takes segments until there is a slot at a place. -/
def reserve (memory : Nat → Bool) (place : Nat) (q : SegmentedQueue) :
    Except Error SegmentedQueue :=
  let needed := place / slots + 1
  if needed ≤ q.segments.size then .ok q
  else if memory needed then
    let fresh := Array.replicate (needed - q.segments.size) (Vector.replicate slots 0)
    .ok { q with segments := q.segments ++ fresh }
  else .error (Error.resourceExhausted "work queue" (needed * slots % Nat.pow 2 64))

/-- Fills the slot at a place. -/
def store (q : SegmentedQueue) (place : Nat) (row : RowIndex) : SegmentedQueue :=
  { q with segments := q.segments.modify (place / slots) fun segment =>
      segment.set (place % slots) row (Nat.mod_lt _ slots_pos) }

theorem lt_capacity_iff {q : SegmentedQueue} {place : Nat} :
    place < q.capacity ↔ place / slots < q.segments.size :=
  (Nat.div_lt_iff_lt_mul slots_pos).symm

theorem load_of_capacity_le {q : SegmentedQueue} {place : Nat} (h : q.capacity ≤ place) :
    q.load place = 0 := by
  have : q.segments.size ≤ place / slots := Nat.le_of_not_lt (mt lt_capacity_iff.mpr (Nat.not_lt_of_le h))
  rw [load, Array.getElem?_eq_none this]

theorem reserve_of_lt {memory : Nat → Bool} {q : SegmentedQueue} {place : Nat}
    (h : place < q.capacity) : q.reserve memory place = .ok q :=
  if_pos (lt_capacity_iff.mp h)

/-- New slots are free, and the others keep what they hold. -/
theorem load_reserve {memory : Nat → Bool} {q r : SegmentedQueue} {place : Nat}
    (h : q.reserve memory place = .ok r) (other : Nat) : r.load other = q.load other := by
  simp only [reserve] at h
  split at h
  · cases h
    rfl
  split at h
  · cases h
    rw [load, load]
    by_cases hs : other / slots < q.segments.size
    · rw [Array.getElem?_append_left hs]
    · rw [Array.getElem?_append_right (Nat.le_of_not_lt hs),
        Array.getElem?_eq_none (Nat.le_of_not_lt hs), Array.getElem?_replicate]
      split
      · rename_i heq
        split at heq
        · cases heq
          exact Vector.getElem_replicate _
        · cases heq
      · rfl
  · cases h

/-- Fills the next free slot from `head` on. -/
def put (memory : Nat → Bool) (row : RowIndex) (q : SegmentedQueue) :
    EStateM.Result Error SegmentedQueue Unit :=
  let place := q.head
  match _h : q.reserve memory place with
  | .error e => .error e q
  | .ok r =>
    if _free : r.load place = 0 then .ok () { r.store place row with head := place + 1 }
    else put memory row { r with head := place + 1 }
termination_by q.capacity - q.head
decreasing_by
  have hlt : q.head < q.capacity := Nat.lt_of_not_le fun hle =>
    _free ((load_reserve _h q.head).trans (load_of_capacity_le hle))
  cases (reserve_of_lt hlt).symm.trans _h
  exact Nat.sub_lt_sub_left hlt (Nat.lt_succ_self _)

/-- Adds a row number at the end. There is no row 0, so 0 is refused. -/
def enqueue (memory : Nat → Bool) (row : RowIndex) : EStateM Error SegmentedQueue Unit := fun q =>
  if row = 0 then .error (Error.invariantViolation "cannot enqueue the invalid tuple index") q
  else q.put memory row

/-- Takes the next value unless the next slot is at `limit` or after it; the answer is 0 if there is
nothing to take. -/
def dequeueBefore (q : SegmentedQueue) (limit : Nat) : RowIndex × SegmentedQueue :=
  if limit ≤ q.tail then (0, q)
  else
    let row := q.load q.tail
    if row = 0 then (0, q) else (row, { q with tail := q.tail + 1 })

/-- The value that would be taken next. -/
def peek (q : SegmentedQueue) : RowIndex := q.load q.tail

/-- Whether there is a value to take. -/
def canDequeue (q : SegmentedQueue) : Bool := q.peek != 0

/-- Moves the place of the next slot to take from. -/
def seek (q : SegmentedQueue) (place : Nat) : SegmentedQueue := { q with tail := place }

/-- The number of values not taken yet. -/
def unprocessed (q : SegmentedQueue) : Nat := q.head - q.tail

/-- The values in the slots from `start` up to `stop`. -/
def between (q : SegmentedQueue) (start stop : Nat) : List RowIndex :=
  ((List.range' start (stop - start)).map q.load).filter (· != 0)

/-- Queues the values that `other` still has to take. -/
def append (memory : Nat → Bool) (other : SegmentedQueue) : EStateM Error SegmentedQueue Unit :=
  (other.between other.tail other.head).forM (enqueue memory)

/-- Frees all slots and goes back to the first. -/
def clear (q : SegmentedQueue) : SegmentedQueue :=
  ⟨q.segments.map fun segment => segment.map fun _ => 0, 0, 0⟩

end SegmentedQueue

/-! ## Calls -/

namespace Queue

/-- The greatest place that can be named. -/
def lastPlace : Nat := Nat.pow 2 64 - 1

/-- What a queue can be asked. -/
inductive Call where
  | enqueue (row : RowIndex)
  | dequeue
  | dequeueBefore (limit : Nat)
  | peek
  | canDequeue
  | seek (place : Nat)
  /-- Queue what the queue of this number still has to take. -/
  | append (source : Nat)
  | clear
  | valueAt (place : Nat)
  | between (start stop : Nat)
  | unprocessed
  | nextTaken
  | firstFree
  deriving DecidableEq, Repr

/-- What a queue says. -/
inductive Answer where
  | done
  | number (n : Nat)
  | flag (b : Bool)
  | rows (l : List RowIndex)
  deriving DecidableEq, Repr

/-- The values that have not been taken yet. -/
def pending (q : Queue) : List RowIndex := q.values.toList.drop q.cursor

/-- A change that is made unless there is an error. -/
def attempt (f : Queue → Except Error Queue) : EStateM Error Queue Unit := fun q =>
  match f q with
  | .ok q => .ok () q
  | .error e => .error e q

/-- What a list with a cursor answers; `queues` are all the queues by their numbers. -/
def answer (queues : Nat → Queue) : Call → EStateM Error Queue Answer
  | .enqueue row => do attempt (·.enqueue row); return .done
  | .dequeue => .number <$> modifyGet (·.dequeueBefore lastPlace)
  | .dequeueBefore limit => .number <$> modifyGet (·.dequeueBefore limit)
  | .peek => return .number (← get).peek
  | .canDequeue => return .flag (← get).canDequeue
  | .seek place => do modify (·.seek place); return .done
  | .append source => do
    modify fun q => { q with values := q.values ++ (queues source).pending }
    return .done
  | .clear => do set empty; return .done
  | .valueAt place => return .number ((← get).valueAt place)
  | .between start stop => return .rows ((← get).between start stop)
  | .unprocessed => return .number (← get).unprocessed
  | .nextTaken => return .number (← get).cursor
  | .firstFree => return .number (← get).size

end Queue

/-- What a segmented queue answers; `queues` are all the queues by their numbers. -/
def SegmentedQueue.answer (memory : Nat → Bool) (queues : Nat → SegmentedQueue) :
    Queue.Call → EStateM Error SegmentedQueue Queue.Answer
  | .enqueue row => do enqueue memory row; return .done
  | .dequeue => .number <$> modifyGet (·.dequeueBefore Queue.lastPlace)
  | .dequeueBefore limit => .number <$> modifyGet (·.dequeueBefore limit)
  | .peek => return .number (← get).peek
  | .canDequeue => return .flag (← get).canDequeue
  | .seek place => do modify (·.seek place); return .done
  | .append source => do append memory (queues source); return .done
  | .clear => do modify (·.clear); return .done
  | .valueAt place => return .number ((← get).load place)
  | .between start stop => return .rows ((← get).between start stop)
  | .unprocessed => return .number (← get).unprocessed
  | .nextTaken => return .number (← get).tail
  | .firstFree => return .number (← get).head

end Entail
