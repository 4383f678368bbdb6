import Entail.Update.Marks
import Entail.Update.Queue

/-!
# The state of an update

An `Update` holds what the tasks of one update tell each other: flags on facts, for the whole update
and for the current level, and queues of rows. The `interpretation` functions read off status and
flags whether a fact counts as present at some point of the update: before it, while deletions are
worked off, and after it.
-/

namespace Entail

/-- What the tasks of one update tell each other. -/
structure Update where
  /-- The flags that hold for the whole update. -/
  flags : Marks
  /-- The flags that hold for the current level. -/
  levelFlags : Marks
  /-- Rows that may have to be deleted. -/
  deleted : Queue
  /-- Rows that may have to be added. -/
  added : Queue
  /-- Rows that are proved. -/
  proved : Queue
  /-- For each level, the rows of the base facts retracted. -/
  initiallyDeleted : Array Queue
  /-- For each level, the rows of the base facts asserted. -/
  initiallyAdded : Array Queue
  /-- For each level, the end of its part of `deleted`. -/
  deletedEnds : Array Nat
  /-- For each level, the end of its part of `added`. -/
  addedEnds : Array Nat

namespace Update

/-- An update that has not been started and has no levels. -/
def idle : Update := ⟨.empty, .empty, .empty, .empty, .empty, #[], #[], #[], #[]⟩

instance : Inhabited Update := ⟨idle⟩

/-- There is no room for so many levels. The program has no such number: it takes an entry for every level
and fails when memory is used up, and here it is taken to be used up by so many. -/
def levelLimit : Nat := Nat.pow 2 32

/-- The number of the levels from 0 to `maxLevel`, as one of 64 bits; 1 for a single pass. -/
def levelCount (maxLevel : Option Nat) : Nat :=
  match maxLevel with
  | some n => (n + 1) % Nat.pow 2 64
  | none => 1

/-- Starts an update with the levels from 0 to `maxLevel`, or with a single pass. -/
def start (u : Update) (maxLevel : Option Nat) : Except Failure Update :=
  let levels := levelCount maxLevel
  if levels < levelLimit then
    .ok {
      flags := u.flags.clear
      levelFlags := u.levelFlags.clear
      deleted := .empty
      added := .empty
      proved := .empty
      initiallyDeleted := Array.replicate levels .empty
      initiallyAdded := Array.replicate levels .empty
      deletedEnds := Array.replicate levels 0
      addedEnds := Array.replicate levels 0 }
  else .error .misuse

/-- Starts a level. -/
def startLevel (u : Update) : Update :=
  { u with levelFlags := u.levelFlags.clear, proved := .empty }

/-- Sets the end of the part of `deleted` that belongs to a level. -/
def setDeletedEnd (u : Update) (level place : Nat) : Except Failure Update :=
  if level < u.deletedEnds.size then
    .ok { u with deletedEnds := u.deletedEnds.setIfInBounds level place }
  else .error .misuse

/-- Sets the end of the part of `added` that belongs to a level. -/
def setAddedEnd (u : Update) (level place : Nat) : Except Failure Update :=
  if level < u.addedEnds.size then
    .ok { u with addedEnds := u.addedEnds.setIfInBounds level place }
  else .error .misuse

/-- The number of levels. -/
def levels (u : Update) : Nat := u.initiallyDeleted.size

/-- Whether the update has a level. Without levels there is a single pass. -/
def hasLevel (u : Update) (level : Option Nat) : Bool := decide (level.getD 0 < u.levels)

/-- Ends the parts of `deleted` and `added` that belong to a level, at what is queued by now. -/
def closeLevel (u : Update) (level : Option Nat) : Update :=
  let place := level.getD 0
  { u with
    deletedEnds := u.deletedEnds.setIfInBounds place u.deleted.size
    addedEnds := u.addedEnds.setIfInBounds place u.added.size }

/-- The end of the part of `ends` that belongs to the level below; 0 at the bottom. -/
def endBefore (ends : Array Nat) : Option Nat → Except Failure Nat
  | none | some 0 => .ok 0
  | some (level + 1) =>
    match ends[level]? with
    | some place => .ok place
    | none => .error .misuse

end Update

/-- What is known of a fact: its status in the store and its flags in the update. -/
structure Standing where
  status : Status
  flags : Flags
  deriving DecidableEq, Repr, Inhabited

namespace Standing

open Flag.Update

/-- Whether a status puts a fact into the materialization as it was before the update. -/
def before (status : Status) : Bool :=
  status.only (Status.derived ||| Status.merged) Status.derived

/-- Whether a fact was there before the update and is not deleted, unless it is added again. -/
def kept (s : Standing) : Bool :=
  before s.status && !s.flags.only (added ||| deleted) deleted

/-- Whether a fact was there before the update or is added by it. -/
def withAdded (s : Standing) : Bool :=
  before s.status || s.flags.only (added ||| addedMerged) added

/-- Whether a fact is there after the update. -/
def after (s : Standing) : Bool :=
  (before s.status && !s.flags.any (deleted ||| addedMerged)) ||
    s.flags.only (added ||| addedMerged) added

end Standing

end Entail
