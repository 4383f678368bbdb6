import Entail.Maintenance.Changes
import Entail.Maintenance.Insertion
import Entail.Maintenance.Rederivation
import Entail.Maintenance.Search
import Entail.Materialization

/-!
# Maintenance

`Maintenance.update` brings the materialization up to date when base facts are retracted and
asserted. It works off one level after the other: what has lost its support is deleted, and then
what follows from the changes is added. In the end the changes are written to the store, unless the
update was stopped.
-/

namespace Entail

/-- What an update did. -/
structure Stats where
  strategy : Strategy
  /-- The number of levels worked off, 1 without levels. -/
  levels : Nat := 0
  /-- Retractions of asserted facts. -/
  retracted : Nat := 0
  /-- Retractions of facts that were not asserted. -/
  ignored : Nat := 0
  /-- Assertions of facts that were not asserted. -/
  asserted : Nat := 0
  /-- Facts that left the materialization. -/
  deleted : Nat := 0
  /-- Deleted facts that were put back. -/
  rederived : Nat := 0
  /-- Facts that entered the materialization. -/
  added : Nat := 0
  /-- Searches for proofs. -/
  checks : Nat := 0
  /-- Whether the update was stopped before its end. -/
  cancelled : Bool := false
  deriving DecidableEq, Repr, Inhabited

/-- Statistics as data. -/
def Stats.toData (s : Stats) : Data :=
  .table
    [("strategy", .text s.strategy.name), ("levels_processed", .nat s.levels),
      ("initially_deleted", .nat s.retracted), ("ignored_deletions", .nat s.ignored),
      ("initially_inserted", .nat s.asserted), ("deleted", .nat s.deleted),
      ("rederived", .nat s.rederived), ("added", .nat s.added), ("checks", .nat s.checks),
      ("cancelled", .bool s.cancelled)]

namespace Maintenance

variable (c : Context)

/-- Deletes the facts of a level that have lost their support. -/
def deleteLevel (level : Option Nat) (stats : Stats) : Routine Stats := do
  match stats.strategy with
  | .dred =>
    Rederivation.delete c level
    let rederived ← Rederivation.rederive c level
    pure { stats with rederived := stats.rederived + rederived }
  | .fbf =>
    let checks ← Search.delete c level
    if c.mode.equality.enabled then discard (Changes.copyClasses c)
    pure { stats with checks := stats.checks + checks }

/-- Works off a level. -/
def updateLevel (level : Option Nat) (stats : Stats) : Routine Stats := do
  modify fun r => { r with update := r.update.startLevel }
  c.announce (.levelStarted level)
  let stats ← deleteLevel c level stats
  let inserted ← insert c level
  Routine.closeLevel level
  Routine.note (.levelMaintained level inserted)
  c.announce (.levelFinished level)
  pure { stats with levels := stats.levels + 1 }

/-- Works off levels until the run is stopped. -/
def updateLevels : List (Option Nat) → Stats → Routine Stats
  | [], stats => pure stats
  | level :: rest, stats => do
    if ← c.isRunning then updateLevels rest (← updateLevel c level stats) else pure stats

/-- Writes the changes to the store, unless the run is stopped. -/
def finish (stats : Stats) : Routine Stats := do
  if ← c.isRunning then
    let n ← Changes.propagate c
    Routine.note (.updateApplied n.deleted n.added stats.rederived stats.checks)
    pure { stats with deleted := n.deleted, added := n.added }
  else
    Routine.note (.updateCancelled stats.levels)
    pure { stats with cancelled := true }

/-- The highest level, if levels are in use. -/
def maxLevel? : Option Nat := if c.mode.usesLevels then some c.rules.maxLevel else none

/-- Retracts and asserts base facts and brings the materialization up to date. A fact that is both
retracted and asserted is asserted in the end. -/
def update (strategy : Strategy) (retractions assertions : List Triple) : Routine Stats := do
  Routine.note (.applyingChanges strategy.name)
  Routine.startUpdate (maxLevel? c)
  modify fun r => { r with proving := .discrete }
  let levels ← Routine.lift (Materialization.levels c.rules c.mode)
  let retracted ← Changes.retract c retractions
  let asserted ← Changes.assert c assertions
  let stats ← updateLevels c levels
    { strategy, retracted := retracted.seeded, ignored := retracted.ignored, asserted }
  finish c stats

end Maintenance

end Entail
