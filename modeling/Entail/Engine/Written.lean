import Entail.Engine
import Entail.Rule.Written

/-!
# Runs and engines as data

`Run.describe` writes the rows, the queues and the classes of a run. `Engine.query` and
`Engine.describeMode` write what an engine says of a fact and how it works.
-/

namespace Entail

/-- The classes with more than one member, each as the list of its members. -/
def Classes.toData (c : Classes) : Data :=
  .list (((List.range (c.size + 1)).filter fun id => c.isNormal id && !c.isSingleton id).map
    fun id => .list ((c.members id).map .nat))

/-- A queue as data. -/
def Queue.toData (q : Queue) : Data :=
  .table [("next", .nat q.cursor), ("values", .list (q.values.toList.map .nat))]

/-- The state of a run, with facts by name. -/
def Run.describe (r : Run) (d : Dictionary) : Data :=
  .table
    [("rows", .list (r.table.toList.map fun (row, t) =>
        .list
          [.text (d.displayTriple t), .nat (r.table.status row).toNat, .nat (r.flags row).toNat,
            .nat (r.levelFlags row).toNat])),
      ("delete", r.update.deleted.toData), ("added", r.update.added.toData),
      ("proved", r.update.proved.toData), ("steady", r.steady.toData),
      ("proving", r.proving.toData)]

/-- The ids of a dictionary as texts. -/
def Dictionary.toData (d : Dictionary) : Data :=
  .list ((List.range d.size).map fun i => .text (d.display (i + 1)))

namespace Engine

/-- What an engine knows of a fact. -/
def query (e : Engine) (t : Triple) : Data :=
  .table
    [("contains", .bool (e.contains t)), ("edb", .bool (e.isAsserted t)),
      ("status", .ofNat? ((e.statusOf t).map UInt8.toNat))]

/-- How an engine works. -/
def describeMode (e : Engine) : Data :=
  .table
    [("equality", .text e.mode.equality.name), ("by_levels", .bool e.mode.byLevels),
      ("equality_enabled", .bool e.mode.equality.enabled),
      ("una", .bool e.mode.equality.uniqueNames), ("uses_levels", .bool e.mode.usesLevels),
      ("strategy", .text e.strategy.name)]

/-- The rules of an engine with their levels. -/
def describeRules (e : Engine) : Data :=
  .list (e.rules.toList.map fun r =>
    .list [.nat r.level, .ofText? (r.display e.dictionary)])

end Engine

end Entail
