import Entail.Event
import Entail.Rule.Index
import Entail.Rule.Text
import Entail.Rule.Evaluation

/-!
# Rules as data

`Rule.toData` writes a rule with the numbers of its variables and the ids of its constants, and
`Rule.ofData?` reads it back. What is read need not be a safe rule. `Rule.describe` and
`RuleIndex.describe` write what else is known of a rule and of the rules around it, except for rules
that have no text.
-/

namespace Entail

/-- A table with a single named value. -/
def Data.tagged (name : String) (value : Data) : Data := .table [(name, value)]

/-- A term as data. -/
def Term.toData : Term → Data
  | .var v => .tagged "Variable" (.nat v)
  | .const id => .tagged "Constant" (.nat id)

/-- A term read from data. -/
def Term.ofData? : Data → Option Term
  | .table [("Variable", d)] => d.nat?.map .var
  | .table [("Constant", d)] => d.nat?.map .const
  | _ => none

namespace Atom

/-- An atom as data. -/
def toData (a : Atom) : Data := .tagged "terms" (.list (a.toList.map Term.toData))

/-- Three terms read from data. -/
def ofTerms? : Data → Option Atom
  | .list [s, p, o] => do
    let s ← Term.ofData? s
    let p ← Term.ofData? p
    let o ← Term.ofData? o
    pure ⟨s, p, o⟩
  | _ => none

/-- An atom read from data. -/
def ofData? (d : Data) : Option Atom := do
  match ← d.fields? false ["terms"] with
  | [terms] => Data.required? ofTerms? terms
  | _ => none

end Atom

namespace Literal

/-- A literal as data. -/
def toData : Literal → Data
  | .positive a => .tagged "Positive" a.toData
  | .negative atoms => .tagged "Negative" (.list (atoms.map Atom.toData))

/-- A literal read from data. -/
def ofData? : Data → Option Literal
  | .table [("Positive", d)] => (Atom.ofData? d).map .positive
  | .table [("Negative", d)] => (d.listOf? Atom.ofData?).map .negative
  | _ => none

end Literal

namespace Rule

/-- A rule as data. -/
def toData (r : Rule) : Data :=
  .table
    [("head", .list (r.head.map Atom.toData)), ("body", .list (r.body.map Literal.toData)),
      ("level", .nat r.level), ("variables", .list (r.names.map .text))]

/-- A rule read from data. -/
def ofData? (d : Data) : Option Rule := do
  match ← d.fields? false ["head", "body", "level", "variables"] with
  | [head, body, level, names] =>
    pure {
      head := ← Data.required? (Data.listOf? Atom.ofData?) head
      body := ← Data.required? (Data.listOf? Literal.ofData?) body
      level := ← Data.required? Data.nat? level
      names := ← Data.required? (Data.listOf? Data.text?) names }
  | _ => none

/-- The sets of positions at which atoms have constants. -/
def patterns (atoms : List Atom) : Data := .list (atoms.map fun a => .nat a.indexingPattern)

/-- A rule with what is known of it. -/
def describe (r : Rule) (d : Dictionary) : Option Data := do
  let text ← r.display d
  pure (.table
    [("rule", r.toData), ("display", .text text), ("level", .nat r.level),
      ("variables", .nat r.names.length), ("negation", .bool r.hasNegation),
      ("pivotless", .bool r.isPivotless), ("patterns", patterns r.head),
      ("body_patterns", .list (r.body.map fun l => patterns l.atoms))])

end Rule

/-- Head atoms as data. -/
def HeadRef.listToData (heads : List HeadRef) : Data :=
  .list (heads.map fun h => .list [.nat h.rule, .nat h.head])

/-- A match as data. -/
def Match.toData (m : Match) : Data := .list [.nat m.literal, .nat m.row, m.fact.toData]

/-- A sighting as data. -/
def Sighting.toData (s : Sighting) : Data :=
  .list
    [.text s.role.name, .nat s.occurrence.rule, .nat s.occurrence.literal,
      .nat s.occurrence.level, .nat s.row, .nat s.status.toNat, .bool s.accepted]

namespace RuleIndex

variable (x : RuleIndex)

/-- An indexed rule with what is known of it. -/
def describeRule (d : Dictionary) (r : IndexedRule) : Option Data := do
  let text ← r.rule.display d
  pure (.table
    [("display", .text text), ("recursive", .bool r.recursive),
      ("supporting", .list (r.supporting.map .bool)),
      ("literal_levels", .list (r.literalLevels.map .nat))])

/-- What is known of the rules of a scope. -/
def describeScope (s : Scope) : Data :=
  .list ([x.hasRules s, x.hasNegation s, x.hasRecursive s, x.hasNonrecursive s,
    x.hasPivotless s].map .bool)

/-- What the rules have to do with a fact. -/
def describeFact (classes : Option Classes) (scopes : List Scope) (t : Triple) : Data :=
  .table
    [("triple", t.toData), ("component_level", .nat (x.componentLevel t)),
      ("by_pattern",
        .list ((List.range 8).map fun p => HeadRef.listToData (x.headsWith classes t p))),
      ("all", HeadRef.listToData (x.headsFor classes t)),
      ("pivotless", .list (scopes.map fun s => .bool (x.isPivotlessFact t s)))]

/-- All rules, and the rules of each level up to a bound on their number. -/
def scopes (bound : Nat) : List Scope :=
  .all :: (List.range (min x.maxLevel bound + 1)).map .level

/-- The rules with what is known of them, of some facts and of some resources. -/
def describe (d : Dictionary) (classes : Option Classes) (scopes : List Scope)
    (facts : List Triple) (resources : List Nat) : Option Data := do
  let rules ← x.rules.toList.mapM (describeRule d)
  pure (.table
    [("len", .nat x.size), ("empty", .bool (x.size == 0)), ("by_levels", .bool x.byLevels),
      ("max_level", .nat x.maxLevel), ("rules", .list rules),
      ("scopes", .list (scopes.map x.describeScope)),
      ("facts", .list (facts.map (x.describeFact classes scopes))),
      ("mentioning", .list (resources.map fun id =>
        .list (scopes.map fun s => .list ((x.rulesMentioning classes id s).map .nat))))])

end RuleIndex

end Entail
