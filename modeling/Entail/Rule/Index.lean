import Entail.Rule

/-!
# Indexed rules

A `RuleIndex` holds rules with what maintenance asks about them: the level of the facts that each
literal matches, which literals are supporting, and the head atoms by the positions of their
constants. `RuleIndex.build` accepts rules by levels only if the levels are a stratification: heads
that unify have one level, and a literal reads facts of its rule's level or below, strictly below if
it is negated.
-/

namespace Entail

/-- Which rules an evaluation considers. -/
inductive Scope where
  | all
  | level (number : Nat)
  deriving DecidableEq, Repr, Inhabited

namespace Scope

/-- The rules of a level, or all rules if levels are not in use. -/
def ofLevel : Option Nat → Scope
  | some n => .level n
  | none => all

/-- Whether a scope has the rules of a level. -/
def includes : Scope → Nat → Bool
  | all, _ => true
  | level l, m => l == m

end Scope

/-- A head atom of an indexed rule. -/
structure HeadRef where
  rule : Nat
  head : Nat
  deriving DecidableEq, Hashable, Repr, Inhabited

/-- A rule and what the other rules make of it. -/
structure IndexedRule where
  rule : Rule
  /-- Whether some literal is supporting. -/
  recursive : Bool
  /-- For each literal, the level of the facts that it matches. -/
  literalLevels : List Nat
  /-- For each literal, whether a proof of a head goes back to the facts that it matches. -/
  supporting : List Bool
  deriving DecidableEq, Repr, Inhabited

/-- Rules ready for maintenance. -/
structure RuleIndex where
  rules : Array IndexedRule
  /-- For each of the eight sets of positions, the head atoms with constants there. -/
  heads : Array (List (HeadRef × Atom))
  byLevels : Bool

namespace RuleIndex

/-- The highest of some levels, and 0 if there is none. -/
def highest (levels : List Nat) : Nat := levels.foldl max 0

/-- The highest level of a rule with a head that unifies with an atom. -/
def headLevel (rules : List Rule) (a : Atom) : Nat :=
  highest ((rules.filter fun r => r.head.any fun h => h.unifies a).map Rule.level)

/-- The highest level of a rule with a head that unifies with an atom of a literal. -/
def literalLevel (rules : List Rule) (l : Literal) : Nat :=
  highest (l.atoms.map (headLevel rules))

/-- Whether some heads of two rules unify. -/
def headsOverlap (r s : Rule) : Bool :=
  r.head.any fun h => s.head.any fun g => g.unifies h

/-- The error of a rule with the given number that shares a head with a later rule of another
level, which is one of `others`. -/
def overlapError? (number : Nat) (r : Rule) (others : List (Rule × Nat)) : Option Error :=
  (others.find? fun (s, _) => headsOverlap r s && s.level != r.level).map fun (s, other) =>
    (Error.invalidStratification
      ("rules " ++ toString number ++ " and " ++ toString other ++
        " derive overlapping facts at levels " ++ toString r.level ++ " and " ++
        toString s.level)).withHint "rules whose heads unify must share a level"

/-- Whether a rule of level `level` may read facts of level `read` through a literal. -/
def mayRead (level read : Nat) (l : Literal) : Bool :=
  if l.isPositive then read ≤ level else read < level

/-- The error of a rule with the given number that reads facts of a level too high. -/
def dependencyError? (rules : List Rule) (number : Nat) (r : Rule) : Option Error :=
  ((r.body.map fun l => (l, literalLevel rules l)).find? fun (l, read) =>
      !mayRead r.level read l).map fun (_, read) =>
    (Error.invalidStratification
      ("rule " ++ toString number ++ " at level " ++ toString r.level ++ " depends on level " ++
        toString read)).withField "rule" (toString number)

/-- The first reason why the levels of rules are no stratification. -/
def stratificationError? (rules : List Rule) : Option Error :=
  rules.zipIdx.findSome? fun (r, number) =>
    (overlapError? number r (rules.zipIdx.drop (number + 1))).or
      (dependencyError? rules number r)

/-- A rule with what the rules around it make of it. -/
def indexRule (rules : List Rule) (byLevels : Bool) (r : Rule) : IndexedRule :=
  let levels := r.body.map (literalLevel rules)
  let supporting := (r.body.zip levels).map fun (l, read) =>
    l.isPositive && (!byLevels || read == r.level)
  ⟨r, supporting.any id, levels, supporting⟩

/-- The head atoms of rules, in the order of the rules and of their heads. -/
def headAtoms (rules : List Rule) : List (HeadRef × Atom) :=
  rules.zipIdx.flatMap fun (r, rule) => r.head.zipIdx.map fun (a, head) => (⟨rule, head⟩, a)

/-- Indexes rules, by levels if these are a stratification. -/
def build (rules : List Rule) (byLevels : Bool) : Except Error RuleIndex :=
  match if byLevels then stratificationError? rules else none with
  | some e => .error e
  | none =>
    .ok {
      rules := (rules.map (indexRule rules byLevels)).toArray
      heads := ((List.range 8).map fun pattern =>
        (headAtoms rules).filter fun (_, a) => a.indexingPattern == pattern).toArray
      byLevels }

/-- The index without rules. -/
def empty : RuleIndex := ⟨#[], #[], false⟩

instance : Inhabited RuleIndex := ⟨empty⟩

/-- The number of rules. -/
def size (x : RuleIndex) : Nat := x.rules.size

/-- The rules of a scope with their numbers. -/
def inScope (x : RuleIndex) (scope : Scope) : List (IndexedRule × Nat) :=
  x.rules.toList.zipIdx.filter fun (r, _) => scope.includes r.rule.level

/-- Whether a scope has rules. -/
def hasRules (x : RuleIndex) (scope : Scope) : Bool :=
  x.rules.any fun r => scope.includes r.rule.level

/-- Whether a scope has rules with negation. -/
def hasNegation (x : RuleIndex) (scope : Scope) : Bool :=
  x.rules.any fun r => scope.includes r.rule.level && r.rule.hasNegation

/-- Whether a scope has recursive rules. -/
def hasRecursive (x : RuleIndex) (scope : Scope) : Bool :=
  x.rules.any fun r => scope.includes r.rule.level && r.recursive

/-- Whether a scope has rules that are not recursive. -/
def hasNonrecursive (x : RuleIndex) (scope : Scope) : Bool :=
  x.rules.any fun r => scope.includes r.rule.level && !r.recursive

/-- Whether a scope has rules without positive literals. -/
def hasPivotless (x : RuleIndex) (scope : Scope) : Bool :=
  x.rules.any fun r => scope.includes r.rule.level && r.rule.isPivotless

/-- Whether a literal of a rule is supporting. -/
def isSupporting (x : RuleIndex) (rule literal : Nat) : Bool :=
  match x.rules[rule]? with
  | some r => (r.supporting[literal]?).getD false
  | none => false

/-- The highest level of a rule. -/
def maxLevel (x : RuleIndex) : Nat :=
  highest (x.rules.toList.map fun r => r.rule.level)

/-- The highest level of a rule that can derive a fact. -/
def componentLevel (x : RuleIndex) (t : Triple) : Nat :=
  highest ((x.rules.toList.filter fun r => r.rule.head.any fun h => h.accepts none t).map
    fun r => r.rule.level)

/-- The head atoms with constants at the given set of positions of which a fact is an instance. -/
def headsWith (x : RuleIndex) (classes : Option Classes) (t : Triple) (pattern : Nat) :
    List HeadRef :=
  (((x.heads[pattern]?).getD []).filter fun (_, a) => a.accepts classes t).map (·.1)

/-- The head atoms of which a fact is an instance, by the positions of their constants. -/
def headsFor (x : RuleIndex) (classes : Option Classes) (t : Triple) : List HeadRef :=
  (List.range 8).flatMap (x.headsWith classes t)

/-- The rules of a scope with a constant in the class of a resource. -/
def rulesMentioning (x : RuleIndex) (classes : Option Classes) (id : Nat) (scope : Scope) :
    List Nat :=
  ((x.inScope scope).filter fun (r, _) => r.rule.mentions classes id).map (·.2)

/-- Whether a rule of a scope without positive literals has a fact itself as a head. -/
def isPivotlessFact (x : RuleIndex) (t : Triple) (scope : Scope) : Bool :=
  (x.inScope scope).any fun (r, _) =>
    r.rule.isPivotless && r.rule.head.any fun a =>
      Position.all.all fun p => a.get p == .const (t.get p)

end RuleIndex

end Entail
