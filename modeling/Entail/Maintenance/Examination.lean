import Entail.Rule.Application

/-!
# Facts under examination

To examine a fact is to look for a proof of it. An `Examination` holds how far that has got: the
places where there is still to look. They are of three kinds, each of which yields the next: a
`Source` yields heads of rules or leads, a head yields leads, and a `Lead` yields one fact at most.
What was yielded last is looked at first: all leads before the next head, and all heads before the
next source.

An examination waits while a fact that a lead has yielded is examined itself.
-/

namespace Entail

/-- Where to look for facts from which a fact may follow. -/
inductive Source where
  /-- The rows with the subject of a reflexive fact at a position. -/
  | mentions (p : Position)
  /-- The reflexive facts of the resources of a fact. -/
  | replacements
  /-- The recursive rules with a head that has constants at a set of positions. -/
  | rules (pattern : Nat)
  deriving DecidableEq, Repr, Inhabited

/-- What may yield a fact from which a fact may follow. -/
inductive Lead where
  /-- A row that mentions the subject of a reflexive fact. -/
  | mention (row : RowIndex)
  /-- The reflexive fact of a resource. -/
  | replacement (id : Nat)
  /-- A fact that a rule needs. -/
  | premise (row : RowIndex) (fact : Triple)
  deriving DecidableEq, Repr, Inhabited

/-- The examination of a fact. -/
structure Examination where
  row : RowIndex
  fact : Triple
  /-- Whether the fact is proved, so that there is nothing left to look for. -/
  proved : Bool := false
  leads : List Lead := []
  /-- Heads of rules that derive the fact. -/
  heads : List HeadRef := []
  sources : List Source := []
  deriving DecidableEq, Repr, Inhabited

/-- The sources for a fact: the rules, if any are recursive, and with equality before them what
holds together the classes of its resources. -/
def Source.all (equality recursive : Bool) (t : Triple) : List Source :=
  let mentions := if t.isSameAs then Position.all.map Source.mentions else []
  (if equality then mentions ++ [.replacements] else []) ++
    if recursive then (List.range 8).map .rules else []

end Entail
