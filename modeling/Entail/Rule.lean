import Entail.Classes
import Entail.Error

/-!
# Rules

A `Rule` derives its head atoms from a body of positive atoms and negated conjunctions. A negated
conjunction holds when its atoms have no joint match. `Rule.new` accepts safe rules only: every head
variable occurs in a positive literal, and a variable of a negated literal either does so too or
occurs in no other literal. It puts the negated literals last.
-/

namespace Entail

/-- What stands at a position of an atom. -/
inductive Term where
  /-- A variable, by its number in the rule. -/
  | var (index : Nat)
  /-- A resource, by its id. -/
  | const (id : Nat)
  deriving DecidableEq, Hashable, Repr, Inhabited

/-- Whether a term is a constant. -/
def Term.isConst : Term → Bool
  | .const _ => true
  | .var _ => false

/-- A pattern for facts. -/
abbrev Atom := Three Term

namespace Atom

/-- The set of positions that hold constants, as the sum of their bits. -/
def indexingPattern (a : Atom) : Nat :=
  (Position.all.filter fun p => (a.get p).isConst).foldl (fun n p => n + p.bit) 0

/-- The variables of an atom, in order and with repetitions. -/
def vars (a : Atom) : List Nat :=
  a.toList.filterMap fun
    | .var v => some v
    | .const _ => none

/-- The constants of an atom, in order and with repetitions. -/
def constants (a : Atom) : List Nat :=
  a.toList.filterMap fun
    | .var _ => none
    | .const c => some c

/-- Whether no position has different constants in the two atoms. Repeated variables do not
count. -/
def unifies (a b : Atom) : Bool :=
  Position.all.all fun p =>
    match a.get p, b.get p with
    | .const c, .const d => c == d
    | _, _ => true

/-- Whether a fact is an instance of an atom, with the constants of the atom normalized by
`classes`. -/
def accepts (a : Atom) (classes : Option Classes) (t : Triple) : Bool :=
  Position.all.all fun p =>
    match a.get p with
    | .const c => Classes.normalizeIn classes c == t.get p
    | .var v => Position.all.all fun q => a.get q != .var v || t.get q == t.get p

end Atom

/-- A conjunct of a rule body. -/
inductive Literal where
  /-- The atom has a match. -/
  | positive (atom : Atom)
  /-- The atoms have no joint match. -/
  | negative (atoms : List Atom)
  deriving DecidableEq, Repr, Inhabited

namespace Literal

/-- Whether a literal is a positive atom. -/
def isPositive : Literal → Bool
  | positive _ => true
  | negative _ => false

/-- The atoms of a literal. -/
def atoms : Literal → List Atom
  | positive atom => [atom]
  | negative atoms => atoms

/-- The variables of a literal, in order and with repetitions. -/
def vars (l : Literal) : List Nat := l.atoms.flatMap Atom.vars

end Literal

/-- A rule with the level at which it is applied. -/
structure Rule where
  head : List Atom
  body : List Literal
  level : Nat
  /-- The names of the variables. -/
  names : List String
  deriving DecidableEq, Repr, Inhabited

namespace Rule

/-- The variables of the positive literals of a body. -/
def boundVariables (body : List Literal) : List Nat :=
  (body.filter Literal.isPositive).flatMap Literal.vars

/-- The name of a variable, or its number behind a `#` if it has none. -/
def variableName (names : List String) (v : Nat) : String :=
  (names[v]?).getD ("#" ++ toString v)

/-- The first variable of the head that no positive literal binds. -/
def unboundHead? (head : List Atom) (body : List Literal) : Option Nat :=
  (head.flatMap Atom.vars).find? fun v => !(boundVariables body).contains v

/-- Whether a variable occurs in a literal other than the one at the given place. -/
def occursElsewhere (body : List Literal) (place v : Nat) : Bool :=
  body.zipIdx.any fun (literal, i) => i != place && literal.vars.contains v

/-- The first variable of a negated literal that no positive literal binds although it occurs in
another literal. -/
def sharedUnbound? (body : List Literal) : Option Nat :=
  (body.zipIdx.flatMap fun (literal, i) =>
    if literal.isPositive then []
    else literal.vars.filter fun v =>
      !(boundVariables body).contains v && occursElsewhere body i v).head?

/-- The body with the negated literals behind the positive ones. -/
def negativesLast (body : List Literal) : List Literal :=
  body.filter Literal.isPositive ++ body.filter fun l => !l.isPositive

/-- The rule of level 0 with the given parts, if it is safe. -/
def new (head : List Atom) (body : List Literal) (names : List String) : Except Error Rule :=
  let body := negativesLast body
  let name := variableName names
  if head.isEmpty then .error (Error.unsafeRule "a rule needs at least one head atom")
  else
    match unboundHead? head body with
    | some v =>
      .error (Error.unsafeRule
        ("head variable ?" ++ name v ++ " does not occur in a positive body atom"))
    | none =>
      match sharedUnbound? body with
      | some v =>
        .error (Error.unsafeRule
          ("variable ?" ++ name v ++ " is shared by negated literals but never bound"))
      | none => .ok ⟨head, body, 0, names⟩

/-- The rule at another level. -/
def atLevel (r : Rule) (level : Nat) : Rule := { r with level }

/-- Whether a rule has a negated literal. -/
def hasNegation (r : Rule) : Bool := r.body.any fun l => !l.isPositive

/-- Whether a rule has no positive literal, so that no fact can set it off. -/
def isPivotless (r : Rule) : Bool := !r.body.any Literal.isPositive

/-- Every atom of a rule: those of the head, then those of the body. -/
def atoms (r : Rule) : List Atom := r.head ++ r.body.flatMap Literal.atoms

/-- Whether some constant of a rule is in the class of a resource. -/
def mentions (r : Rule) (classes : Option Classes) (id : Nat) : Bool :=
  let target := Classes.normalizeIn classes id
  r.atoms.any fun a => a.constants.any fun c => Classes.normalizeIn classes c == target

end Rule

end Entail
