import Entail.Rule.Index
import Entail.Table

/-!
# Evaluation of rule bodies

A body is evaluated literal by literal over the rows of a table. Every row that agrees with what is
bound so far passes through a filter, which is told the `Role` that its literal plays; so one
evaluation serves a body of which some literals are read as before an update and others as after it.
What is done with a match may change the table, the filter and the classes, and the literals still
to come read what it left: a `View` says how to read them off the current state.
-/

namespace Entail

/-- The part that a literal plays in an evaluation. The pivot is the literal that is matched
first. -/
inductive Role where
  /-- A positive literal before the pivot. -/
  | positiveBeforePivot
  /-- A positive literal after the pivot. -/
  | positiveAfterPivot
  /-- A negated atom before the pivot, which is negated too. -/
  | negativeSingleAtomBeforePivot
  /-- A negated conjunction before the pivot, which is negated too. -/
  | negativeMultipleAtomsBeforePivot
  /-- A negated literal when the pivot is positive or comes first. -/
  | negativeAtOrAfterPivot
  /-- An atom of the negated pivot before the one that is matched. -/
  | underlyingBeforePivot
  /-- An atom of the negated pivot after the one that is matched. -/
  | underlyingAfterPivot
  /-- A positive literal while a head is traced back. -/
  | supportingPositive
  /-- A negated literal while a head is traced back. -/
  | supportingNegative
  /-- A positive literal while a whole rule is evaluated. -/
  | reevaluationPositive
  /-- A negated literal while a whole rule is evaluated. -/
  | reevaluationNegative
  deriving DecidableEq, Repr, Inhabited

/-- The name of a role. -/
def Role.name : Role → String
  | .positiveBeforePivot => "PositiveBeforePivot"
  | .positiveAfterPivot => "PositiveAfterPivot"
  | .negativeSingleAtomBeforePivot => "NegativeSingleAtomBeforePivot"
  | .negativeMultipleAtomsBeforePivot => "NegativeMultipleAtomsBeforePivot"
  | .negativeAtOrAfterPivot => "NegativeAtOrAfterPivot"
  | .underlyingBeforePivot => "UnderlyingBeforePivot"
  | .underlyingAfterPivot => "UnderlyingAfterPivot"
  | .supportingPositive => "SupportingPositive"
  | .supportingNegative => "SupportingNegative"
  | .reevaluationPositive => "ReevaluationPositive"
  | .reevaluationNegative => "ReevaluationNegative"

/-- A literal of a rule. -/
structure Occurrence where
  rule : Nat
  literal : Nat
  /-- The level of the facts that the literal matches. -/
  level : Nat
  deriving DecidableEq, Repr, Inhabited

/-- A row that an evaluation looked at, and the verdict of the filter. -/
structure Sighting where
  role : Role
  occurrence : Occurrence
  row : RowIndex
  status : Status
  accepted : Bool
  deriving DecidableEq, Repr, Inhabited

/-- How an evaluation reads a state. -/
structure View (σ : Type) where
  table : σ → Table
  /-- The classes by which the constants of rules are normalized. -/
  classes : σ → Option Classes
  /-- Whether a row counts as present for a literal. -/
  accepts : σ → Role → Occurrence → RowIndex → Status → Bool
  /-- What the state keeps of each row looked at. -/
  observe : Option (Sighting → σ → σ) := none

/-- A step of an evaluation over a state. -/
abbrev Eval (σ : Type) := EStateM Failure σ

/-- The values of the variables of a rule. -/
abbrev Bindings := Array (Option Nat)

/-- A fact matched by a positive literal. -/
structure Match where
  literal : Nat
  row : RowIndex
  fact : Triple
  deriving DecidableEq, Repr, Inhabited

/-- A literal, or a part of one, that an evaluation still has to match. -/
inductive Step where
  /-- A row must match the atom. -/
  | find (atom : Atom) (literal : Nat) (role : Role)
  /-- No rows may match the atoms jointly. -/
  | absent (atoms : List Atom) (literal : Nat) (role : Role)
  deriving DecidableEq, Repr, Inhabited

namespace Bindings

/-- The bindings of a rule with the given number of variables, none of them bound. -/
def free (count : Nat) : Bindings := Array.replicate count none

/-- The bindings under which terms take the given values, or `none` if there are none. -/
def bindTerms (classes : Option Classes) : List (Term × Nat) → Bindings →
    Except Failure (Option Bindings)
  | [], b => .ok (some b)
  | (.const c, value) :: rest, b =>
    if Classes.normalizeIn classes c = value then bindTerms classes rest b else .ok none
  | (.var v, value) :: rest, b =>
    match b[v]? with
    | none => .error .misuse
    | some (some bound) => if bound = value then bindTerms classes rest b else .ok none
    | some none => bindTerms classes rest (b.setIfInBounds v (some value))

/-- The bindings under which an atom is a fact, or `none` if there are none. -/
def bind (b : Bindings) (classes : Option Classes) (a : Atom) (t : Triple) :
    Except Failure (Option Bindings) :=
  bindTerms classes (a.toList.zip t.toList) b

/-- The resource that a term stands for, if it is bound. -/
def value (b : Bindings) (classes : Option Classes) : Term → Except Failure (Option Nat)
  | .const c => .ok (some (Classes.normalizeIn classes c))
  | .var v =>
    match b[v]? with
    | none => .error .misuse
    | some bound => .ok bound

/-- The pattern of the facts that can match an atom. -/
def pattern (b : Bindings) (classes : Option Classes) (a : Atom) : Except Failure Pattern := do
  let s ← b.value classes a.subject
  let p ← b.value classes a.predicate
  let o ← b.value classes a.object
  pure ⟨s, p, o⟩

/-- The resource that a term of a head stands for. -/
def headValue (b : Bindings) (classes : Option Classes) (rule : Nat) (t : Term) :
    Except Failure Nat := do
  match t, ← b.value classes t with
  | _, some id => pure id
  | .var v, none =>
    throw (.error (Error.invariantViolation s!"head variable {v} of rule {rule} is unbound"))
  | .const _, none => throw .misuse

/-- The fact that an atom of the head of a rule becomes. -/
def instantiate (b : Bindings) (classes : Option Classes) (rule : Nat) (a : Atom) :
    Except Failure Triple := do
  let s ← b.headValue classes rule a.subject
  let p ← b.headValue classes rule a.predicate
  let o ← b.headValue classes rule a.object
  pure ⟨s, p, o⟩

end Bindings

namespace Eval

variable {σ α β : Type}

/-- A result read off the current state. -/
def reads (f : σ → Except Failure α) : Eval σ α := fun s =>
  match f s with
  | .ok a => .ok a s
  | .error e => .error e s

/-- Goes through a list until `f` is done. -/
def foldUntil (f : α → β → Eval σ (ForInStep β)) : List α → β → Eval σ (ForInStep β)
  | [], b => pure (.yield b)
  | a :: as, b => do
    match ← f a b with
    | .done b => pure (.done b)
    | .yield b => foldUntil f as b

end Eval

namespace View

variable {σ β : Type}

/-- The rows that can match an atom and that the filter accepts. All of them are looked at before
the first is used. -/
def candidates (view : View σ) (a : Atom) (role : Role) (o : Occurrence) (b : Bindings) :
    Eval σ (List (RowIndex × Triple)) := fun s =>
  match b.pattern (view.classes s) a with
  | .error e => .error e s
  | .ok pattern =>
    let seen := ((view.table s).matching pattern).map fun (row, fact) =>
      let status := (view.table s).status row
      ((row, fact), (⟨role, o, row, status, view.accepts s role o row status⟩ : Sighting))
    let accepted := (seen.filter fun (_, sighting) => sighting.accepted).map (·.1)
    match view.observe with
    | none => .ok accepted s
    | some note => .ok accepted (seen.foldl (fun s (_, sighting) => note sighting s) s)

/-- The bindings under which an atom is a fact. -/
def bind (view : View σ) (b : Bindings) (a : Atom) (t : Triple) : Eval σ (Option Bindings) :=
  Eval.reads fun s => b.bind (view.classes s) a t

/-- Whether atoms have a joint match. -/
def joint (view : View σ) (role : Role) (o : Occurrence) : List Atom → Bindings → Eval σ Bool
  | [], _ => pure true
  | a :: rest, b => do
    (← view.candidates a role o b).anyM fun (_, fact) => do
      match ← view.bind b a fact with
      | some b => view.joint role o rest b
      | none => pure false

/-- Goes through the matches of `steps` in order. `f` gets the bindings of a match and the facts of
its positive literals, and says whether to go on. -/
def run (view : View σ) (occurrence : Nat → Occurrence)
    (f : Bindings → List Match → β → Eval σ (ForInStep β)) :
    List Step → Bindings → List Match → β → Eval σ (ForInStep β)
  | [], b, matched, acc => f b matched acc
  | .find a literal role :: rest, b, matched, acc => do
    let found ← view.candidates a role (occurrence literal) b
    Eval.foldUntil (fun (row, fact) acc => do
      match ← view.bind b a fact with
      | some b => view.run occurrence f rest b (matched ++ [⟨literal, row, fact⟩]) acc
      | none => pure (.yield acc)) found acc
  | .absent atoms literal role :: rest, b, matched, acc => do
    if ← view.joint role (occurrence literal) atoms b then pure (.yield acc)
    else view.run occurrence f rest b matched acc

end View

end Entail
