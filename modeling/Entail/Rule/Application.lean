import Entail.Rule.Evaluation

/-!
# Applying rules

Rules are applied forward from a fact that matches a positive literal (`applyToPositive`) or an atom
of a negated one (`applyToNegation`), or as a whole (`evaluateRule`); the facts derived go to a
consumer. They are applied backward from a fact that matches a head (`supportingInstances`,
`hasSupportingInstance`).
-/

namespace Entail.RuleIndex

variable {σ β : Type}

/-- The literal of a rule with the given number. -/
def occurrence (r : IndexedRule) (rule literal : Nat) : Occurrence :=
  ⟨rule, literal, (r.literalLevels[literal]?).getD 0⟩

/-- Goes through the matches of `steps` for a rule. -/
def search (view : View σ) (r : IndexedRule) (rule : Nat) (steps : List Step) (b : Bindings)
    (matched : List Match) (acc : β) (f : Bindings → List Match → β → Eval σ (ForInStep β)) :
    Eval σ (ForInStep β) :=
  view.run (occurrence r rule) f steps b matched acc

/-- Passes the heads of a rule to a consumer. -/
def emitHeads (view : View σ) (r : IndexedRule) (rule : Nat)
    (consume : Nat → Triple → Eval σ Unit) (b : Bindings) : Eval σ Unit :=
  r.rule.head.forM fun a => do
    let fact ← Eval.reads fun s => b.instantiate (view.classes s) rule a
    consume rule fact

/-- Passes the heads of a rule to a consumer for every match of `steps`. -/
def derive (view : View σ) (r : IndexedRule) (rule : Nat)
    (consume : Nat → Triple → Eval σ Unit) (steps : List Step) (b : Bindings)
    (matched : List Match) : Eval σ Unit := do
  discard <| search view r rule steps b matched () fun b _ _ => do
    emitHeads view r rule consume b
    pure (.yield ())

/-- The literals around a positive pivot. -/
def stepsAround (body : List Literal) (pivot : Nat) : List Step :=
  (body.zipIdx.filter fun (_, i) => i != pivot).map fun (l, i) =>
    match l with
    | .positive a =>
      .find a i (if i < pivot then .positiveBeforePivot else .positiveAfterPivot)
    | .negative atoms => .absent atoms i .negativeAtOrAfterPivot

/-- The atoms of a negated pivot around the one that is matched, then the other literals. -/
def stepsAroundNegation (body : List Literal) (pivot : Nat) (atoms : List Atom) (place : Nat) :
    List Step :=
  let underlying := (atoms.zipIdx.filter fun (_, i) => i != place).map fun (a, i) =>
    Step.find a pivot (if i < place then .underlyingBeforePivot else .underlyingAfterPivot)
  let others := (body.zipIdx.filter fun (_, i) => i != pivot).map fun (l, i) =>
    match l with
    | .positive a => Step.find a i .positiveBeforePivot
    | .negative atoms =>
      .absent atoms i
        (if pivot < i then .negativeAtOrAfterPivot
        else if atoms.length = 1 then .negativeSingleAtomBeforePivot
        else .negativeMultipleAtomsBeforePivot)
  underlying ++ others

/-- All literals, the positive ones with one role and the negated ones with another. -/
def wholeBody (body : List Literal) (positive negative : Role) : List Step :=
  body.zipIdx.map fun (l, i) =>
    match l with
    | .positive a => .find a i positive
    | .negative atoms => .absent atoms i negative

/-- Applies one rule with a fact in place of its literal `pivot`, if that is positive. -/
def applyAtPositive (view : View σ) (row : RowIndex) (t : Triple)
    (consume : Nat → Triple → Eval σ Unit) (r : IndexedRule) (rule : Nat) (l : Literal)
    (pivot : Nat) : Eval σ Unit := do
  match l with
  | .negative _ => pure ()
  | .positive a =>
    match ← view.bind (Bindings.free r.rule.names.length) a t with
    | none => pure ()
    | some b =>
      derive view r rule consume (stepsAround r.rule.body pivot) b [⟨pivot, row, t⟩]

/-- Applies every rule of a scope with a fact in place of each of its positive literals in turn. The
fact itself is not filtered. -/
def applyToPositive (x : RuleIndex) (view : View σ) (row : RowIndex) (t : Triple) (scope : Scope)
    (consume : Nat → Triple → Eval σ Unit) : Eval σ Unit :=
  (x.inScope scope).forM fun (r, rule) =>
    r.rule.body.zipIdx.forM fun (l, pivot) => applyAtPositive view row t consume r rule l pivot

/-- Applies one rule with a fact in place of each atom of its literal `pivot` in turn, if that is
negated. -/
def applyAtNegation (view : View σ) (t : Triple) (consume : Nat → Triple → Eval σ Unit)
    (r : IndexedRule) (rule : Nat) (l : Literal) (pivot : Nat) : Eval σ Unit := do
  match l with
  | .positive _ => pure ()
  | .negative atoms =>
    atoms.zipIdx.forM fun (a, place) => do
      match ← view.bind (Bindings.free r.rule.names.length) a t with
      | none => pure ()
      | some b =>
        derive view r rule consume (stepsAroundNegation r.rule.body pivot atoms place) b []

/-- Applies every rule of a scope with a fact in place of each atom of its negated literals in turn.
The other atoms of that literal must match as well, and the literal itself is not tested. -/
def applyToNegation (x : RuleIndex) (view : View σ) (t : Triple) (scope : Scope)
    (consume : Nat → Triple → Eval σ Unit) : Eval σ Unit :=
  (x.inScope scope).forM fun (r, rule) =>
    r.rule.body.zipIdx.forM fun (l, pivot) => applyAtNegation view t consume r rule l pivot

/-- Applies one whole rule. -/
def evaluateRule (x : RuleIndex) (view : View σ) (rule : Nat)
    (consume : Nat → Triple → Eval σ Unit) : Eval σ Unit :=
  match x.rules[rule]? with
  | none => throw .misuse
  | some r =>
    derive view r rule consume
      (wholeBody r.rule.body .reevaluationPositive .reevaluationNegative)
      (Bindings.free r.rule.names.length) []

/-- The facts that one whole rule derives, in the order of the matches and of the heads. -/
def consequences (x : RuleIndex) (view : View σ) (rule : Nat) : Eval σ (List Triple) :=
  match x.rules[rule]? with
  | none => throw .misuse
  | some r => do
    let found ← search view r rule
      (wholeBody r.rule.body .reevaluationPositive .reevaluationNegative)
      (Bindings.free r.rule.names.length) [] (#[] : Array Triple) fun b _ acc => do
        let heads ← r.rule.head.mapM fun a =>
          Eval.reads fun s => b.instantiate (view.classes s) rule a
        pure (.yield (acc ++ heads.toArray))
    pure found.value.toList

/-- Goes through the ways in which a head atom derives a fact. -/
def searchSupport (x : RuleIndex) (view : View σ) (h : HeadRef) (t : Triple) (acc : β)
    (f : List Match → β → ForInStep β) : Eval σ (ForInStep β) :=
  match x.rules[h.rule]? with
  | none => throw .misuse
  | some r =>
    match r.rule.head[h.head]? with
    | none => throw .misuse
    | some a => do
      match ← view.bind (Bindings.free r.rule.names.length) a t with
      | none => pure (.yield acc)
      | some b =>
        search view r h.rule (wholeBody r.rule.body .supportingPositive .supportingNegative) b []
          acc
          fun _ matched acc => pure (f matched acc)

/-- The ways in which a head atom derives a fact, each as the facts of the positive literals. -/
def supportingInstances (x : RuleIndex) (view : View σ) (h : HeadRef) (t : Triple) :
    Eval σ (List (List Match)) := do
  let found ← x.searchSupport view h t #[] fun matched (acc : Array (List Match)) =>
    .yield (acc.push matched)
  pure found.value.toList

/-- Whether a head atom derives a fact. -/
def hasSupportingInstance (x : RuleIndex) (view : View σ) (h : HeadRef) (t : Triple) :
    Eval σ Bool := do
  let found ← x.searchSupport view h t false fun _ _ => .done true
  pure found.value

/-- Whether some head atom derives a fact. -/
def isDerivable (x : RuleIndex) (view : View σ) (t : Triple) : Eval σ Bool := do
  let heads ← Eval.reads fun s => .ok (x.headsFor (view.classes s) t)
  heads.anyM fun h => x.hasSupportingInstance view h t

/-- Whether a head belongs to a rule of a scope that is not recursive and derives a fact. -/
def derivedNonrecursively (x : RuleIndex) (view : View σ) (t : Triple) (scope : Scope)
    (h : HeadRef) : Eval σ Bool :=
  match x.rules[h.rule]? with
  | none => pure false
  | some r =>
    if scope.includes r.rule.level && !r.recursive then x.hasSupportingInstance view h t
    else pure false

/-- Whether a rule of a scope that is not recursive derives a fact. -/
def provedNonrecursively (x : RuleIndex) (view : View σ) (t : Triple) (scope : Scope) :
    Eval σ Bool := do
  if !x.hasNonrecursive scope then pure false
  else
    let heads ← Eval.reads fun s => .ok (x.headsFor (view.classes s) t)
    heads.anyM (x.derivedNonrecursively view t scope)

end Entail.RuleIndex
