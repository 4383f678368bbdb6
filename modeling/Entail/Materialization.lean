import Entail.Maintenance.Run

/-!
# Materialization from scratch

`Materialization.materialize` puts into the store what the rules derive from the asserted facts,
level by level. At each level all rules are applied in rounds until a round derives nothing new.
With equality every round also merges the resources that are equal by then and gives all facts their
normal forms (`equate`).
-/

namespace Entail.Materialization

variable (c : Context)

/-- Puts a fact in normal form into the materialization; whether it was not there. A fact that is
not in normal form is stored as stood for by another. -/
def add (t : Triple) : Routine Bool := do
  match ← Routine.reads c.steady? with
  | none =>
    let (isNew, _) ← Routine.store t Status.derived
    pure isNew
  | some classes =>
    let normal := classes.normalizeTriple t
    if normal ≠ t then
      let row ← Routine.rowOf t
      discard <| Routine.updateStatus row Status.derived Status.merged
    let row ← Routine.rowOf normal
    Routine.updateStatus row Status.merged Status.derived

/-- Adds several facts; whether some of them was not there. -/
def addAll (facts : List Triple) : Routine Bool :=
  facts.foldlM (fun changed t => do
    let isNew ← add c t
    pure (changed || isNew)) false

/-- Which rows count as present. -/
def present (_ : Run) (_ : Role) (_ : Occurrence) (_ : RowIndex) (status : Status) : Bool :=
  Standing.before status

/-- Applies every rule of a scope once; whether that derived something new. -/
def applyRules (scope : Scope) : Routine Bool :=
  (c.rules.inScope scope).foldlM (fun changed (_, rule) => do
    let facts ← c.rules.consequences (c.view present) rule
    let isNew ← addAll c facts
    pure (changed || isNew)) false

/-- The facts of the materialization. -/
def facts (r : Run) : List Triple := (r.table.select Standing.before).map (·.2)

/-- What a round of equality did. -/
structure Equated where
  /-- Whether the materialization changed. -/
  changed : Bool
  /-- Whether resources were merged. -/
  merged : Bool
  deriving DecidableEq, Repr, Inhabited

/-- Makes the resources of an equality equal. -/
def mergeBy (t : Triple) (done : Equated) : Routine Equated := do
  let d := c.dictionary.mergeDirection c.mode.equality.uniqueNames t.subject t.object
  let merged ← Routine.mergeSteady d.source d.target
  if merged then c.announce (.constantMerged d.source d.target)
  if d.clash then
    c.announce (.inconsistency d.target)
    let isNew ← add c ⟨d.target, rdfTypeId, nothingId⟩
    pure ⟨done.changed || isNew, done.merged || merged⟩
  else pure ⟨done.changed, done.merged || merged⟩

/-- Adds what a fact implies by the rules of equality: its resources are equal to themselves, and
those of an equality to each other. -/
def equateFact (done : Equated) (t : Triple) : Routine Equated := do
  let isNew ← addAll c (t.toList.map .reflexive)
  let done := { done with changed := done.changed || isNew }
  if t.isSameAs ∧ t.subject ≠ t.object then mergeBy c t done else pure done

/-- Gives a fact its normal form. -/
def renormalize (t : Triple) : Routine Unit := do
  if !(← Routine.reads fun r => r.steady.isNormalTriple t) then discard <| add c t

/-- Applies the rules of equality until no more resources are merged; whether the materialization
changed. -/
def equateAll : Nat → Bool → Routine Bool
  | 0, _ => throw .exhausted
  | fuel + 1, changed => do
    let done ← (← Routine.reads facts).foldlM (equateFact c) ⟨changed, false⟩
    if !done.merged then pure done.changed
    else
      (← Routine.reads facts).forM (renormalize c)
      equateAll fuel true

/-- Applies the rules of equality, if it is in use; whether the materialization changed. -/
def equate : Routine Bool := do
  if c.mode.equality.enabled then
    let bound ← Routine.reads c.maxId
    equateAll c (bound + 2) false
  else pure false

/-- Applies the rules of a scope until nothing changes. The answer is the number of rounds, those
already done included. -/
def saturate (scope : Scope) : Nat → Nat → Routine Nat
  | 0, _ => throw .exhausted
  | fuel + 1, rounds => do
    let derived ← applyRules c scope
    let equated ← equate c
    if derived || equated then saturate scope fuel (rounds + 1) else pure (rounds + 1)

/-- The levels to work off, from the lowest to the highest, if there is room for them; a single pass
if levels are not in use. -/
def levels (rules : RuleIndex) (mode : Mode) : Except Failure (List (Option Nat)) :=
  if !mode.usesLevels then .ok [none]
  else if rules.maxLevel < Update.levelLimit then .ok ((List.range (rules.maxLevel + 1)).map some)
  else .error .misuse

/-- Works off one level. -/
def materializeLevel (level : Option Nat) : Routine Unit := do
  let bound ← Routine.reads fun r => 3 * c.factBound r + c.maxId r + 2
  let rounds ← saturate c (.ofLevel level) bound 0
  Routine.note (.levelSaturated level rounds)

/-- Puts everything that follows from the asserted facts into the materialization. The answer is its
size. -/
def materialize : Routine Nat := do
  let asserted ← Routine.reads fun r => r.table.select fun s => s.any Status.asserted
  discard <| addAll c (asserted.map (·.2))
  (← Routine.lift (levels c.rules c.mode)).forM (materializeLevel c)
  let size ← Routine.reads fun r => r.table.materialized.length
  Routine.note (.materialized size)
  pure size

end Entail.Materialization
