import Entail.Classes
import Entail.Dictionary

/-!
# The direction of a merge

When two resources turn out to be equal, one of them is absorbed into the other. A blank node is
absorbed into anything that has a name; of two resources of one sort the one with the larger id is
absorbed. Making a literal equal to anything but a blank node is a clash, and under the unique name
assumption so is making two IRIs equal.
-/

namespace Entail

/-- Which of two equal resources is absorbed into which, and whether their equality is a clash. -/
structure Direction where
  source : Nat
  target : Nat
  clash : Bool
  deriving DecidableEq, Repr, Inhabited

namespace Dictionary

/-- The kind of a resource for the purpose of merging: an unknown id counts as an IRI. -/
def mergeKind (d : Dictionary) (id : Nat) : Kind := (d.kind? id).getD .iri

/-- How two equal resources are merged. -/
def mergeDirection (d : Dictionary) (uniqueNames : Bool) (first second : Nat) : Direction :=
  let a := d.mergeKind first
  let b := d.mergeKind second
  if a = .blankNode ∧ b ≠ .blankNode then ⟨first, second, false⟩
  else if b = .blankNode ∧ a ≠ .blankNode then ⟨second, first, false⟩
  else
    let clash := a = .literal ∨ b = .literal ∨ uniqueNames ∧ a = .iri ∧ b = .iri
    if first < second then ⟨second, first, clash⟩ else ⟨first, second, clash⟩

end Dictionary

end Entail
