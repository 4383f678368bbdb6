import Mathlib.Data.Set.Lattice
import Entail.Rule.Text

/-!
# Least models

An assignment turns the atoms of a rule into facts (`Atom.ground`). The `leastModel` of some rules
over some base facts is the least set that contains the base facts and is closed under the rules
(`Rule.Closes`, `leastModel_subset`). It is meant for rules without negation: negated literals are
not looked at.
-/

namespace Entail

/-- The resource that each variable stands for. -/
abbrev Assignment := Nat → Nat

/-- The resource that a term stands for under an assignment. -/
def Term.ground (σ : Assignment) : Term → Nat
  | .var v => σ v
  | .const c => c

/-- The fact that an atom becomes under an assignment. -/
def Atom.ground (a : Atom) (σ : Assignment) : Triple := a.map (Term.ground σ)

/-- The facts of a set that match the body of a rule have their heads in the set. -/
def Rule.Closes (r : Rule) (X : Set Triple) : Prop :=
  ∀ σ : Assignment, (∀ a, .positive a ∈ r.body → a.ground σ ∈ X) → ∀ h ∈ r.head, h.ground σ ∈ X

/-- A fact follows from base facts by rules. -/
inductive Derivable (rules : List Rule) (base : Set Triple) : Triple → Prop
  | base {t : Triple} (h : t ∈ base) : Derivable rules base t
  | rule {r : Rule} {σ : Assignment} {a : Atom} (hr : r ∈ rules)
      (hb : ∀ b, .positive b ∈ r.body → Derivable rules base (b.ground σ)) (ha : a ∈ r.head) :
      Derivable rules base (a.ground σ)

/-- The facts that follow from base facts by rules. -/
def leastModel (rules : List Rule) (base : Set Triple) : Set Triple :=
  {t | Derivable rules base t}

variable {rules : List Rule} {base base' X : Set Triple}

theorem subset_leastModel : base ⊆ leastModel rules base := fun _ h => .base h

theorem closes_leastModel {r : Rule} (h : r ∈ rules) : r.Closes (leastModel rules base) :=
  fun _ hb _ ha => .rule h hb ha

/-- The least model is in every set with the base facts that is closed under the rules. -/
theorem leastModel_subset (hbase : base ⊆ X) (hX : ∀ r ∈ rules, r.Closes X) :
    leastModel rules base ⊆ X := by
  intro t h
  induction h with
  | base h => exact hbase h
  | rule hr _ ha ih => exact hX _ hr _ ih _ ha

theorem leastModel_mono (h : base ⊆ base') : leastModel rules base ⊆ leastModel rules base' :=
  leastModel_subset (h.trans subset_leastModel) fun _ hr => closes_leastModel hr

/-- A rule read from a text, at some level. -/
def Rule.Parsed (r : Rule) : Prop :=
  ∃ text d d', Rule.parse text d = (.ok (r.atLevel 0), d')

end Entail
