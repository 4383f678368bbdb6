/-!
# Triples

A fact is a `Triple` of resource ids: a subject, a predicate and an object. The ids `rdfTypeId`,
`sameAsId` and `nothingId` belong to the vocabulary; id `0` belongs to no resource.
-/

namespace Entail

/-- The id of `rdf:type`. -/
def rdfTypeId : Nat := 1

/-- The id of `owl:sameAs`. -/
def sameAsId : Nat := 2

/-- The id of `owl:Nothing`. -/
def nothingId : Nat := 3

/-- A place in a triple. -/
inductive Position where
  | subject
  | predicate
  | object
  deriving DecidableEq, Repr, Inhabited

namespace Position

/-- The three positions, in order. -/
def all : List Position := [subject, predicate, object]

/-- The bit that stands for a position in a set of positions. -/
def bit : Position → Nat
  | subject => 1
  | predicate => 2
  | object => 4

/-- The position with the given number. -/
def ofNat? : Nat → Option Position
  | 0 => some subject
  | 1 => some predicate
  | 2 => some object
  | _ => none

end Position

/-- One value for each position of a triple. -/
structure Three (α : Type) where
  subject : α
  predicate : α
  object : α
  deriving DecidableEq, Hashable, Repr, Inhabited

namespace Three

variable {α β : Type}

/-- The value at a position. -/
def get (t : Three α) : Position → α
  | .subject => t.subject
  | .predicate => t.predicate
  | .object => t.object

/-- The values in order. -/
def toList (t : Three α) : List α := [t.subject, t.predicate, t.object]

/-- The values, each changed by `f`. -/
def map (f : α → β) (t : Three α) : Three β := ⟨f t.subject, f t.predicate, f t.object⟩

/-- The values with the one at a position changed by `f`. -/
def modify (t : Three α) (f : α → α) : Position → Three α
  | .subject => { t with subject := f t.subject }
  | .predicate => { t with predicate := f t.predicate }
  | .object => { t with object := f t.object }

theorem eq_of_get {t u : Three α} (h : ∀ p, t.get p = u.get p) : t = u := by
  have h₁ := h .subject
  have h₂ := h .predicate
  have h₃ := h .object
  cases t
  cases u
  simp only [get] at h₁ h₂ h₃
  rw [h₁, h₂, h₃]

end Three

/-- A fact: the ids of its subject, predicate and object. -/
abbrev Triple := Three Nat

namespace Triple

/-- The fact that two resources are equal. -/
def sameAs (left right : Nat) : Triple := ⟨left, sameAsId, right⟩

/-- Whether a fact has `owl:sameAs` as its predicate. -/
def isSameAs (t : Triple) : Bool := t.predicate == sameAsId

/-- The fact that a resource is equal to itself. -/
def reflexive (id : Nat) : Triple := sameAs id id

/-- A fact as its three ids. -/
def showIds (t : Triple) : String := s!"[{t.subject}, {t.predicate}, {t.object}]"

end Triple

end Entail
