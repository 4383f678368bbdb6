import Entail.Classes.Direction

/-!
# Resources that cannot be equal

Two resources are `Apart` if their equality is a clash. Among resources that have names this is an apartness
relation: a third is apart from one of the two (`Apart.or`), so a chain of equalities between two of them has
a step that clashes itself, unless it leads over a blank node.
-/

namespace Entail.Dictionary

variable {d : Dictionary} {uniqueNames : Bool} {a b : Nat}

/-- How two resources are merged: one of them is absorbed into the other. -/
theorem mergeDirection_ends (d : Dictionary) (uniqueNames : Bool) (a b : Nat) :
    (d.mergeDirection uniqueNames a b).source = a ∧ (d.mergeDirection uniqueNames a b).target = b ∨
      (d.mergeDirection uniqueNames a b).source = b ∧ (d.mergeDirection uniqueNames a b).target = a := by
  rw [mergeDirection]
  dsimp only
  split
  · exact .inl ⟨rfl, rfl⟩
  · split
    · exact .inr ⟨rfl, rfl⟩
    · split
      · exact .inr ⟨rfl, rfl⟩
      · exact .inl ⟨rfl, rfl⟩

/-- A resource has a name of its own: it is no blank node. -/
def Named (d : Dictionary) (id : Nat) : Prop := d.mergeKind id ≠ .blankNode

/-- Two resources with names cannot be equal: they are different, and one of them is a literal or names are
unique. -/
structure Apart (d : Dictionary) (uniqueNames : Bool) (a b : Nat) : Prop where
  ne : a ≠ b
  named_left : d.Named a
  named_right : d.Named b
  kinds : uniqueNames = true ∨ d.mergeKind a = .literal ∨ d.mergeKind b = .literal

namespace Apart

variable (h : d.Apart uniqueNames a b)

include h

theorem symm : d.Apart uniqueNames b a :=
  ⟨h.ne.symm, h.named_right, h.named_left, h.kinds.imp_right Or.symm⟩

/-- Whatever has a name is apart from one of two resources that are apart. -/
theorem or {id : Nat} (hid : d.Named id) : d.Apart uniqueNames a id ∨ d.Apart uniqueNames id b := by
  by_cases ha : a = id
  · exact .inr (ha ▸ h)
  by_cases hb : id = b
  · exact .inl (hb ▸ h)
  rcases h.kinds with hunique | hliteral | hliteral
  · exact .inl ⟨ha, h.named_left, hid, .inl hunique⟩
  · exact .inl ⟨ha, h.named_left, hid, .inr (.inl hliteral)⟩
  · exact .inr ⟨hb, hid, h.named_right, .inr (.inr hliteral)⟩

end Apart

/-- An equality of two resources is a clash just if they are apart. -/
theorem clash_iff (d : Dictionary) (uniqueNames : Bool) (hne : a ≠ b) :
    (d.mergeDirection uniqueNames a b).clash = true ↔ d.Apart uniqueNames a b := by
  have hapart : d.Apart uniqueNames a b ↔ d.Named a ∧ d.Named b ∧
      (uniqueNames = true ∨ d.mergeKind a = .literal ∨ d.mergeKind b = .literal) :=
    ⟨fun h => ⟨h.named_left, h.named_right, h.kinds⟩, fun ⟨ha, hb, hkinds⟩ => ⟨hne, ha, hb, hkinds⟩⟩
  rw [hapart, Named, Named, mergeDirection]
  dsimp only
  generalize d.mergeKind a = x
  generalize d.mergeKind b = y
  rw [apply_ite Direction.clash, apply_ite Direction.clash, apply_ite Direction.clash]
  cases x <;> cases y <;> simp


end Entail.Dictionary
