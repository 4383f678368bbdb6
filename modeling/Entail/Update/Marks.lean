import Std.Data.HashMap
import Entail.Bits
import Entail.Error

/-!
# Marks on facts

`Marks` holds a byte of flags for each row of the store. A row without an entry has no flag set.
Space is taken in segments, and the segments taken are kept when the marks are cleared. `segmentLimit`
stands for the end of memory. `flags_add` says what setting a flag does to the flags of every row.
-/

namespace Entail

/-- The number of rows in a segment. -/
def segmentSize : Nat := 4096

/-- The number of segments that cannot be allocated any more. The program has no such number: it takes
segments until memory is used up, and here it is taken to be used up by so many. -/
def segmentLimit : Nat := Nat.pow 2 32

/-- A byte of flags for each row. -/
structure Marks where
  /-- The number of segments taken. -/
  segments : Nat
  /-- The flags that are not all off. -/
  entries : Std.HashMap Nat Flags

namespace Marks

/-- No flags. -/
def empty : Marks := ⟨0, ∅⟩

instance : Inhabited Marks := ⟨empty⟩

/-- The flags of a row. -/
def flags (m : Marks) (row : Nat) : Flags := m.entries[row]?.getD 0

/-- The number of rows that the segments taken have room for. -/
def capacity (m : Marks) : Nat := m.segments * segmentSize

/-- Sets flags of a row; whether that changed any. -/
def add (m : Marks) (row : Nat) (set : Flags) : Except Error (Bool × Marks) :=
  let needed := row / segmentSize + 1
  if needed ≤ m.segments ∨ needed < segmentLimit then
    let old := m.flags row
    let new := old ||| set
    .ok (new != old, ⟨max m.segments needed, m.entries.insert row new⟩)
  else .error (Error.resourceExhausted "tuple flag store" (needed * segmentSize % Nat.pow 2 64))

/-- All flags off again. -/
def clear (m : Marks) : Marks := ⟨m.segments, ∅⟩

theorem flags_clear (m : Marks) (row : Nat) : m.clear.flags row = 0 := by
  simp [clear, flags]

theorem flags_add {m m' : Marks} {row : Nat} {set : Flags} {changed : Bool}
    (h : m.add row set = .ok (changed, m')) (other : Nat) :
    m'.flags other = if row = other then m.flags row ||| set else m.flags other := by
  simp only [add] at h
  split at h
  · obtain ⟨rfl, rfl⟩ := Prod.mk.inj (Except.ok.inj h)
    simp only [flags, Std.HashMap.getElem?_insert, beq_iff_eq]
    split <;> simp_all
  · cases h

end Marks

end Entail
