import Std.Data.HashMap
import Entail.Bits
import Entail.Triple

/-!
# The triple table

A `Table` keeps every fact that the store has ever seen in a row of its own. Rows are numbered from
1 in the order of their creation and are never removed; only their status bits change. A hash table
finds the row of a fact, and three more list the rows that have a resource at a position.
`Table.places_iff` and `Table.columns_eq` say that these agree with the list of facts, so every
lookup answers what a scan of the rows would (`index?_eq_some_iff`, `rowsAt_eq`).
-/

namespace Entail

/-- The number of a row. No row has number 0. -/
abbrev RowIndex := Nat

/-- The numbers of the facts that have `id` at a position, when the first fact has number
`start`. -/
def numbersAt (p : Position) (id : Nat) (start : Nat) : List Triple → List RowIndex
  | [] => []
  | t :: ts =>
    if t.get p = id then start :: numbersAt p id (start + 1) ts
    else numbersAt p id (start + 1) ts

theorem numbersAt_append (p : Position) (id start : Nat) (ts us : List Triple) :
    numbersAt p id start (ts ++ us) =
      numbersAt p id start ts ++ numbersAt p id (start + ts.length) us := by
  induction ts generalizing start with
  | nil => simp [numbersAt]
  | cons t ts ih =>
    by_cases h : t.get p = id <;> simp [numbersAt, h, ih, Nat.add_assoc, Nat.add_comm 1]

/-- Rows of facts with their status bits, and the means to find them. -/
structure Table where
  facts : Array Triple
  statuses : Array Status
  /-- The place of each fact, counted from 0. -/
  places : Std.HashMap Triple Nat
  /-- For each position, the numbers of the rows with a resource there. -/
  columns : Three (Std.HashMap Nat (Array RowIndex))
  size_eq : statuses.size = facts.size
  places_iff : ∀ (t : Triple) (i : Nat), places[t]? = some i ↔ facts[i]? = some t
  columns_eq : ∀ (p : Position) (id : Nat),
    (((columns.get p)[id]?).getD #[]).toList = numbersAt p id 1 facts.toList

/-- A pattern for facts: a resource or anything at each position. -/
abbrev Pattern := Three (Option Nat)

/-- Whether a fact has the required resources. -/
def Pattern.accepts (pattern : Pattern) (t : Triple) : Bool :=
  Position.all.all fun p =>
    match pattern.get p with
    | none => true
    | some id => id == t.get p

namespace Table

/-- The table without rows. -/
def empty : Table where
  facts := #[]
  statuses := #[]
  places := ∅
  columns := ⟨∅, ∅, ∅⟩
  size_eq := rfl
  places_iff := by simp
  columns_eq := by intro p id; cases p <;> simp [Three.get, numbersAt]

instance : Inhabited Table := ⟨empty⟩

/-- The number of rows. -/
def size (t : Table) : Nat := t.facts.size

/-- The number of the row that holds a fact. -/
def index? (t : Table) (fact : Triple) : Option RowIndex :=
  t.places[fact]?.map (· + 1)

/-- The fact in a row. -/
def fact? (t : Table) (row : RowIndex) : Option Triple :=
  if row = 0 then none else t.facts[row - 1]?

/-- The status of a row, and 0 if there is no such row. -/
def status (t : Table) (row : RowIndex) : Status :=
  if row = 0 then 0 else t.statuses[row - 1]?.getD 0

/-- The status and the fact of a row. -/
def row? (t : Table) (row : RowIndex) : Option (Status × Triple) :=
  (t.fact? row).map fun fact => (t.status row, fact)

/-- Clears the bits of `cleared` and then sets those of `set` in a row; whether its status
changed. -/
def updateStatus (t : Table) (row : RowIndex) (cleared set : Status) : Bool × Table :=
  if row = 0 ∨ t.facts.size < row then (false, t)
  else
    let old := t.status row
    let new := old.update cleared set
    if new = old then (false, t)
    else
      (true, { t with
        statuses := t.statuses.setIfInBounds (row - 1) new
        size_eq := by simp [t.size_eq] })

/-- One more row number under a resource. -/
def addToColumn (row : RowIndex) (id : Nat) (column : Std.HashMap Nat (Array RowIndex)) :
    Std.HashMap Nat (Array RowIndex) :=
  column.alter id fun rows => some ((rows.getD #[]).push row)

theorem getElem?_addToColumn (row : RowIndex) (id other : Nat)
    (column : Std.HashMap Nat (Array RowIndex)) :
    (((addToColumn row id column)[other]?).getD #[]).toList =
      ((column[other]?).getD #[]).toList ++ if id = other then [row] else [] := by
  simp only [addToColumn, Std.HashMap.getElem?_alter, beq_iff_eq]
  split <;> simp_all

/-- The columns with one more fact in the given row. -/
def addToColumns (row : RowIndex) (fact : Triple)
    (columns : Three (Std.HashMap Nat (Array RowIndex))) :
    Three (Std.HashMap Nat (Array RowIndex)) :=
  ⟨addToColumn row fact.subject columns.subject,
    addToColumn row fact.predicate columns.predicate,
    addToColumn row fact.object columns.object⟩

theorem get_addToColumns (row : RowIndex) (fact : Triple)
    (columns : Three (Std.HashMap Nat (Array RowIndex))) (p : Position) :
    (addToColumns row fact columns).get p = addToColumn row (fact.get p) (columns.get p) := by
  cases p <;> rfl

/-- Makes sure that a fact has a row with the bits of `set`. The answer says whether the row is new
or a bit of it changed, and gives its number. -/
def add (t : Table) (fact : Triple) (set : Status) : (Bool × RowIndex) × Table :=
  match h : t.places[fact]? with
  | some i =>
    let (changed, t) := t.updateStatus (i + 1) 0 set
    ((changed, i + 1), t)
  | none =>
    let row := t.facts.size + 1
    ((true, row),
      { facts := t.facts.push fact
        statuses := t.statuses.push (Status.complete ||| set)
        places := t.places.insert fact t.facts.size
        columns := addToColumns row fact t.columns
        size_eq := by simp [t.size_eq]
        places_iff := by
          intro q j
          rw [Std.HashMap.getElem?_insert, Array.getElem?_push]
          by_cases hq : fact = q
          · subst hq
            by_cases hj : j = t.facts.size
            · simp [hj]
            · have := t.places_iff fact j
              simp [h] at this
              simp [hj, this, Ne.symm hj]
          · by_cases hj : j = t.facts.size
            · have := t.places_iff q j
              simp [hj] at this
              simp [hj, hq, this]
            · simp [hq, hj, t.places_iff]
        columns_eq := by
          intro p id
          rw [get_addToColumns, getElem?_addToColumn, t.columns_eq, Array.toList_push,
            numbersAt_append]
          simp [numbersAt, row, Nat.add_comm 1] })

/-- The numbers of the rows with a resource at a position, in ascending order. -/
def rowsAt (t : Table) (id : Nat) (p : Position) : List RowIndex :=
  (((t.columns.get p)[id]?).getD #[]).toList

/-- The numbers of the rows with a resource at any position, in ascending order and once each. -/
def rowsMentioning (t : Table) (id : Nat) : List RowIndex :=
  ((Position.all.flatMap (t.rowsAt id)).mergeSort (· ≤ ·)).eraseReps

/-- Every row with its fact, in ascending order. -/
def toList (t : Table) : List (RowIndex × Triple) :=
  t.facts.toList.zipIdx.map fun (fact, i) => (i + 1, fact)

/-- For each bound position of a pattern, the rows that have the required resource there. -/
def boundRows (t : Table) (pattern : Pattern) : List (Array RowIndex) :=
  Position.all.filterMap fun p =>
    (pattern.get p).map fun id => ((t.columns.get p)[id]?).getD #[]

/-- The shorter of two arrays, and the first of two that are equally long. -/
def shorter (a b : Array RowIndex) : Array RowIndex :=
  if b.size < a.size then b else a

/-- The rows whose facts a pattern accepts, in ascending order. Of the bound positions the one with
the fewest rows is searched. -/
def matching (t : Table) (pattern : Pattern) : List (RowIndex × Triple) :=
  match t.boundRows pattern with
  | [] => t.toList
  | rows :: more =>
    (more.foldl shorter rows).toList.filterMap fun row =>
      match t.fact? row with
      | some fact => if pattern.accepts fact then some (row, fact) else none
      | none => none

/-- The rows with a status that satisfies `p`, in ascending order. -/
def select (t : Table) (p : Status → Bool) : List (RowIndex × Triple) :=
  t.toList.filter fun (row, _) => p (t.status row)

/-- The facts of the materialization, in the order of their rows. -/
def materialized (t : Table) : List Triple :=
  (t.select fun s => s.only (Status.derived ||| Status.merged) Status.derived).map (·.2)

theorem index?_eq_some_iff {t : Table} {fact : Triple} {row : RowIndex} :
    t.index? fact = some row ↔ t.fact? row = some fact := by
  cases row with
  | zero => simp [index?, fact?]
  | succ i => simp [index?, fact?, ← t.places_iff]

theorem rowsAt_eq (t : Table) (id : Nat) (p : Position) :
    t.rowsAt id p = numbersAt p id 1 t.facts.toList :=
  t.columns_eq p id

end Table

end Entail
