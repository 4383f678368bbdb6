import Mathlib.Data.List.Destutter
import Mathlib.Data.List.Sort
import Entail.Proofs.Table

/-!
# The history of a table

A table is what a list of changes has made of the empty one (`Table.ofChanges`). Each change of a fact is
told by the number of its row, which the fact keeps (`Records`), and the status of a row is what the
changes to it have made of it one after the other (`Change.revise`). Whatever a look-up searches, it
answers what a scan of all rows would: every row that fits, in ascending order and once (`Scans`).
-/

namespace Entail.Table

variable {t t' : Table} {fact : Triple} {row : RowIndex} {p : Position} {id : Nat}

/-! ## Scans -/

/-- The rows are listed in ascending order. -/
theorem pairwise_toList (t : Table) : t.toList.Pairwise fun a b => a.1 < b.1 := by
  rw [toList, List.pairwise_map]
  have h : (t.facts.toList.zipIdx.map Prod.snd).Pairwise (· < ·) := by
    rw [List.zipIdx_map_snd]
    exact List.pairwise_lt_range'
  exact (List.pairwise_map.mp h).imp Nat.succ_lt_succ

theorem numbersAt_eq (p : Position) (id start : Nat) (ts : List Triple) :
    numbersAt p id start ts = ((ts.zipIdx start).filter fun (u, _) => u.get p = id).map Prod.snd := by
  induction ts generalizing start with
  | nil => rfl
  | cons u ts ih => by_cases h : u.get p = id <;> simp [numbersAt, h, ih]

/-- The rows with a resource at a position are found by a scan. -/
theorem rowsAt_eq_scan (t : Table) (id : Nat) (p : Position) :
    t.rowsAt id p = (t.toList.filter fun (_, fact) => fact.get p = id).map Prod.fst := by
  rw [rowsAt_eq, numbersAt_eq, toList, List.zipIdx_succ, List.filter_map, List.filter_map, List.map_map,
    List.map_map]
  rfl

theorem pairwise_rowsAt (t : Table) (id : Nat) (p : Position) : (t.rowsAt id p).Pairwise (· < ·) := by
  rw [rowsAt_eq_scan, List.pairwise_map]
  exact t.pairwise_toList.filter _

theorem mem_rowsAt : row ∈ t.rowsAt id p ↔ ∃ fact, t.fact? row = some fact ∧ fact.get p = id := by
  simp only [rowsAt_eq_scan, List.mem_map, List.mem_filter, Prod.exists, exists_and_right, exists_eq_right,
    mem_toList, decide_eq_true_eq]

theorem eraseRepsBy_loop_eq (a : RowIndex) (l acc : List RowIndex) :
    List.eraseRepsBy.loop (· == ·) a l acc = acc.reverse ++ l.destutter' (· ≠ ·) a := by
  induction l generalizing a acc with
  | nil => simp [List.eraseRepsBy.loop]
  | cons b l ih =>
    rw [List.eraseRepsBy.loop]
    by_cases h : a = b
    · rw [beq_iff_eq.mpr h, List.destutter'_cons_neg _ (not_not.mpr h)]
      exact ih a acc
    · rw [beq_eq_false_iff_ne.mpr h, List.destutter'_cons_pos _ h]
      simpa using ih b (a :: acc)

/-- In a sorted list what is equal is in one place. -/
theorem eraseReps_eq_dedup {l : List RowIndex} (h : l.Pairwise (· ≤ ·)) : l.eraseReps = l.dedup := by
  rw [← h.destutter_eq_dedup]
  cases l with
  | nil => rfl
  | cons a l => exact eraseRepsBy_loop_eq a l []

theorem rowsMentioning_eq_dedup (t : Table) (id : Nat) :
    t.rowsMentioning id = ((Position.all.flatMap (t.rowsAt id)).mergeSort (· ≤ ·)).dedup :=
  eraseReps_eq_dedup (List.pairwise_mergeSort' _ _)

theorem pairwise_rowsMentioning (t : Table) (id : Nat) : (t.rowsMentioning id).Pairwise (· < ·) := by
  rw [rowsMentioning_eq_dedup]
  have hsorted := (List.pairwise_mergeSort' (· ≤ ·) (Position.all.flatMap (t.rowsAt id))).sublist
    (List.dedup_sublist _)
  exact (hsorted.and (List.nodup_dedup _)).imp fun h => Nat.lt_of_le_of_ne h.1 h.2

theorem mem_rowsMentioning :
    row ∈ t.rowsMentioning id ↔ ∃ fact, t.fact? row = some fact ∧ ∃ p, fact.get p = id := by
  rw [rowsMentioning_eq_dedup, List.mem_dedup, List.mem_mergeSort, List.mem_flatMap]
  simp only [mem_rowsAt]
  constructor
  · rintro ⟨p, -, fact, hf, hp⟩
    exact ⟨fact, hf, p, hp⟩
  · rintro ⟨fact, hf, p, hp⟩
    exact ⟨p, by cases p <;> simp [Position.all], fact, hf, hp⟩

theorem mem_matching {pattern : Pattern} : (row, fact) ∈ t.matching pattern ↔
    t.fact? row = some fact ∧ ∀ p id, pattern.get p = some id → fact.get p = id := by
  rw [matching_eq, List.mem_filter, mem_toList, Pattern.accepts_eq_true_iff]
  simp only [eq_comm]

/-- Whichever bound position is searched, the same is found. -/
theorem matching_eq_of_bound {pattern : Pattern} (h : pattern.get p = some id) :
    t.matching pattern = (t.rowsAt id p).filterMap (t.acceptedAt pattern) := by
  rw [matching_eq, rowsAt_eq]
  exact (filterMap_numbersAt h [] t.facts.toList rfl).symm

/-- A look-up answers what a scan of all rows would: each row that fits once, in ascending order. It does
not matter which of the bound positions of a pattern is searched. -/
structure Scans (t : Table) : Prop where
  index?_eq_some_iff (fact : Triple) (row : RowIndex) : t.index? fact = some row ↔ t.fact? row = some fact
  mem_matching (pattern : Pattern) (row : RowIndex) (fact : Triple) :
    (row, fact) ∈ t.matching pattern ↔
      t.fact? row = some fact ∧ ∀ p id, pattern.get p = some id → fact.get p = id
  pairwise_matching (pattern : Pattern) : (t.matching pattern).Pairwise fun a b => a.1 < b.1
  matching_eq_of_bound (pattern : Pattern) (p : Position) (id : Nat) (h : pattern.get p = some id) :
    t.matching pattern = (t.rowsAt id p).filterMap (t.acceptedAt pattern)
  mem_rowsAt (id : Nat) (p : Position) (row : RowIndex) :
    row ∈ t.rowsAt id p ↔ ∃ fact, t.fact? row = some fact ∧ fact.get p = id
  pairwise_rowsAt (id : Nat) (p : Position) : (t.rowsAt id p).Pairwise (· < ·)
  mem_rowsMentioning (id : Nat) (row : RowIndex) :
    row ∈ t.rowsMentioning id ↔ ∃ fact, t.fact? row = some fact ∧ ∃ p, fact.get p = id
  pairwise_rowsMentioning (id : Nat) : (t.rowsMentioning id).Pairwise (· < ·)

theorem scans (t : Table) : t.Scans where
  index?_eq_some_iff _ _ := index?_eq_some_iff
  mem_matching _ _ _ := mem_matching
  pairwise_matching pattern := by
    rw [matching_eq]
    exact t.pairwise_toList.filter _
  matching_eq_of_bound _ _ _ := matching_eq_of_bound
  mem_rowsAt _ _ _ := mem_rowsAt
  pairwise_rowsAt := t.pairwise_rowsAt
  mem_rowsMentioning _ _ := mem_rowsMentioning
  pairwise_rowsMentioning := t.pairwise_rowsMentioning

/-! ## Changes -/

/-- A change of a table. -/
inductive Change where
  /-- A fact gets a row, if it has none yet, and the bits of `set`. -/
  | add (fact : Triple) (set : Status)
  /-- In a row, if there is one, the bits of `cleared` are cleared and those of `set` are set. -/
  | update (row : RowIndex) (cleared set : Status)
  deriving DecidableEq, Repr

/-- What a change does to the status of the fact that a row is for. There is no status before the fact was
added. -/
def Change.revise (fact : Triple) (row : RowIndex) (status : Option Status) : Change → Option Status
  | .add other set =>
    if other = fact then some ((status.getD Status.complete).update 0 set) else status
  | .update other cleared set =>
    if other = row then status.map (·.update cleared set) else status

/-- The table after a change. -/
def change (t : Table) : Change → Table
  | .add fact set => (t.add fact set).2
  | .update row cleared set => (t.updateStatus row cleared set).2

/-- The table that some changes make, one after the other. -/
def ofChanges (changes : List Change) : Table := changes.foldl change empty

/-- The status that some changes have given to the fact of a row. -/
def statusOf (changes : List Change) (fact : Triple) (row : RowIndex) : Option Status :=
  changes.foldl (Change.revise fact row) none

/-- Rows stay where they are. -/
theorem facts_change (t : Table) (c : Change) : t.facts.toList <+: (t.change c).facts.toList := by
  cases c with
  | update other cleared set => rw [change, facts_updateStatus]
  | add other set =>
    rw [change]
    cases hi : t.index? other with
    | some i => rw [add_of_index? hi, facts_updateStatus]
    | none =>
      obtain ⟨t', hadd, hg⟩ := add_of_index?_none set hi
      rw [hadd]
      exact hg.rows.facts

/-- A fact keeps its row. -/
theorem fact?_change (h : t.fact? row = some fact) (c : Change) : (t.change c).fact? row = some fact := by
  obtain ⟨rest, hr⟩ := t.facts_change c
  have hpos := (fact?_bounds h).1
  rw [fact?_of_pos hpos, ← Array.getElem?_toList] at h ⊢
  rw [← hr, List.getElem?_append_left (List.getElem?_eq_some_iff.mp h).1]
  exact h

/-- The answer to an addition is the row of the fact. -/
theorem fact?_add (t : Table) (fact : Triple) (set : Status) :
    (t.add fact set).2.fact? (t.add fact set).1.2 = some fact := by
  cases hi : t.index? fact with
  | some row =>
    rw [add_of_index? hi]
    exact fact?_updateStatus.trans (index?_eq_some_iff.mp hi)
  | none =>
    obtain ⟨t', hadd, hg⟩ := add_of_index?_none set hi
    rw [hadd]
    exact hg.fact?

/-- Only an addition makes a row, and that for its own fact. -/
theorem fact?_of_change {c : Change} (h : (t.change c).fact? row = some fact) :
    t.fact? row = some fact ∨ ∃ set, c = .add fact set := by
  cases c with
  | update other cleared set => exact .inl (fact?_updateStatus.symm.trans h)
  | add other set =>
    rw [change] at h
    cases hi : t.index? other with
    | some i =>
      rw [add_of_index? hi] at h
      exact .inl (fact?_updateStatus.symm.trans h)
    | none =>
      obtain ⟨t', hadd, hg⟩ := add_of_index?_none set hi
      rw [hadd] at h
      by_cases hle : row ≤ t.size
      · obtain ⟨old, hold⟩ := exists_fact? (fact?_bounds h).1 hle
        exact .inl (hold.trans ((hg.rows.fact? hold).symm.trans h))
      · have hrow : row = t.size + 1 := Nat.le_antisymm (hg.size ▸ (fact?_bounds h).2) (Nat.lt_of_not_le hle)
        obtain rfl : other = fact := Option.some.inj (hg.fact?.symm.trans (hrow ▸ h))
        exact .inr ⟨set, rfl⟩

/-- In a row other than the one that is changed the status stays as it is. -/
theorem status_updateStatus_of_ne {other : RowIndex} (h : row ≠ other) (cleared set : Status) :
    (t.updateStatus other cleared set).2.status row = t.status row := by
  cases hf : t.fact? other with
  | none => rw [updateStatus_of_unchanged (changed_updateStatus_of_none hf)]
  | some fact => rw [(updateStatus_sets hf cleared set).status_eq, if_neg h]

/-- The status of a fact that has the given row. -/
def statusFor (t : Table) (fact : Triple) (row : RowIndex) : Option Status :=
  if t.fact? row = some fact then some (t.status row) else none

/-- A change revises the status of each fact. -/
theorem revise_statusFor (c : Change) (h : (t.change c).fact? row = some fact) :
    c.revise fact row (t.statusFor fact row) = some ((t.change c).status row) := by
  cases c with
  | update other cleared set =>
    have hf : t.fact? row = some fact := fact?_updateStatus.symm.trans h
    rw [statusFor, if_pos hf, Change.revise, change]
    split
    · rename_i he
      rw [he, (updateStatus_sets hf cleared set).status_self]
      rfl
    · rename_i hne
      rw [status_updateStatus_of_ne (Ne.symm hne)]
  | add other set =>
    rw [change] at h ⊢
    cases hi : t.index? other with
    | some i =>
      have hother := index?_eq_some_iff.mp hi
      rw [add_of_index? hi] at h ⊢
      have hf : t.fact? row = some fact := fact?_updateStatus.symm.trans h
      rw [statusFor, if_pos hf, Change.revise]
      split
      · rename_i he
        obtain rfl : row = i := row_unique hf (he ▸ hother)
        rw [(updateStatus_sets hother 0 set).status_self]
        rfl
      · rename_i hne
        rw [status_updateStatus_of_ne]
        rintro rfl
        exact hne (Option.some.inj (hother.symm.trans hf))
    | none =>
      obtain ⟨t', hadd, hg⟩ := add_of_index?_none set hi
      rw [hadd] at h ⊢
      by_cases hle : row ≤ t.size
      · -- the row was there before, and is not for the new fact
        obtain ⟨old, hold⟩ := exists_fact? (fact?_bounds h).1 hle
        obtain rfl : old = fact := Option.some.inj ((hg.rows.fact? hold).symm.trans h)
        have hne : other ≠ old := by
          rintro rfl
          rw [index?_eq_some_iff.mpr hold] at hi
          cases hi
        rw [statusFor, if_pos hold, Change.revise, if_neg hne, hg.rows.status row hle]
      · have hrow : row = t.size + 1 := Nat.le_antisymm (hg.size ▸ (fact?_bounds h).2) (Nat.lt_of_not_le hle)
        subst hrow
        obtain rfl : other = fact := Option.some.inj (hg.fact?.symm.trans h)
        rw [statusFor, fact?_eq_none (Nat.lt_succ_self _), if_neg (by simp), Change.revise, if_pos rfl, hg.status]
        rfl

theorem ofChanges_concat (changes : List Change) (c : Change) :
    ofChanges (changes ++ [c]) = (ofChanges changes).change c :=
  List.foldl_concat ..

theorem statusOf_concat (changes : List Change) (c : Change) (fact : Triple) (row : RowIndex) :
    statusOf (changes ++ [c]) fact row = c.revise fact row (statusOf changes fact row) :=
  List.foldl_concat ..

/-- What a table holds is told by the changes that made it: the facts that were added have a row each, the
rows are numbered from 1 on, and each has the status that the changes gave to its fact. -/
structure Records (changes : List Change) (t : Table) : Prop where
  exists_row_iff (fact : Triple) : (∃ row, t.fact? row = some fact) ↔ ∃ set, .add fact set ∈ changes
  row_unique (fact : Triple) (row row' : RowIndex) (h : t.fact? row = some fact)
    (h' : t.fact? row' = some fact) : row = row'
  exists_fact_iff (row : RowIndex) : (∃ fact, t.fact? row = some fact) ↔ 0 < row ∧ row ≤ t.size
  status_eq (fact : Triple) (row : RowIndex) (h : t.fact? row = some fact) :
    statusOf changes fact row = some (t.status row)

/-- The facts with rows are those that were added. -/
theorem exists_row_ofChanges_iff (changes : List Change) (fact : Triple) :
    (∃ row, (ofChanges changes).fact? row = some fact) ↔ ∃ set, .add fact set ∈ changes := by
  induction changes using List.reverseRecOn with
  | nil =>
    refine iff_of_false (fun ⟨row, h⟩ => ?_) fun ⟨set, h⟩ => List.not_mem_nil h
    have := fact?_bounds h
    rw [show (ofChanges []).size = 0 from rfl] at this
    omega
  | append_singleton changes c ih =>
    rw [ofChanges_concat]
    constructor
    · rintro ⟨row, h⟩
      rcases fact?_of_change h with h | ⟨set, rfl⟩
      · obtain ⟨set, hmem⟩ := ih.mp ⟨row, h⟩
        exact ⟨set, List.mem_append_left _ hmem⟩
      · exact ⟨set, List.mem_append_right _ (List.mem_singleton_self _)⟩
    · rintro ⟨set, hmem⟩
      rcases List.mem_append.mp hmem with hmem | hmem
      · obtain ⟨row, h⟩ := ih.mpr ⟨set, hmem⟩
        exact ⟨row, fact?_change h c⟩
      · obtain rfl := List.mem_singleton.mp hmem
        exact ⟨_, fact?_add _ fact set⟩

/-- Changes give no status to a fact before it is added. -/
theorem statusOf_eq_none {changes : List Change} (h : ∀ set, .add fact set ∉ changes) (row : RowIndex) :
    statusOf changes fact row = none := by
  induction changes using List.reverseRecOn with
  | nil => rfl
  | append_singleton changes c ih =>
    rw [statusOf_concat, ih fun set hmem => h set (List.mem_append_left _ hmem)]
    cases c with
    | update other cleared set => simp [Change.revise]
    | add other set =>
      refine if_neg ?_
      rintro rfl
      exact h set (List.mem_append_right _ (List.mem_singleton_self _))

theorem statusOf_eq_some {changes : List Change} (h : (ofChanges changes).fact? row = some fact) :
    statusOf changes fact row = some ((ofChanges changes).status row) := by
  induction changes using List.reverseRecOn with
  | nil =>
    obtain ⟨set, hmem⟩ := (exists_row_ofChanges_iff [] fact).mp ⟨row, h⟩
    cases hmem
  | append_singleton changes c ih =>
    rw [ofChanges_concat] at h ⊢
    rw [statusOf_concat, ← revise_statusFor c h]
    congr 1
    rw [statusFor]
    split
    · exact ih ‹_›
    · -- the fact has no other row either, so it was not added yet
      rename_i hnot
      refine statusOf_eq_none (fun set hmem => ?_) row
      obtain ⟨row', hf⟩ := (exists_row_ofChanges_iff changes fact).mpr ⟨set, hmem⟩
      exact hnot (row_unique (fact?_change hf c) h ▸ hf)

/-- Whatever the changes of a table were, each fact that was added has one row, with the status that the
changes gave to it, and every look-up answers what a scan of the rows would. Further changes leave the rows
where they are, with new ones behind them; an addition answers with the row of its fact. -/
theorem ofChanges_records (changes : List Change) :
    Records changes (ofChanges changes) ∧ (ofChanges changes).Scans ∧
      (∀ more, (ofChanges changes).facts.toList <+: (ofChanges (changes ++ more)).facts.toList) ∧
      ∀ fact set, (ofChanges (changes ++ [.add fact set])).fact? ((ofChanges changes).add fact set).1.2 =
        some fact := by
  refine ⟨⟨exists_row_ofChanges_iff changes, fun _ _ _ => row_unique, fun row => ⟨fun ⟨_, h⟩ => fact?_bounds h,
    fun h => exists_fact? h.1 h.2⟩, fun _ _ => statusOf_eq_some⟩, scans _, fun more => ?_, fun fact set => ?_⟩
  · induction more using List.reverseRecOn with
    | nil => rw [List.append_nil]
    | append_singleton more c ih =>
      rw [← List.append_assoc, ofChanges_concat]
      exact ih.trans (facts_change _ c)
  · rw [ofChanges_concat]
    exact fact?_add _ fact set

/-- The row of a fact outlives its second addition, and the bits that were cleared stay so. -/
example : statusOf [.add ⟨7, 1, 7⟩ Status.derived, .update 1 Status.derived Status.merged,
    .add ⟨7, 1, 7⟩ Status.asserted] ⟨7, 1, 7⟩ 1 =
      some (Status.complete ||| Status.merged ||| Status.asserted) := by decide

end Entail.Table
