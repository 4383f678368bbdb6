import Entail.Proofs.Bits
import Entail.Table

/-!
# The rows of a table

What `updateStatus` and `add` do to the fact and the status of every row, and to the facts of which
something holds (`Table.Holds`); and `matching_eq`: a look-up by a pattern answers what a scan of
all rows would, in the same order.
-/

namespace Entail

namespace Pattern

theorem accepts_eq_true_iff {pattern : Pattern} {t : Triple} :
    pattern.accepts t = true ↔ ∀ p id, pattern.get p = some id → id = t.get p := by
  simp only [accepts, List.all_eq_true]
  constructor
  · intro h p id hp
    have := h p (by cases p <;> simp [Position.all])
    simpa [hp] using this
  · intro h p _
    cases hp : pattern.get p with
    | none => rfl
    | some id => simpa using h p id hp

end Pattern

namespace Table

variable {t t' : Table} {row row' : Nat} {fact fact' : Triple}

theorem fact?_of_pos (h : 0 < row) : t.fact? row = t.facts[row - 1]? :=
  if_neg (show ¬ row = 0 by omega)

theorem fact?_succ (i : Nat) : t.fact? (i + 1) = t.facts[i]? :=
  fact?_of_pos (Nat.succ_pos i)

theorem status_of_pos (h : 0 < row) : t.status row = t.statuses[row - 1]?.getD 0 :=
  if_neg (show ¬ row = 0 by omega)

/-- Different facts are in different rows. -/
theorem row_ne {other : Nat} {fact' : Triple} (h : t.fact? row = some fact)
    (h' : t.fact? other = some fact') (hne : fact' ≠ fact) : other ≠ row := by
  rintro rfl
  exact hne (Option.some.inj (h'.symm.trans h))

theorem fact?_bounds (h : t.fact? row = some fact) : 0 < row ∧ row ≤ t.size := by
  by_cases h₀ : 0 < row
  · rw [fact?_of_pos h₀] at h
    have := (Array.getElem?_eq_some_iff.mp h).1
    rw [size]
    omega
  · rw [show row = 0 by omega] at h
    cases h

theorem exists_fact? (h₀ : 0 < row) (h : row ≤ t.size) : ∃ fact, t.fact? row = some fact := by
  rw [size] at h
  exact ⟨t.facts[row - 1], by simp [fact?, show row ≠ 0 by omega, show row - 1 < t.facts.size by omega]⟩

theorem fact?_eq_none (h : t.size < row) : t.fact? row = none := by
  cases hf : t.fact? row with
  | none => rfl
  | some fact =>
    have := (fact?_bounds hf).2
    omega

/-- A fact has one row. -/
theorem row_unique (h : t.fact? row = some fact) (h' : t.fact? row' = some fact) : row = row' := by
  rw [← index?_eq_some_iff] at h h'
  rw [h] at h'
  exact Option.some.inj h'

theorem status_eq_zero (h : t.size < row) : t.status row = 0 := by
  rw [size] at h
  rw [status_of_pos (by omega), Array.getElem?_eq_none (by rw [t.size_eq]; omega)]
  rfl

theorem status_of_none (h : t.fact? row = none) : t.status row = 0 := by
  rcases Nat.eq_zero_or_pos row with rfl | h₀
  · rfl
  · refine status_eq_zero (Nat.lt_of_not_le fun hle => ?_)
    obtain ⟨fact, hf⟩ := exists_fact? h₀ hle
    rw [h] at hf
    cases hf

/-! ## Facts of which something holds -/

/-- `p` holds of the row of a fact. -/
def Holds (t : Table) (p : RowIndex → Bool) (fact : Triple) : Prop :=
  ∃ row, t.fact? row = some fact ∧ p row = true

theorem holds_iff {p : RowIndex → Bool} (h : t.fact? row = some fact) :
    t.Holds p fact ↔ p row = true :=
  ⟨fun ⟨_, h', hp⟩ => row_unique h' h ▸ hp, fun hp => ⟨row, h, hp⟩⟩

/-- What is known of the row of a fact, and of facts with rows only. -/
theorem holds_iff_of {p : RowIndex → Bool} {P : Prop}
    (h : ∀ row, t.fact? row = some fact → (p row = true ↔ P))
    (hP : P → ∃ row, t.fact? row = some fact) : t.Holds p fact ↔ P := by
  refine ⟨fun ⟨row, hf, hp⟩ => (h row hf).mp hp, fun hh => ?_⟩
  obtain ⟨row, hf⟩ := hP hh
  exact ⟨row, hf, (h row hf).mpr hh⟩

theorem Holds.mem {p : RowIndex → Bool} (h : t.Holds p fact) : ∃ row, t.fact? row = some fact :=
  ⟨h.choose, h.choose_spec.1⟩

/-- What holds of rows by their status, if facts keep their rows and what is known of them. -/
theorem holds_status_of_keeps {t' : Table} {p : Status → Bool} (hp : p 0 = false)
    (hf : ∀ row fact, t.fact? row = some fact → t'.fact? row = some fact)
    (hs : ∀ row, p (t'.status row) = p (t.status row)) :
    t'.Holds (fun row => p (t'.status row)) fact ↔ t.Holds (fun row => p (t.status row)) fact := by
  simp only [Holds, hs]
  refine ⟨fun ⟨row, hrow, ha⟩ => ?_, fun ⟨row, hrow, ha⟩ => ⟨row, hf row fact hrow, ha⟩⟩
  cases hu : t.fact? row with
  | none =>
    rw [status_of_none hu, hp] at ha
    cases ha
  | some u =>
    obtain rfl : u = fact := Option.some.inj ((hf row u hu).symm.trans hrow)
    exact ⟨row, hu, ha⟩

/-! ## Status bits -/

section updateStatus

variable {cleared set : Status}

@[simp] theorem facts_updateStatus : (t.updateStatus row cleared set).2.facts = t.facts := by
  rw [updateStatus]
  split
  · rfl
  · dsimp only
    split <;> rfl

@[simp] theorem fact?_updateStatus :
    (t.updateStatus row cleared set).2.fact? row' = t.fact? row' := by
  simp only [fact?, facts_updateStatus]

@[simp] theorem size_updateStatus : (t.updateStatus row cleared set).2.size = t.size := by
  simp only [size, facts_updateStatus]

theorem updateStatus_of_le (h₀ : 0 < row) (h : row ≤ t.size) :
    t.updateStatus row cleared set =
      if (t.status row).update cleared set = t.status row then (false, t)
      else (true, { t with
        statuses := t.statuses.setIfInBounds (row - 1) ((t.status row).update cleared set)
        size_eq := by simp [t.size_eq] }) := by
  rw [size] at h
  exact if_neg (show ¬ (row = 0 ∨ t.facts.size < row) by omega)

/-- If the answer is that nothing changed, nothing did. -/
theorem updateStatus_of_unchanged (h : (t.updateStatus row cleared set).1 = false) :
    (t.updateStatus row cleared set).2 = t := by
  rw [updateStatus] at h ⊢
  split
  · rfl
  · rename_i hrow
    rw [if_neg hrow] at h
    dsimp only at h ⊢
    split
    · rfl
    · rename_i hne
      rw [if_neg hne] at h
      cases h

/-- Where there is no row nothing changes. -/
theorem changed_updateStatus_of_none (h : t.fact? row = none) : (t.updateStatus row cleared set).1 = false := by
  rw [updateStatus, if_pos]
  by_contra hrow
  rw [not_or, Nat.not_lt] at hrow
  obtain ⟨fact, hf⟩ := exists_fact? (Nat.pos_of_ne_zero hrow.1) hrow.2
  rw [h] at hf
  cases hf

theorem status_updateStatus (h₀ : 0 < row) (h : row ≤ t.size) :
    (t.updateStatus row cleared set).2.status row' =
      if row' = row then (t.status row).update cleared set else t.status row' := by
  rw [updateStatus_of_le h₀ h]
  split
  · rename_i he
    split
    · rename_i e
      rw [e, he]
    · rfl
  · rw [size] at h
    by_cases e : row' = row
    · subst e
      rw [if_pos rfl, status_of_pos h₀]
      simp [t.size_eq, show row' - 1 < t.facts.size by omega]
    · rw [if_neg e]
      by_cases h0 : row' = 0
      · rw [h0]
        rfl
      · have hne : row - 1 ≠ row' - 1 := by omega
        have hpos : 0 < row' := by omega
        rw [status_of_pos hpos, status_of_pos (t := t) hpos, Array.getElem?_setIfInBounds_ne hne]

theorem changed_updateStatus (h₀ : 0 < row) (h : row ≤ t.size) :
    (t.updateStatus row cleared set).1 = ((t.status row).update cleared set != t.status row) := by
  rw [updateStatus_of_le h₀ h]
  split
  · rename_i he
    simp [he]
  · rename_i he
    simpa using he

/-- A bit that is neither cleared nor set stays as it is, whatever row is given. -/
theorem any_updateStatus {b : Status} (hb : Bits.IsBit b) (hc : cleared.any b = false)
    (hs : set.any b = false) :
    ((t.updateStatus row cleared set).2.status row').any b = (t.status row').any b := by
  by_cases h : 0 < row ∧ row ≤ t.size
  · rw [status_updateStatus h.1 h.2]
    split
    · rename_i he
      rw [Bits.any_update hb, hc, hs, he, Bool.not_false, Bool.and_true, Bool.or_false]
    · rfl
  · rw [size] at h
    rw [updateStatus, if_pos (show row = 0 ∨ t.facts.size < row by omega)]

/-- `t'` is `t` but for the status of a row. -/
structure Sets (t : Table) (row : Nat) (s : Status) (t' : Table) : Prop where
  fact?_eq (row' : Nat) : t'.fact? row' = t.fact? row'
  size_eq : t'.size = t.size
  status_eq (row' : Nat) : t'.status row' = if row' = row then s else t.status row'

theorem updateStatus_sets (h : t.fact? row = some fact) (cleared set : Status) :
    t.Sets row ((t.status row).update cleared set) (t.updateStatus row cleared set).2 := by
  obtain ⟨h₀, hle⟩ := fact?_bounds h
  exact ⟨fun _ => fact?_updateStatus, size_updateStatus, fun _ => status_updateStatus h₀ hle⟩

namespace Sets

variable {s : Status}

theorem status_self (h : t.Sets row s t') : t'.status row = s :=
  (h.status_eq row).trans (if_pos rfl)

/-- What holds of rows whatever their status. -/
theorem holds_iff (h : t.Sets row s t') {p : RowIndex → Bool} : t'.Holds p fact ↔ t.Holds p fact := by
  simp only [Holds, h.fact?_eq]

/-- What holds of rows by their status. -/
theorem holds_status_iff (h : t.Sets row s t') (hf : t.fact? row = some fact) {p : Status → Bool} :
    t'.Holds (fun row => p (t'.status row)) fact' ↔
      if fact' = fact then p s = true else t.Holds (fun row => p (t.status row)) fact' := by
  split
  · rename_i he
    subst he
    rw [Table.holds_iff ((h.fact?_eq row).trans hf), h.status_self]
  · rename_i hne
    have hrow : ∀ row', t.fact? row' = some fact' → row' ≠ row := by
      rintro _ hr rfl
      rw [hf] at hr
      exact hne (Option.some.inj hr).symm
    constructor
    · rintro ⟨row', hr, hp⟩
      rw [h.fact?_eq] at hr
      exact ⟨row', hr, by simpa only [h.status_eq, if_neg (hrow row' hr)] using hp⟩
    · rintro ⟨row', hr, hp⟩
      exact ⟨row', (h.fact?_eq row').trans hr, by
        simpa only [h.status_eq, if_neg (hrow row' hr)] using hp⟩

end Sets

end updateStatus

/-! ## New rows -/

theorem add_of_index? {set : Status} (h : t.index? fact = some row) :
    t.add fact set =
      (((t.updateStatus row 0 set).1, row), (t.updateStatus row 0 set).2) := by
  rw [index?, Option.map_eq_some_iff] at h
  obtain ⟨i, hi, rfl⟩ := h
  rw [add]
  split
  · rename_i j hj
    obtain rfl : i = j := by
      rw [hi] at hj
      exact Option.some.inj hj
    rfl
  · rename_i hn
    rw [hi] at hn
    cases hn

/-- A fact that has a row already gets no other, and no bit changes if none is to be set. -/
theorem add_zero_of_index? (h : t.index? fact = some row) : t.add fact 0 = ((false, row), t) := by
  have hz : (t.status row).update 0 0 = t.status row := by
    simp [Bits.update]
  rw [add_of_index? h, updateStatus]
  split
  · rfl
  · dsimp only
    rw [if_pos hz]

/-- `t'` has the rows of `t`, and perhaps more behind them. -/
structure Extends (t t' : Table) : Prop where
  facts : t.facts.toList <+: t'.facts.toList
  status : ∀ row, row ≤ t.size → t'.status row = t.status row

theorem Extends.refl (t : Table) : t.Extends t := ⟨List.prefix_refl _, fun _ _ => rfl⟩

theorem Extends.size_le (h : t.Extends t') : t.size ≤ t'.size := by
  simpa [Table.size] using h.facts.length_le

theorem Extends.trans {t'' : Table} (h : t.Extends t') (h' : t'.Extends t'') : t.Extends t'' :=
  ⟨h.facts.trans h'.facts, fun row hr => (h'.status row (hr.trans h.size_le)).trans (h.status row hr)⟩

theorem Extends.fact? (h : t.Extends t') (hf : t.fact? row = some fact) :
    t'.fact? row = some fact := by
  have hb := fact?_bounds hf
  obtain ⟨rest, hr⟩ := h.facts
  rw [fact?_of_pos hb.1, ← Array.getElem?_toList] at hf ⊢
  rw [← hr, List.getElem?_append_left (by simpa [Table.size] using show row - 1 < t.size by omega)]
  exact hf

/-- New rows do not matter where nothing holds of them. -/
theorem Extends.holds_iff {p p' : RowIndex → Bool} (h : t.Extends t')
    (hold : ∀ row, row ≤ t.size → p' row = p row)
    (hnew : ∀ row, t.size < row → p' row = false) : t'.Holds p' fact ↔ t.Holds p fact := by
  constructor
  · rintro ⟨row, hf, hp⟩
    have hle : row ≤ t.size := by
      by_contra hlt
      rw [hnew row (Nat.lt_of_not_le hlt)] at hp
      cases hp
    obtain ⟨fact', hf'⟩ := exists_fact? (fact?_bounds hf).1 hle
    have := h.fact? hf'
    rw [hf] at this
    cases this
    exact ⟨row, hf', hold row hle ▸ hp⟩
  · rintro ⟨row, hf, hp⟩
    exact ⟨row, h.fact? hf, (hold row (fact?_bounds hf).2).trans hp⟩

/-- The row of a new fact. -/
structure Gains (t t' : Table) (fact : Triple) (set : Status) : Prop where
  rows : t.Extends t'
  size : t'.size = t.size + 1
  fact? : t'.fact? (t.size + 1) = some fact
  status : t'.status (t.size + 1) = Status.complete ||| set

theorem Gains.status_of_lt {set : Status} (h : t.Gains t' fact set) (hr : t.size < row) :
    t'.status row = Status.complete ||| set ∨ t'.status row = 0 := by
  rcases Nat.lt_or_eq_of_le hr with hlt | rfl
  · exact .inr (status_eq_zero (by rw [h.size]; exact hlt))
  · exact .inl h.status

theorem add_of_index?_none (set : Status) (h : t.index? fact = none) :
    ∃ t', t.add fact set = ((true, t.size + 1), t') ∧ t.Gains t' fact set := by
  rw [index?, Option.map_eq_none_iff] at h
  rw [add]
  split
  · rename_i i hi
    rw [h] at hi
    cases hi
  · refine ⟨_, rfl, ⟨⟨?_, fun r hr => ?_⟩, ?_, ?_, ?_⟩⟩
    · simp
    · rw [Table.size] at hr
      by_cases h0 : r = 0
      · simp [Table.status, h0]
      · simp [Table.status, h0, Array.getElem?_push, t.size_eq, show r - 1 ≠ t.facts.size by omega]
    · simp [Table.size]
    · simp [Table.fact?, Table.size]
    · simp [Table.status, Table.size, ← t.size_eq]

/-- New facts get rows in their order. -/
theorem facts_addAll (facts : List Triple) (set : Status) (h : (t.facts.toList ++ facts).Nodup) :
    (facts.foldl (fun t fact => (t.add fact set).2) t).facts.toList = t.facts.toList ++ facts := by
  induction facts generalizing t with
  | nil => rw [List.foldl_nil, List.append_nil]
  | cons fact facts ih =>
    have hnew : t.index? fact = none := by
      cases hi : t.index? fact with
      | none => rfl
      | some row =>
        have hf := index?_eq_some_iff.mp hi
        rw [fact?_of_pos (fact?_bounds hf).1, ← Array.getElem?_toList] at hf
        exact absurd List.mem_cons_self (List.disjoint_of_nodup_append h (List.mem_of_getElem? hf))
    obtain ⟨t', hadd, hg⟩ := add_of_index?_none set hnew
    have hfacts : t'.facts.toList = t.facts.toList ++ [fact] := by
      obtain ⟨rest, hrest⟩ := hg.rows.facts
      have hlen : rest.length = 1 := by
        have hsize := hg.size
        rw [Table.size, Table.size, ← Array.length_toList, ← Array.length_toList, ← hrest,
          List.length_append] at hsize
        omega
      obtain ⟨a, rfl⟩ := List.length_eq_one_iff.mp hlen
      have hf := hg.fact?
      rw [fact?_succ, ← Array.getElem?_toList, ← hrest, Table.size, ← Array.length_toList,
        List.getElem?_concat_length] at hf
      rw [← hrest, Option.some.inj hf]
    rw [List.foldl_cons, hadd, List.append_cons, ← hfacts]
    rw [List.append_cons, ← hfacts] at h
    exact ih h

/-- `t'` is `t` once a fact has a row, with the bits of `set`. -/
structure Stores (t : Table) (fact : Triple) (set : Status) (row : Nat) (t' : Table) : Prop where
  fact? : t'.fact? row = some fact
  keeps (row' : Nat) (fact' : Triple) (h : t.fact? row' = some fact') : t'.fact? row' = some fact'
  old (row' : Nat) (fact' : Triple) (h : t'.fact? row' = some fact') :
    t.fact? row' = some fact' ∨ fact' = fact
  status (row' : Nat) (b : Status) (hb : Status.complete.any b = false) :
    (t'.status row').any b = ((t.status row').any b || (row == row' && set.any b))

/-- A fact is stored; the answer says whether the bit was not set. -/
theorem add_stores {set : Status} (hset : Bits.IsBit set) (t : Table) (fact : Triple) :
    ∃ row t', t.add fact set = ((!(t.status row).any set, row), t') ∧ t.Stores fact set row t' := by
  cases h : t.index? fact with
  | some row =>
    have hf := index?_eq_some_iff.mp h
    obtain ⟨hpos, hle⟩ := fact?_bounds hf
    have hs := updateStatus_sets hf 0 set
    refine ⟨row, (t.updateStatus row 0 set).2, ?_, (hs.fact?_eq row).trans hf,
      fun row' fact' h' => (hs.fact?_eq row').trans h',
      fun row' fact' h' => .inl ((hs.fact?_eq row').symm.trans h'), fun row' b _ => ?_⟩
    · rw [add_of_index? h, changed_updateStatus hpos hle, Bits.update_zero, hset.or_bne]
    · rw [hs.status_eq, Bits.update_zero]
      by_cases he : row' = row
      · subst he
        simp [Bits.any_or]
      · simp [he, Ne.symm he]
  | none =>
    obtain ⟨t', hadd, hg⟩ := add_of_index?_none set h
    have hzero : ∀ row', t.size < row' → ∀ b, (t.status row').any b = false := fun row' hr b => by
      rw [status_eq_zero hr, Bits.zero_any]
    refine ⟨t.size + 1, t', ?_, hg.fact?, fun _ _ => hg.rows.fact?, fun row' fact' h' => ?_,
      fun row' b hb => ?_⟩
    · rw [hadd, hzero _ (Nat.lt_succ_self _)]
      rfl
    · by_cases hle : row' ≤ t.size
      · obtain ⟨fact₁, h₁⟩ := exists_fact? (fact?_bounds h').1 hle
        have := hg.rows.fact? h₁
        rw [h'] at this
        cases this
        exact .inl h₁
      · have hb := (fact?_bounds h').2
        rw [hg.size] at hb
        have hrow := Nat.le_antisymm hb (Nat.lt_of_not_le hle)
        rw [hrow, hg.fact?] at h'
        exact .inr (Option.some.inj h').symm
    · by_cases hle : row' ≤ t.size
      · rw [hg.rows.status row' hle, beq_false_of_ne (by omega), Bool.false_and, Bool.or_false]
      · rw [hzero row' (Nat.lt_of_not_le hle), Bool.false_or]
        by_cases he : t.size + 1 = row'
        · rw [← he, hg.status, Bits.any_or, hb]
          simp
        · rw [status_eq_zero (t := t') (by rw [hg.size]; omega), Bits.zero_any, beq_false_of_ne he,
            Bool.false_and]

namespace Stores

variable {set : Status}

/-- What holds of rows whatever their status. -/
theorem holds_iff (h : t.Stores fact set row t') {p : RowIndex → Bool}
    (hp : ∀ row', t.fact? row' = none → p row' = false) : t'.Holds p fact' ↔ t.Holds p fact' := by
  constructor
  · rintro ⟨row', hf, hh⟩
    cases hf' : t.fact? row' with
    | none =>
      rw [hp row' hf'] at hh
      cases hh
    | some g =>
      have := h.keeps row' g hf'
      rw [hf] at this
      cases this
      exact ⟨row', hf', hh⟩
  · rintro ⟨row', hf, hh⟩
    exact ⟨row', h.keeps row' fact' hf, hh⟩

/-- The facts with a bit. -/
theorem holds_status_iff (h : t.Stores fact set row t') {b : Status}
    (hb : Status.complete.any b = false) :
    t'.Holds (fun row => (t'.status row).any b) fact' ↔
      t.Holds (fun row => (t.status row).any b) fact' ∨ (set.any b = true ∧ fact' = fact) := by
  constructor
  · rintro ⟨row', hf, hh⟩
    dsimp only at hh
    rw [h.status row' b hb, Bool.or_eq_true, Bool.and_eq_true, beq_iff_eq] at hh
    rcases hh with hh | ⟨rfl, hh⟩
    · cases hf' : t.fact? row' with
      | none =>
        rw [status_of_none hf', Bits.zero_any] at hh
        cases hh
      | some g =>
        have := h.keeps row' g hf'
        rw [hf] at this
        cases this
        exact .inl ⟨row', hf', hh⟩
    · rw [h.fact?] at hf
      exact .inr ⟨hh, (Option.some.inj hf).symm⟩
  · rintro (⟨row', hf, hh⟩ | ⟨hh, rfl⟩)
    · exact ⟨row', h.keeps row' fact' hf, by simp only [h.status row' b hb, hh, Bool.true_or]⟩
    · exact ⟨row, h.fact?, by simp [h.status row b hb, hh]⟩

/-- Whether a bit was set already. -/
theorem any_iff (h : t.Stores fact set row t') {b : Status} :
    (t.status row).any b = true ↔ t.Holds (fun row => (t.status row).any b) fact := by
  cases hf : t.fact? row with
  | some g =>
    have := h.keeps row g hf
    rw [h.fact?] at this
    cases this
    exact (Table.holds_iff (p := fun row => (t.status row).any b) hf).symm
  | none =>
    rw [status_of_none hf, Bits.zero_any]
    refine ⟨fun hh => (Bool.false_ne_true hh).elim, fun ⟨row', hf', _⟩ => ?_⟩
    obtain rfl := row_unique (h.keeps row' fact hf') h.fact?
    rw [hf] at hf'
    cases hf'

end Stores

/-! ## Scans -/

theorem mem_toList : (row, fact) ∈ t.toList ↔ t.fact? row = some fact := by
  simp only [toList, List.mem_map, Prod.exists, List.mem_zipIdx_iff_getElem?, Prod.mk.injEq,
    Array.getElem?_toList]
  constructor
  · rintro ⟨f, i, hi, rfl, rfl⟩
    simpa [Table.fact?] using hi
  · intro h
    have hb := fact?_bounds h
    rw [fact?_of_pos hb.1] at h
    exact ⟨fact, row - 1, h, Nat.sub_add_cancel hb.1, rfl⟩

/-- The facts with a status that satisfies `p`. -/
theorem mem_map_select {p : Status → Bool} :
    fact ∈ (t.select p).map (·.2) ↔ t.Holds (fun row => p (t.status row)) fact := by
  rw [List.mem_map]
  constructor
  · rintro ⟨⟨row, _⟩, hmem, rfl⟩
    obtain ⟨hrow, hs⟩ := List.mem_filter.mp hmem
    exact ⟨row, mem_toList.mp hrow, hs⟩
  · rintro ⟨row, hf, hs⟩
    exact ⟨(row, fact), List.mem_filter.mpr ⟨mem_toList.mpr hf, hs⟩, rfl⟩

/-- The rows of `t` come first in what extends it. -/
theorem Extends.toList (h : t.Extends t') :
    ∃ rest, t'.toList = t.toList ++ rest ∧ ∀ p ∈ rest, t.size < p.1 := by
  obtain ⟨more, hm⟩ := h.facts
  refine ⟨(more.zipIdx t.size).map fun p => (p.2 + 1, p.1), ?_, ?_⟩
  · rw [Table.toList, Table.toList, ← hm, List.zipIdx_append, List.map_append]
    simp [Table.size]
  · intro p hp
    obtain ⟨⟨f, i⟩, hi, rfl⟩ := List.mem_map.mp hp
    have := (List.mem_zipIdx hi).1
    show t.size < i + 1
    omega

/-- The fact of a row, if a pattern accepts it. -/
def acceptedAt (t : Table) (pattern : Pattern) (row : RowIndex) : Option (RowIndex × Triple) :=
  match t.fact? row with
  | some fact => if pattern.accepts fact then some (row, fact) else none
  | none => none

theorem filterMap_numbersAt {pattern : Pattern} {p : Position} {id : Nat}
    (hp : pattern.get p = some id) (done rest : List Triple) (h : done ++ rest = t.facts.toList) :
    (numbersAt p id (done.length + 1) rest).filterMap (t.acceptedAt pattern) =
      ((rest.zipIdx done.length).map fun (fact, i) => (i + 1, fact)).filter
        fun (_, fact) => pattern.accepts fact := by
  induction rest generalizing done with
  | nil => rfl
  | cons u rest ih =>
    have ih := ih (done ++ [u]) (by rw [← h]; simp)
    rw [List.length_append, List.length_singleton] at ih
    have hu : t.fact? (done.length + 1) = some u := by
      rw [fact?_of_pos (Nat.succ_pos _), ← Array.getElem?_toList, ← h]
      simp
    by_cases he : u.get p = id
    · rw [numbersAt, if_pos he, List.filterMap_cons, List.zipIdx_cons, List.map_cons,
        List.filter_cons, ih, acceptedAt, hu]
      by_cases ha : pattern.accepts u <;> simp [ha]
    · have ha : pattern.accepts u = false := by
        rw [Bool.eq_false_iff]
        exact fun ha => he (Pattern.accepts_eq_true_iff.mp ha p id hp).symm
      rw [numbersAt, if_neg he, List.zipIdx_cons, List.map_cons, List.filter_cons, ih]
      simp [ha]

theorem foldl_shorter_mem (rows : Array RowIndex) (more : List (Array RowIndex)) :
    more.foldl shorter rows ∈ rows :: more := by
  induction more generalizing rows with
  | nil => simp
  | cons next more ih =>
    rw [List.foldl_cons]
    have h : shorter rows next = rows ∨ shorter rows next = next := by
      rw [shorter]
      split
      · exact .inr rfl
      · exact .inl rfl
    rcases List.mem_cons.mp (ih (shorter rows next)) with hm | hm
    · rw [hm]
      rcases h with h | h <;> rw [h] <;> simp
    · exact List.mem_cons_of_mem _ (List.mem_cons_of_mem _ hm)

theorem mem_boundRows {pattern : Pattern} {rows : Array RowIndex} (h : rows ∈ t.boundRows pattern) :
    ∃ p id, pattern.get p = some id ∧ rows.toList = t.rowsAt id p := by
  simp only [boundRows, List.mem_filterMap, Option.map_eq_some_iff] at h
  obtain ⟨p, -, id, hp, rfl⟩ := h
  exact ⟨p, id, hp, rfl⟩

/-- A look-up answers what a scan of all rows would. -/
theorem matching_eq (t : Table) (pattern : Pattern) :
    t.matching pattern = t.toList.filter fun (_, fact) => pattern.accepts fact := by
  rw [matching]
  split
  · rename_i h
    -- no position is bound, so every fact is accepted
    refine (List.filter_eq_self.mpr fun ⟨_, fact⟩ _ => ?_).symm
    refine Pattern.accepts_eq_true_iff.mpr fun p id hp => ?_
    have : (((t.columns.get p)[id]?).getD #[]) ∈ t.boundRows pattern :=
      List.mem_filterMap.mpr ⟨p, by cases p <;> simp [Position.all], by rw [hp]; rfl⟩
    rw [h] at this
    cases this
  · rename_i rows more h
    have hm : more.foldl shorter rows ∈ t.boundRows pattern := by
      rw [h]
      exact foldl_shorter_mem rows more
    obtain ⟨p, id, hp, hr⟩ := mem_boundRows hm
    rw [hr, rowsAt_eq]
    exact filterMap_numbersAt hp [] t.facts.toList rfl

end Table

end Entail
