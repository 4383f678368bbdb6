import Entail.Maintenance.Run
import Entail.Proofs.Program
import Entail.Proofs.Table

/-!
# What the parts of a task do to a run

A run says of every fact which flags it has (`Run.Has`, `Run.HasAtLevel`), whether it is asserted and
whether it was in the materialization before the update (`Run.Asserted`, `Run.Before`). The runs of
an update without equality are `Run.Plain`: not stopped, with room for a mark on every row, and
without the bits that only equality sets. Each operation on a run has a rule that says in which run
it ends.
-/

namespace Entail

/-! ## Marks -/

namespace Marks

/-- The number of rows from which on marks have no room. -/
def room : Nat := segmentSize * (segmentLimit - 1)

/-- `m'` has the flags of `m`, and those of `set` in a row. -/
def Adds (m : Marks) (row : Nat) (set : Flags) (m' : Marks) : Prop :=
  ∀ other, m'.flags other = if row = other then m.flags row ||| set else m.flags other

variable {m m' : Marks} {row : Nat} {set b : Flags}

theorem add_ok (h : row < room) (set : Flags) :
    ∃ m', m.add row set = .ok ((m.flags row ||| set) != m.flags row, m') ∧ m.Adds row set m' := by
  have hneeded : row / segmentSize + 1 < segmentLimit :=
    Nat.lt_sub_iff_add_lt.mp (Nat.div_lt_of_lt_mul h)
  have hadd : ∃ m', m.add row set = .ok ((m.flags row ||| set) != m.flags row, m') := by
    rw [add]
    dsimp only
    rw [if_pos (.inr hneeded)]
    exact ⟨_, rfl⟩
  obtain ⟨m', hm⟩ := hadd
  exact ⟨m', hm, flags_add hm⟩

theorem Adds.any (h : m.Adds row set m') (b : Flags) (other : Nat) :
    (m'.flags other).any b = ((m.flags other).any b || (row == other && set.any b)) := by
  rw [h other]
  by_cases he : row = other
  · subst he
    simp [Bits.any_or]
  · simp [he]

/-- The facts with a flag, once a flag is set. -/
theorem Adds.holds_iff {T : Table} {s t : Triple} (h : m.Adds row set m')
    (hf : T.fact? row = some t) :
    T.Holds (fun row => (m'.flags row).any b) s ↔
      T.Holds (fun row => (m.flags row).any b) s ∨ (set.any b = true ∧ s = t) := by
  constructor
  · rintro ⟨other, ho, hb⟩
    dsimp only at hb
    rw [h.any, Bool.or_eq_true, Bool.and_eq_true, beq_iff_eq] at hb
    rcases hb with hb | ⟨rfl, hb⟩
    · exact .inl ⟨other, ho, hb⟩
    · rw [hf] at ho
      exact .inr ⟨hb, (Option.some.inj ho).symm⟩
  · rintro (⟨other, ho, hb⟩ | ⟨hb, rfl⟩)
    · exact ⟨other, ho, by simp only [h.any, hb, Bool.true_or]⟩
    · exact ⟨row, hf, by simp [h.any, hb]⟩

end Marks

/-! ## Facts of a run -/

/-- The flags that hold for a whole update, or those that hold for a level of it. -/
inductive Layer where
  | update
  | level

namespace Layer

/-- The marks of a layer. -/
def marks (u : Update) : Layer → Marks
  | update => u.flags
  | level => u.levelFlags

/-- The update with other marks in a layer. -/
def withMarks (u : Update) (m : Marks) : Layer → Update
  | update => { u with flags := m }
  | level => { u with levelFlags := m }

/-- Sets flags of a row in a layer; whether that changed any. -/
def add (row : RowIndex) (set : Flags) : Layer → Routine Bool
  | update => Routine.addFlags row set
  | level => Routine.addLevelFlags row set

/-- The flag of a layer that only equality sets. -/
def merged : Layer → Flags
  | update => Flag.Update.addedMerged
  | level => Flag.Level.provedMerged

end Layer

namespace Run

variable {r : Run} {b : Flags} {t : Triple} {row : Nat}

/-- A fact has a flag in a layer. -/
def HasOn (r : Run) (l : Layer) (b : Flags) (t : Triple) : Prop :=
  r.table.Holds (fun row => ((l.marks r.update).flags row).any b) t

/-- A fact has a flag in the update. -/
abbrev Has (r : Run) (b : Flags) (t : Triple) : Prop := r.HasOn .update b t

/-- A fact has a flag at the current level. -/
abbrev HasAtLevel (r : Run) (b : Flags) (t : Triple) : Prop := r.HasOn .level b t

/-- A fact is asserted. -/
def Asserted (r : Run) (t : Triple) : Prop :=
  r.table.Holds (fun row => (r.table.status row).any Status.asserted) t

/-- A fact was in the materialization before the update. -/
def Before (r : Run) (t : Triple) : Prop :=
  r.table.Holds (fun row => Standing.before (r.table.status row)) t

open Flag.Update in
/-- A fact is deleted and not added again. -/
def Gone (r : Run) (t : Triple) : Prop := r.Has deleted t ∧ ¬ r.Has added t

/-- A fact was in the materialization before the update and is not gone. -/
def Kept (r : Run) (t : Triple) : Prop := r.Before t ∧ ¬ r.Gone t

open Flag.Update in
/-- A fact was in the materialization before the update or is added. -/
def WithAdded (r : Run) (t : Triple) : Prop := r.Before t ∨ r.Has added t

open Flag.Update in
/-- A fact is there after the update. -/
def After (r : Run) (t : Triple) : Prop := (r.Before t ∧ ¬ r.Has deleted t) ∨ r.Has added t

theorem Kept.after (h : r.Kept t) : r.After t := by
  by_cases hd : r.Has Flag.Update.deleted t
  · exact .inr (by_contra fun ha => h.2 ⟨hd, ha⟩)
  · exact .inl ⟨h.1, hd⟩

theorem After.withAdded (h : r.After t) : r.WithAdded t := h.imp_left And.left

theorem After.mem (h : r.After t) : ∃ row, r.table.fact? row = some t :=
  h.elim (fun hb => hb.1.mem) Table.Holds.mem

/-- What is there before the update or added, but not after the update, is gone. -/
theorem WithAdded.gone (h : r.WithAdded t) (ha : ¬ r.After t) : r.Gone t :=
  have hna : ¬ r.Has Flag.Update.added t := fun hh => ha (.inr hh)
  ⟨by_contra fun hd => ha (.inl ⟨h.resolve_right hna, hd⟩), hna⟩

/-- The run of an update without equality: it is not stopped, marks have room, flags are on facts
only, and no bit is set that only equality sets. -/
structure Plain (r : Run) : Prop where
  running : r.stopped = false
  room : r.table.size < Marks.room
  unmerged (row : Nat) : (r.table.status row).any Status.merged = false
  flags (row : Nat) (h : r.table.fact? row = none) : r.flags row = 0
  levelFlags (row : Nat) (h : r.table.fact? row = none) : r.levelFlags row = 0
  addedMerged (row : Nat) : (r.flags row).any Flag.Update.addedMerged = false
  provedMerged (row : Nat) : (r.levelFlags row).any Flag.Level.provedMerged = false

theorem Plain.row_lt (h : r.Plain) (hf : r.table.fact? row = some t) : row < Marks.room :=
  (Table.fact?_bounds hf).2.trans_lt h.room

theorem has_iff (hf : r.table.fact? row = some t) : r.Has b t ↔ (r.flags row).any b = true :=
  Table.holds_iff hf

theorem hasAtLevel_iff (hf : r.table.fact? row = some t) :
    r.HasAtLevel b t ↔ (r.levelFlags row).any b = true :=
  Table.holds_iff hf

theorem asserted_iff (hf : r.table.fact? row = some t) :
    r.Asserted t ↔ (r.table.status row).any Status.asserted = true :=
  Table.holds_iff hf

theorem before_iff (hf : r.table.fact? row = some t) :
    r.Before t ↔ Standing.before (r.table.status row) = true :=
  Table.holds_iff hf

/-- A flag is set on a fact. -/
theorem Plain.withMarks (h : r.Plain) (hf : r.table.fact? row = some t) {l : Layer} {set : Flags}
    {m : Marks} (ha : (l.marks r.update).Adds row set m) (hset : set.any l.merged = false) :
    ({ r with update := l.withMarks r.update m } : Run).Plain := by
  have hne : ∀ other, r.table.fact? other = none → row ≠ other := by
    rintro _ ho rfl
    rw [hf] at ho
    cases ho
  have hzero : ∀ other, r.table.fact? other = none → m.flags other = (l.marks r.update).flags other :=
    fun other ho => (ha other).trans (if_neg (hne other ho))
  have hmerged : ∀ other, (m.flags other).any l.merged = ((l.marks r.update).flags other).any l.merged :=
    fun other => by rw [ha.any, hset, Bool.and_false, Bool.or_false]
  cases l with
  | update => exact { h with
      flags := fun other ho => (hzero other ho).trans (h.flags other ho)
      addedMerged := fun other => (hmerged other).trans (h.addedMerged other) }
  | level => exact { h with
      levelFlags := fun other ho => (hzero other ho).trans (h.levelFlags other ho)
      provedMerged := fun other => (hmerged other).trans (h.provedMerged other) }

/-- The facts with a flag once a row has got flags of the update. -/
theorem has_withFlags {u : Triple} {set : Flags} {m : Marks} (hf : r.table.fact? row = some t)
    (ha : r.update.flags.Adds row set m) :
    Run.Has { r with update := { r.update with flags := m } } b u ↔
      r.Has b u ∨ (set.any b = true ∧ u = t) :=
  ha.holds_iff hf

theorem has_withFlags_of_ne {u : Triple} {set : Flags} {m : Marks} (hf : r.table.fact? row = some t)
    (ha : r.update.flags.Adds row set m) (hb : set.any b = false) :
    Run.Has { r with update := { r.update with flags := m } } b u ↔ r.Has b u := by
  rw [has_withFlags hf ha, hb]
  simp

/-- A level is started. -/
theorem Plain.startLevel (h : r.Plain) : ({ r with update := r.update.startLevel } : Run).Plain :=
  { h with
    levelFlags := fun row _ => Marks.flags_clear _ row
    provedMerged := fun row => by
      show Bits.any (r.update.levelFlags.clear.flags row) _ = false
      rw [Marks.flags_clear, Bits.zero_any] }

/-- The status of a row changes. -/
theorem Plain.withStatus (h : r.Plain) {status : Status} {T : Table}
    (hT : r.table.Sets row status T) (hm : status.any Status.merged = false) :
    ({ r with table := T } : Run).Plain := by
  have hfact : ∀ other, T.fact? other = none → r.table.fact? other = none := fun other ho => by
    rwa [← hT.fact?_eq]
  refine { h with
    room := hT.size_eq ▸ h.room
    unmerged := fun other => ?_
    flags := fun other ho => h.flags other (hfact other ho)
    levelFlags := fun other ho => h.levelFlags other (hfact other ho) }
  show (T.status other).any Status.merged = false
  rw [hT.status_eq]
  split
  · exact hm
  · exact h.unmerged other

/-- A fact is stored, perhaps in a new row. -/
theorem Plain.withStored (h : r.Plain) {set : Status} {T : Table}
    (hT : r.table.Stores t set row T) (hroom : T.size < Marks.room)
    (hset : set.any Status.merged = false) : ({ r with table := T } : Run).Plain := by
  have hfact : ∀ other, T.fact? other = none → r.table.fact? other = none := fun other ho => by
    cases hf : r.table.fact? other with
    | none => rfl
    | some u =>
      rw [hT.keeps other u hf] at ho
      cases ho
  refine { h with
    room := hroom
    unmerged := fun other => ?_
    flags := fun other ho => h.flags other (hfact other ho)
    levelFlags := fun other ho => h.levelFlags other (hfact other ho) }
  exact (hT.status other Status.merged rfl).trans (by rw [h.unmerged, hset, Bool.and_false]; rfl)

/-- Where no row is merged, a fact was in the materialization if it is derived. -/
theorem before_iff_derived (h : ∀ row, (r.table.status row).any Status.merged = false) :
    r.Before t ↔ r.table.Holds (fun row => (r.table.status row).any Status.derived) t := by
  simp only [Before, Standing.before_iff, h, Bool.not_false, Bool.and_true]

theorem before_congr {r' : Run} (ht : r'.table = r.table) : r'.Before t ↔ r.Before t := by
  rw [Before, Before, ht]

theorem asserted_congr {r' : Run} (ht : r'.table = r.table) : r'.Asserted t ↔ r.Asserted t := by
  rw [Asserted, Asserted, ht]

theorem hasOn_congr {r' : Run} {l : Layer} (ht : r'.table = r.table)
    (hf : ∀ row, ((l.marks r'.update).flags row).any b = ((l.marks r.update).flags row).any b) :
    r'.HasOn l b t ↔ r.HasOn l b t := by
  simp only [HasOn, ht, hf]

theorem has_congr {r' : Run} (ht : r'.table = r.table)
    (hf : ∀ row, (r'.flags row).any b = (r.flags row).any b) : r'.Has b t ↔ r.Has b t :=
  hasOn_congr ht hf

theorem hasAtLevel_congr {r' : Run} (ht : r'.table = r.table)
    (hf : ∀ row, (r'.levelFlags row).any b = (r.levelFlags row).any b) :
    r'.HasAtLevel b t ↔ r.HasAtLevel b t :=
  hasOn_congr ht hf

open Flag.Update in
/-- The same facts were there before the update, are deleted and are added in `r` and `r'`. -/
structure Alike (r r' : Run) : Prop where
  before_iff {t : Triple} : r'.Before t ↔ r.Before t
  deleted_iff {t : Triple} : r'.Has deleted t ↔ r.Has deleted t
  added_iff {t : Triple} : r'.Has added t ↔ r.Has added t

namespace Alike

variable {r' : Run} (h : r.Alike r')

include h

theorem gone_iff : r'.Gone t ↔ r.Gone t := by
  rw [Gone, Gone, h.deleted_iff, h.added_iff]

theorem kept_iff : r'.Kept t ↔ r.Kept t := by
  rw [Kept, Kept, h.before_iff, h.gone_iff]

theorem withAdded_iff : r'.WithAdded t ↔ r.WithAdded t := by
  rw [WithAdded, WithAdded, h.before_iff, h.added_iff]

theorem after_iff : r'.After t ↔ r.After t := by
  rw [After, After, h.before_iff, h.deleted_iff, h.added_iff]

end Alike

/-- The queues of the levels, and where the levels end in the work lists, are the same in `r` and `r'`. -/
structure SameQueues (r r' : Run) : Prop where
  initiallyDeleted : r'.update.initiallyDeleted = r.update.initiallyDeleted
  initiallyAdded : r'.update.initiallyAdded = r.update.initiallyAdded
  deletedEnds : r'.update.deletedEnds = r.update.deletedEnds
  addedEnds : r'.update.addedEnds = r.update.addedEnds

theorem SameQueues.trans {r' r'' : Run} (h : r.SameQueues r') (h' : r'.SameQueues r'') :
    r.SameQueues r'' :=
  ⟨h'.initiallyDeleted.trans h.initiallyDeleted, h'.initiallyAdded.trans h.initiallyAdded,
    h'.deletedEnds.trans h.deletedEnds, h'.addedEnds.trans h.addedEnds⟩

end Run

/-! ## Standings -/

section standing

variable {r : Run} {t : Triple} {row : Nat}

theorem Run.kept_iff (hf : r.table.fact? row = some t) :
    (r.standing row (r.table.status row)).kept = true ↔ r.Kept t := by
  simp only [Standing.kept_iff, Run.standing, Run.Kept, Run.Gone, Run.before_iff hf, Run.has_iff hf,
    Bool.and_eq_true, Bool.not_eq_true', Bool.and_eq_false_iff, Bool.not_eq_false']
  cases (r.flags row).any Flag.Update.deleted <;> cases (r.flags row).any Flag.Update.added <;> simp

theorem Run.Plain.withAdded_iff (h : r.Plain) (hf : r.table.fact? row = some t) :
    (r.standing row (r.table.status row)).withAdded = true ↔ r.WithAdded t := by
  simp [Standing.withAdded_iff, Run.standing, Run.WithAdded, Run.before_iff hf, Run.has_iff hf, h.addedMerged]

theorem Run.Plain.after_iff (h : r.Plain) (hf : r.table.fact? row = some t) :
    (r.standing row (r.table.status row)).after = true ↔ r.After t := by
  simp [Standing.after_iff, Run.standing, Run.After, Run.before_iff hf, Run.has_iff hf,
    h.addedMerged]

theorem Run.holds_kept_iff :
    r.table.Holds (fun row => (r.standing row (r.table.status row)).kept) t ↔ r.Kept t :=
  Table.holds_iff_of (fun _ => Run.kept_iff) fun h => h.1.mem

theorem Run.Plain.holds_withAdded_iff (h : r.Plain) :
    r.table.Holds (fun row => (r.standing row (r.table.status row)).withAdded) t ↔ r.WithAdded t :=
  Table.holds_iff_of (fun _ => h.withAdded_iff) fun ht => ht.elim Table.Holds.mem Table.Holds.mem

theorem Run.Plain.holds_after_iff (h : r.Plain) :
    r.table.Holds (fun row => (r.standing row (r.table.status row)).after) t ↔ r.After t :=
  Table.holds_iff_of (fun _ => h.after_iff) Run.After.mem

theorem Run.kept_eq_false {status : Status} (hs : Standing.before status = false) :
    (r.standing row status).kept = false := by
  rw [Standing.kept, Run.standing, hs, Bool.false_and]

theorem Run.Plain.withAdded_eq_false (h : r.Plain) (hn : r.table.fact? row = none)
    {status : Status} (hs : Standing.before status = false) :
    (r.standing row status).withAdded = false := by
  simp only [Standing.withAdded_iff, Run.standing, h.flags row hn, hs, Bits.zero_any,
    Bool.false_and, Bool.or_self]

/-- A fact without a row is not there after the update. -/
theorem Run.Plain.after_eq_false (h : r.Plain) (hn : r.table.fact? row = none) {status : Status}
    (hs : Standing.before status = false) : (r.standing row status).after = false := by
  simp only [Standing.after_iff, Run.standing, h.flags row hn, hs, Bits.zero_any, Bool.false_and,
    Bool.or_self]

end standing

/-! ## New rows -/

/-- `T'` has the rows of `T`, and perhaps more, of which nothing is known. -/
structure Table.Grows (T T' : Table) : Prop where
  rows : T.Extends T'
  status (row : Nat) (h : T.size < row) (b : Status) (hb : Status.complete.any b = false) :
    (T'.status row).any b = false

theorem Table.Grows.refl (T : Table) : T.Grows T :=
  ⟨.refl T, fun row h b _ => by rw [Table.status_eq_zero h, Bits.zero_any]⟩

theorem Table.Grows.trans {T T' T'' : Table} (h : T.Grows T') (h' : T'.Grows T'') : T.Grows T'' := by
  refine ⟨h.rows.trans h'.rows, fun row hr b hb => ?_⟩
  by_cases hle : row ≤ T'.size
  · rw [h'.rows.status row hle]
    exact h.status row hr b hb
  · exact h'.status row (Nat.lt_of_not_le hle) b hb

theorem Table.Grows.before_eq {T T' : Table} {row : Nat} (h : T.Grows T') (hr : T.size < row) :
    Standing.before (T'.status row) = false := by
  rw [Standing.before_iff, h.status row hr Status.derived rfl, Bool.false_and]

/-- `r'` is `r` with more rows, of which nothing is known. -/
structure Run.Grows (r r' : Run) : Prop where
  eq : ∃ table, r' = { r with table }
  table : r.table.Grows r'.table

namespace Run.Grows

variable {r r' : Run} {b : Flags} {t : Triple} {l : Layer}

theorem refl (r : Run) : r.Grows r := ⟨⟨_, rfl⟩, .refl _⟩

theorem status_iff (h : r.Grows r') (hb : Status.complete.any b = false) :
    r'.table.Holds (fun row => (r'.table.status row).any b) t ↔
      r.table.Holds (fun row => (r.table.status row).any b) t :=
  h.table.rows.holds_iff (fun row hr => by rw [h.table.rows.status row hr])
    fun row hr => h.table.status row hr b hb

theorem asserted_iff (h : r.Grows r') : r'.Asserted t ↔ r.Asserted t := h.status_iff rfl

theorem before_iff (h : r.Grows r') : r'.Before t ↔ r.Before t := by
  exact h.table.rows.holds_iff (fun row hr => by rw [h.table.rows.status row hr])
    fun row hr => h.table.before_eq hr

theorem hasOn_iff (h : r.Grows r') (hr : r.Plain) : r'.HasOn l b t ↔ r.HasOn l b t := by
  obtain ⟨table, rfl⟩ := h.eq
  refine h.table.rows.holds_iff (fun _ _ => rfl) fun row hlt => ?_
  have hnone := Table.fact?_eq_none hlt
  cases l with
  | update => exact (congrArg (Bits.any · b) (hr.flags row hnone)).trans (Bits.zero_any b)
  | level => exact (congrArg (Bits.any · b) (hr.levelFlags row hnone)).trans (Bits.zero_any b)

theorem has_iff (h : r.Grows r') (hr : r.Plain) : r'.Has b t ↔ r.Has b t := h.hasOn_iff hr

theorem after_iff (h : r.Grows r') (hr : r.Plain) : r'.After t ↔ r.After t :=
  Run.Alike.after_iff ⟨h.before_iff, h.has_iff hr, h.has_iff hr⟩

theorem plain (h : r.Grows r') (hr : r.Plain) (hroom : r'.table.size < Marks.room) : r'.Plain := by
  have hnone : ∀ row, r'.table.fact? row = none → r.table.fact? row = none := fun row hn => by
    cases hf : r.table.fact? row with
    | none => rfl
    | some t =>
      rw [h.table.rows.fact? hf] at hn
      cases hn
  have hstatus := h.table.status
  have hrows := h.table.rows
  obtain ⟨table, rfl⟩ := h.eq
  exact { hr with
    room := hroom
    unmerged := fun row => by
      by_cases hlt : r.table.size < row
      · exact hstatus row hlt Status.merged rfl
      · exact (congrArg (Bits.any · Status.merged) (hrows.status row (Nat.le_of_not_lt hlt))).trans
          (hr.unmerged row)
    flags := fun row hn => hr.flags row (hnone row hn)
    levelFlags := fun row hn => hr.levelFlags row (hnone row hn) }

end Run.Grows

/-! ## Steps -/

section steps

variable {c : Context} {r : Run} {row : Nat} {t : Triple} {set : Flags}

theorem Context.announce_wp (hc : c.stop = .never) {e : Event} {Q : Unit → Run → Prop}
    (h : ∀ journal, Q () { r with journal }) : WP (c.announce e) r Q := by
  rw [announce]
  split
  · rw [WP.modify_iff]
    have : r.hear c.stop e = { r with journal := r.journal.push (.event e) } := by rw [hc]; rfl
    rw [this]
    exact h _
  · exact WP.pure_iff.mpr (h r.journal)

theorem Routine.note_wp {n : Note} {Q : Unit → Run → Prop} (h : ∀ journal, Q () { r with journal }) :
    WP (Routine.note n) r Q :=
  WP.modify_iff.mpr (h _)

theorem Context.isRunning_wp (hc : c.stop = .never) (hr : r.stopped = false)
    {Q : Bool → Run → Prop} (h : ∀ polls, Q true { r with polls }) : WP c.isRunning r Q := by
  rw [isRunning, WP.modifyGet_iff]
  have hs : (r.stopped || c.stop == .poll (r.polls + 1)) = false := by rw [hr, hc]; rfl
  have he : ({ r with polls := r.polls + 1, stopped := false } : Run) =
      { r with polls := r.polls + 1 } := by rw [← hr]
  simp only [hs]
  rw [he]
  exact h _

theorem Routine.reads_wp {α : Type} {f : Run → α} {Q : α → Run → Prop} (h : Q (f r) r) :
    WP (Routine.reads f) r Q := ⟨_, _, rfl, h⟩

theorem Routine.demand_wp {α : Type} {f : Run → Option α} {a : α} (ha : f r = some a)
    {Q : α → Run → Prop} (h : Q a r) : WP (Routine.demand f) r Q :=
  ⟨a, r, by simp only [Routine.demand, ha], h⟩

theorem Routine.endBefore_wp {ends : Run → Array Nat} {level : Option Nat} {place : Nat}
    (he : Update.endBefore (ends r) level = .ok place) {Q : Nat → Run → Prop} (h : Q place r) :
    WP (Routine.endBefore ends level) r Q :=
  ⟨place, r, by simp only [Routine.endBefore, he], h⟩

theorem Routine.orStop_wp {α : Type} {x : Routine α} {Q : α → Run → Prop} (h : WP x r Q) :
    WP (Routine.orStop x) r Q := by
  obtain ⟨a, r', hx, hq⟩ := h
  exact ⟨a, r', by simp only [Routine.orStop, hx], hq⟩

theorem Routine.factOf_wp (hf : r.table.fact? row = some t) {Q : Triple → Run → Prop} (h : Q t r) :
    WP (Routine.factOf row) r Q :=
  ⟨t, r, by simp only [Routine.factOf, hf], h⟩

theorem Routine.rowOf_of_fact (hf : r.table.fact? row = some t) {Q : RowIndex → Run → Prop}
    (h : Q row r) : WP (Routine.rowOf t) r Q := by
  rw [rowOf, WP.modifyGet_iff, Table.add_zero_of_index? (Table.index?_eq_some_iff.mpr hf)]
  exact h

/-- Facts are given rows as long as there is room for them. -/
theorem Routine.rowOf_wp {Q : RowIndex → Run → Prop}
    (h : ∀ (row : Nat) r', r.Grows r' → r'.table.fact? row = some t →
      (∀ row u, r'.table.fact? row = some u → r.table.fact? row = some u ∨ u = t) → Q row r') :
    WP (Routine.rowOf t) r Q := by
  cases hi : r.table.index? t with
  | some row =>
    have hf := Table.index?_eq_some_iff.mp hi
    exact rowOf_of_fact hf (h row r (.refl r) hf fun _ _ => .inl)
  | none =>
    obtain ⟨table, hadd, hg⟩ := Table.add_of_index?_none 0 hi
    rw [rowOf, WP.modifyGet_iff, hadd]
    refine h (r.table.size + 1) { r with table } ⟨⟨_, rfl⟩, hg.rows, fun row hr b hb => ?_⟩
      hg.fact?
      fun row u hu => ?_
    · show (table.status row).any b = false
      rcases hg.status_of_lt hr with hs | hs
      · rw [hs, Bits.any_or, hb, Bits.zero_any]
        rfl
      · rw [hs, Bits.zero_any]
    · have hu : table.fact? row = some u := hu
      by_cases hle : row ≤ r.table.size
      · obtain ⟨u', hu'⟩ := Table.exists_fact? (Table.fact?_bounds hu).1 hle
        have := hg.rows.fact? hu'
        rw [hu] at this
        cases this
        exact .inl hu'
      · have hb := (Table.fact?_bounds hu).2
        rw [hg.size] at hb
        have hrow := Nat.le_antisymm hb (Nat.lt_of_not_le hle)
        rw [hrow, hg.fact?] at hu
        exact .inr (Option.some.inj hu).symm

theorem Routine.updateStatus_wp (hf : r.table.fact? row = some t) {cleared set : Status}
    {Q : Bool → Run → Prop}
    (h : ∀ T, r.table.Sets row ((r.table.status row).update cleared set) T →
      Q ((r.table.status row).update cleared set != r.table.status row) { r with table := T }) :
    WP (Routine.updateStatus row cleared set) r Q := by
  obtain ⟨hpos, hle⟩ := Table.fact?_bounds hf
  rw [updateStatus, WP.modifyGet_iff]
  dsimp only
  rw [Table.changed_updateStatus hpos hle]
  exact h _ (Table.updateStatus_sets hf cleared set)

theorem Routine.store_wp (hset : Bits.IsBit set) {Q : Bool × RowIndex → Run → Prop}
    (h : ∀ row T, r.table.Stores t set row T →
      Q (!(r.table.status row).any set, row) { r with table := T }) :
    WP (Routine.store t set) r Q := by
  obtain ⟨row, T, hadd, hT⟩ := Table.add_stores hset r.table t
  rw [store, WP.modifyGet_iff, hadd]
  exact h row T hT

theorem Context.announceRow_wp (hc : c.stop = .never) (hf : r.table.fact? row = some t)
    {e : Triple → Event} {Q : Unit → Run → Prop} (h : ∀ journal, Q () { r with journal }) :
    WP (c.announceRow row e) r Q := by
  rw [announceRow]
  split
  · rw [WP.bind_iff]
    exact Routine.factOf_wp hf (announce_wp hc h)
  · exact WP.pure_iff.mpr (h r.journal)

theorem Layer.add_wp {l : Layer} (hset : Bits.IsBit set) (hrow : row < Marks.room)
    {Q : Bool → Run → Prop} (h : ∀ m, (l.marks r.update).Adds row set m →
      Q (!((l.marks r.update).flags row).any set) { r with update := l.withMarks r.update m }) :
    WP (l.add row set) r Q := by
  obtain ⟨m, hm, ha⟩ := Marks.add_ok (m := l.marks r.update) hrow set
  rw [hset.or_bne] at hm
  refine ⟨_, _, ?_, h m ha⟩
  cases l with
  | update =>
    simp only [Layer.marks] at hm
    simp only [Layer.add, Routine.addFlags, hm]
    rfl
  | level =>
    simp only [Layer.marks] at hm
    simp only [Layer.add, Routine.addLevelFlags, hm]
    rfl

theorem Routine.addFlags_wp (hset : Bits.IsBit set) (hrow : row < Marks.room)
    {Q : Bool → Run → Prop} (h : ∀ m, r.update.flags.Adds row set m →
      Q (!(r.flags row).any set) { r with update := { r.update with flags := m } }) :
    WP (Routine.addFlags row set) r Q :=
  Layer.add_wp (l := .update) hset hrow h

theorem Routine.addLevelFlags_wp (hset : Bits.IsBit set) (hrow : row < Marks.room)
    {Q : Bool → Run → Prop} (h : ∀ m, r.update.levelFlags.Adds row set m →
      Q (!(r.levelFlags row).any set) { r with update := { r.update with levelFlags := m } }) :
    WP (Routine.addLevelFlags row set) r Q :=
  Layer.add_wp (l := .level) hset hrow h

end steps

end Entail
