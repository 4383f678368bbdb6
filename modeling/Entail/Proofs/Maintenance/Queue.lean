import Mathlib.Order.Interval.Finset.Nat
import Entail.Proofs.Maintenance.Run
import Entail.Proofs.Rule.Instance
import Entail.Proofs.Segments

/-!
# Working off queues

A queue `Lists` facts if it has the row of each of them once; so it is never longer than the table.
`Routine.workOff_wp` is the rule for working off a queue: what a task does with one row keeps an
invariant and judges the row for good, and then all rows are judged in the end.
-/

namespace Entail

/-- Some rows are those of the facts of which `S` holds, once each. -/
structure Lists (T : Table) (S : Triple → Prop) (rows : List RowIndex) : Prop where
  nodup : rows.Nodup
  mem_iff (row : Nat) : row ∈ rows ↔ ∃ t, T.fact? row = some t ∧ S t

namespace Lists

variable {T T' : Table} {S S' : Triple → Prop} {rows : List RowIndex} {row : Nat} {t : Triple}

theorem congr (h : Lists T S rows) (hS : ∀ t, S' t ↔ S t) : Lists T S' rows :=
  ⟨h.nodup, fun row => by simp only [h.mem_iff, hS]⟩

theorem perm {rows' : List RowIndex} (h : Lists T S rows) (hp : rows.Perm rows') :
    Lists T S rows' :=
  ⟨hp.nodup_iff.mp h.nodup, fun row => hp.mem_iff.symm.trans (h.mem_iff row)⟩

theorem nil (hS : ∀ t, ¬ S t) : Lists T S [] :=
  ⟨List.nodup_nil, fun row => by simp [hS]⟩

theorem pos (h : Lists T S rows) (hr : row ∈ rows) : 0 < row := by
  obtain ⟨t, hf, -⟩ := (h.mem_iff row).mp hr
  exact (Table.fact?_bounds hf).1

/-- Another fact is listed behind the others. -/
theorem push (h : Lists T S rows) (hf : T.fact? row = some t) (ht : ¬ S t)
    (hS : ∀ s, S' s ↔ S s ∨ s = t) : Lists T S' (rows ++ [row]) := by
  refine ⟨?_, fun other => ?_⟩
  · rw [List.nodup_append]
    refine ⟨h.nodup, List.nodup_singleton row, fun a ha b hb hab => ht ?_⟩
    obtain rfl := List.mem_singleton.mp hb
    subst hab
    obtain ⟨s, hs, hs'⟩ := (h.mem_iff a).mp ha
    rw [hf] at hs
    cases hs
    exact hs'
  · rw [List.mem_append, List.mem_singleton, h.mem_iff]
    constructor
    · rintro (⟨s, hs, hs'⟩ | rfl)
      · exact ⟨s, hs, (hS s).mpr (.inl hs')⟩
      · exact ⟨t, hf, (hS t).mpr (.inr rfl)⟩
    · rintro ⟨s, hs, hs'⟩
      rcases (hS s).mp hs' with hs' | rfl
      · exact .inl ⟨s, hs, hs'⟩
      · exact .inr (Table.row_unique hs hf)

theorem eq_nil (h : Lists T S rows) (hS : ∀ t, ¬ S t) : rows = [] :=
  List.eq_nil_iff_forall_not_mem.mpr fun row hr =>
    have ⟨t, _, ht⟩ := (h.mem_iff row).mp hr
    hS t ht

/-- Other facts are listed behind the others. -/
theorem append {rows' : List RowIndex} (h : Lists T S rows) (h' : Lists T S' rows')
    (hd : ∀ t, S t → ¬ S' t) : Lists T (fun t => S t ∨ S' t) (rows ++ rows') := by
  refine ⟨List.nodup_append.mpr ⟨h.nodup, h'.nodup, fun row hr row' hr' he => ?_⟩, fun row => ?_⟩
  · subst he
    obtain ⟨t, hf, ht⟩ := (h.mem_iff row).mp hr
    obtain ⟨t', hf', ht'⟩ := (h'.mem_iff row).mp hr'
    rw [hf] at hf'
    cases hf'
    exact hd t ht ht'
  · rw [List.mem_append, h.mem_iff, h'.mem_iff]
    constructor
    · rintro (⟨t, hf, ht⟩ | ⟨t, hf, ht⟩)
      · exact ⟨t, hf, .inl ht⟩
      · exact ⟨t, hf, .inr ht⟩
    · rintro ⟨t, hf, ht | ht⟩
      · exact .inl ⟨t, hf, ht⟩
      · exact .inr ⟨t, hf, ht⟩

theorem length_le (h : Lists T S rows) : rows.length ≤ T.size := by
  have hsub : rows.toFinset ⊆ Finset.Icc 1 T.size := fun row hr => by
    rw [List.mem_toFinset] at hr
    obtain ⟨t, hf, -⟩ := (h.mem_iff row).mp hr
    exact Finset.mem_Icc.mpr (Table.fact?_bounds hf)
  have hcard := Finset.card_le_card hsub
  rwa [List.toFinset_card_of_nodup h.nodup, Nat.card_Icc, Nat.add_sub_cancel] at hcard

/-- New rows do not matter, if their facts are not to be listed. -/
theorem extend (h : Lists T S rows) (hT : ∀ row t, T.fact? row = some t → T'.fact? row = some t)
    (hS : ∀ t, S t → ∃ row, T.fact? row = some t) : Lists T' S rows := by
  refine ⟨h.nodup, fun row => (h.mem_iff row).trans ⟨?_, ?_⟩⟩
  · rintro ⟨t, hf, ht⟩
    exact ⟨t, hT _ _ hf, ht⟩
  · rintro ⟨t, hf, ht⟩
    obtain ⟨row', hf'⟩ := hS t ht
    obtain rfl := Table.row_unique hf (hT _ _ hf')
    exact ⟨t, hf', ht⟩

end Lists

/-- Some rows have facts, are listed once, and are those of all facts of which `S` holds, perhaps of
more. -/
structure Includes (T : Table) (S : Triple → Prop) (rows : List RowIndex) : Prop where
  nodup : rows.Nodup
  exists_fact (row : Nat) (h : row ∈ rows) : ∃ t, T.fact? row = some t
  mem (row : Nat) (t : Triple) (hf : T.fact? row = some t) (h : S t) : row ∈ rows

namespace Includes

variable {T T' : Table} {S S' : Triple → Prop} {rows : List RowIndex} {row : Nat} {t : Triple}

theorem congr (h : Includes T S rows) (hS : ∀ t, S' t → S t) : Includes T S' rows :=
  ⟨h.nodup, h.exists_fact, fun row t hf ht => h.mem row t hf (hS t ht)⟩

theorem lists (h : Includes T S rows) : Lists T (fun t => ∃ row ∈ rows, T.fact? row = some t) rows := by
  refine ⟨h.nodup, fun row => ⟨fun hr => ?_, ?_⟩⟩
  · obtain ⟨t, hf⟩ := h.exists_fact row hr
    exact ⟨t, hf, row, hr, hf⟩
  · rintro ⟨t, hf, row', hr, hf'⟩
    rwa [Table.row_unique hf hf']

/-- New rows do not matter, if their facts need not be listed. -/
theorem extend (h : Includes T S rows) (hT : ∀ row t, T.fact? row = some t → T'.fact? row = some t)
    (hS : ∀ t, S t → ∃ row, T.fact? row = some t) : Includes T' S rows := by
  refine ⟨h.nodup, fun row hr => ?_, fun row t hf ht => ?_⟩
  · obtain ⟨t, hf⟩ := h.exists_fact row hr
    exact ⟨t, hT _ _ hf⟩
  · obtain ⟨row', hf'⟩ := hS t ht
    rw [Table.row_unique hf (hT _ _ hf')]
    exact h.mem row' t hf' ht

end Includes

/-- What is listed is included. -/
theorem Lists.includes {T : Table} {S S' : Triple → Prop} {rows : List RowIndex}
    (h : Lists T S rows) (hS : ∀ t, S' t → S t) : Includes T S' rows :=
  ⟨h.nodup, fun row hr => ((h.mem_iff row).mp hr).imp fun _ => And.left,
    fun row t hf ht => (h.mem_iff row).mpr ⟨t, hf, hS t ht⟩⟩

/-- Some rows are those of the facts of which `S` holds, up to a level, those of lower levels first. -/
structure Sorted (T : Table) (x : RuleIndex) (S : Triple → Prop) (level : Option Nat)
    (lowerEnd : Nat) (rows : List RowIndex) : Prop where
  lists : Lists T (fun t => S t ∧ x.Upto level t) rows
  split (place row : Nat) (t : Triple) (h : rows[place]? = some row) (hf : T.fact? row = some t) :
    if place < lowerEnd then x.Below level t else x.At level t

namespace Sorted

variable {T T' : Table} {x : RuleIndex} {S S' : Triple → Prop} {level : Option Nat}
  {lowerEnd row : Nat} {rows front rest : List RowIndex} {t : Triple}

theorem congr (h : Sorted T x S level lowerEnd rows) (hS : ∀ t, S' t ↔ S t) :
    Sorted T x S' level lowerEnd rows :=
  ⟨h.lists.congr fun t => and_congr_left fun _ => hS t, h.split⟩

/-- The facts of lower levels are listed, and those of the level behind them. -/
theorem append (h : Lists T (fun t => S t ∧ x.Below level t) front)
    (h' : Lists T (fun t => S t ∧ x.At level t) rest) :
    Sorted T x S level front.length (front ++ rest) := by
  refine ⟨(h.append h' fun t ht ht' => ht'.2.not_below ht.2).congr fun t => and_or_left,
    fun place row t hplace hf => ?_⟩
  split
  · rename_i hlt
    rw [List.getElem?_append_left hlt] at hplace
    obtain ⟨u, hf', -, hu⟩ := (h.mem_iff row).mp (List.mem_of_getElem? hplace)
    rw [hf] at hf'
    cases hf'
    exact hu
  · rename_i hge
    rw [List.getElem?_append_right (Nat.le_of_not_lt hge)] at hplace
    obtain ⟨u, hf', -, hu⟩ := (h'.mem_iff row).mp (List.mem_of_getElem? hplace)
    rw [hf] at hf'
    cases hf'
    exact hu

/-- Another fact of the level is listed behind some of the others. -/
theorem insert (h : Sorted T x S level lowerEnd (front ++ rest)) (hle : lowerEnd ≤ front.length)
    (hf : T.fact? row = some t) (hat : x.At level t) (ht : ¬ S t) (hS : ∀ s, S' s ↔ S s ∨ s = t) :
    Sorted T x S' level lowerEnd (front ++ [row] ++ rest) := by
  have hiff : ∀ s, S' s ∧ x.Upto level s ↔ (S s ∧ x.Upto level s) ∨ s = t := fun s => by
    rw [hS]
    constructor
    · rintro ⟨hs | rfl, hup⟩
      · exact .inl ⟨hs, hup⟩
      · exact .inr rfl
    · rintro (⟨hs, hup⟩ | rfl)
      · exact ⟨.inl hs, hup⟩
      · exact ⟨.inr rfl, .inr hat⟩
  refine ⟨(h.lists.push hf (fun hs => ht hs.1) hiff).perm ?_, fun place other s hplace hs => ?_⟩
  · rw [List.append_assoc, List.append_assoc]
    exact (List.perm_append_comm : (rest ++ [row]).Perm _).append_left _
  · rw [List.append_assoc] at hplace
    by_cases hlt : place < front.length
    · rw [List.getElem?_append_left hlt] at hplace
      exact h.split place other s (by rwa [List.getElem?_append_left hlt]) hs
    · -- what comes behind `front` is of the level
      rw [List.getElem?_append_right (Nat.le_of_not_lt hlt)] at hplace
      rw [if_neg (by omega)]
      rcases List.mem_append.mp (List.mem_of_getElem? hplace) with hmem | hmem
      · obtain rfl := List.mem_singleton.mp hmem
        rw [hf] at hs
        cases hs
        exact hat
      · obtain ⟨i, hi⟩ := List.mem_iff_getElem?.mp hmem
        have hsplit := h.split (front.length + i) other s
          (by rwa [List.getElem?_append_right (by omega), Nat.add_sub_cancel_left]) hs
        rwa [if_neg (by omega)] at hsplit

/-- New rows do not matter, if their facts are not to be listed. -/
theorem extend (h : Sorted T x S level lowerEnd rows)
    (hT : ∀ row t, T.fact? row = some t → T'.fact? row = some t)
    (hS : ∀ t, S t → ∃ row, T.fact? row = some t) : Sorted T' x S level lowerEnd rows := by
  have hlists := h.lists.extend hT fun t ht => hS t ht.1
  refine ⟨hlists, fun place row t hplace hf => ?_⟩
  obtain ⟨s, hs, -⟩ := (h.lists.mem_iff row).mp (List.mem_of_getElem? hplace)
  have hs' := hT _ _ hs
  rw [hf] at hs'
  cases hs'
  exact h.split place row t hplace hs

/-- The place of a fact of the level. -/
theorem exists_at (h : Sorted T x S level lowerEnd rows) (ht : S t) (hat : x.At level t)
    (hf : T.fact? row = some t) : ∃ place, lowerEnd ≤ place ∧ rows[place]? = some row := by
  obtain ⟨place, hplace⟩ := List.mem_iff_getElem?.mp ((h.lists.mem_iff row).mpr ⟨t, hf, ht, .inr hat⟩)
  refine ⟨place, ?_, hplace⟩
  by_contra hlt
  have hs := h.split place row t hplace hf
  rw [if_pos (by omega)] at hs
  exact hat.not_below hs

/-- The place of a fact of a lower level. -/
theorem exists_below (h : Sorted T x S level lowerEnd rows) (ht : S t) (hbelow : x.Below level t)
    (hf : T.fact? row = some t) : ∃ place, place < lowerEnd ∧ rows[place]? = some row := by
  obtain ⟨place, hplace⟩ := List.mem_iff_getElem?.mp
    ((h.lists.mem_iff row).mpr ⟨t, hf, ht, .inl hbelow⟩)
  refine ⟨place, ?_, hplace⟩
  by_contra hge
  have hs := h.split place row t hplace hf
  rw [if_neg hge] at hs
  exact hs.not_below hbelow

end Sorted

/-- The queues of the levels above a level list the facts of their levels of which `S` holds. -/
def Later (T : Table) (x : RuleIndex) (initially : Array Queue) (S : Triple → Prop)
    (level : Option Nat) : Prop :=
  ∀ l l' q, level = some l → l < l' → initially[l']? = some q →
    q.cursor = 0 ∧ Lists T (fun t => S t ∧ x.componentLevel t = l') q.values.toList

namespace Later

variable {T T' : Table} {x : RuleIndex} {initially : Array Queue} {S S' : Triple → Prop}
  {level : Option Nat}

/-- What happens up to a level does not matter above it. -/
theorem congr (h : Later T x initially S level) (hS : ∀ t, ¬ x.Upto level t → (S' t ↔ S t)) :
    Later T x initially S' level := by
  intro l l' q hl hlt hq
  obtain ⟨hcursor, hlists⟩ := h l l' q hl hlt hq
  refine ⟨hcursor, hlists.congr fun t => and_congr_left fun ht => hS t ?_⟩
  subst hl
  rintro (⟨_, he, hb⟩ | hat)
  · cases he
    omega
  · have := hat l rfl
    omega

theorem extend (h : Later T x initially S level)
    (hT : ∀ row t, T.fact? row = some t → T'.fact? row = some t)
    (hS : ∀ t, S t → ∃ row, T.fact? row = some t) : Later T' x initially S level := by
  intro l l' q hl hlt hq
  obtain ⟨hcursor, hlists⟩ := h l l' q hl hlt hq
  exact ⟨hcursor, hlists.extend hT fun t ht => hS t ht.1⟩

end Later

/-- A queue with one more row. -/
def Queue.push (q : Queue) (row : RowIndex) : Queue := { q with values := q.values.push row }

/-- The rows of a work list. -/
def Run.listed (r : Run) (w : WorkList) : List RowIndex := (r.update.queue w).values.toList

/-- The run with the cursor of a work list at another place, which asked more often whether to go
on. -/
def Run.moved (r : Run) (w : WorkList) (cursor polls : Nat) : Run :=
  { r with polls, update := r.update.withQueue w ((r.update.queue w).seek cursor) }

namespace Update

variable {u : Update} {w : WorkList} {q : Queue}

@[simp] theorem queue_withQueue : (u.withQueue w q).queue w = q := by
  cases w <;> rfl

@[simp] theorem withQueue_queue : u.withQueue w (u.queue w) = u := by
  cases w <;> rfl

end Update

namespace Run

variable {r : Run} {w : WorkList} {cursor polls : Nat}

@[simp] theorem queue_moved : (r.moved w cursor polls).update.queue w =
    (r.update.queue w).seek cursor := by
  cases w <;> rfl

theorem queue_moved_of_ne {w' : WorkList} (h : w' ≠ w) :
    (r.moved w cursor polls).update.queue w' = r.update.queue w' := by
  cases w <;> cases w' <;> first | exact absurd rfl h | rfl

theorem moved_self : r.moved w (r.update.queue w).cursor polls = { r with polls } := by
  rw [moved, Queue.seek, Update.withQueue_queue]

end Run

/-- `r'` takes the same rows from the work lists next as `r`. -/
def Run.SameCursors (r r' : Run) : Prop :=
  ∀ w, (r'.update.queue w).cursor = (r.update.queue w).cursor

namespace Routine

variable {c : Context} {β : Type} {w : WorkList} {live : Nat → Prop} {next : Routine RowIndex}

theorem enqueue_wp {r : Run} {row : Nat} (hrow : 0 < row) {Q : Unit → Run → Prop}
    (h : Q () { r with update := r.update.withQueue w ((r.update.queue w).push row) }) :
    WP (Routine.enqueue w row) r Q := by
  refine ⟨(), _, ?_, h⟩
  have hne : ¬ row = 0 := by omega
  simp only [Routine.enqueue, Queue.enqueue, if_neg hne]
  rfl

/-- `r'` is `r` once a fact with the given row has a flag, and is queued if it did not have it. -/
structure Marked (l : Layer) (w : WorkList) (b : Flags) (row : RowIndex) (t : Triple) (r r' : Run) :
    Prop where
  eq : ∃ m q, r' = { r with update := (l.withMarks r.update m).withQueue w q }
  flags (other : Nat) (b' : Flags) (h : b.any b' = false) :
    ((l.marks r'.update).flags other).any b' = ((l.marks r.update).flags other).any b'
  has_iff (b' : Flags) (s : Triple) :
    r'.HasOn l b' s ↔ r.HasOn l b' s ∨ (b.any b' = true ∧ s = t)
  plain : r'.Plain
  old (h : r.HasOn l b t) : r'.listed w = r.listed w
  new (h : ¬ r.HasOn l b t) : r'.listed w = r.listed w ++ [row]
  cursor : (r'.update.queue w).cursor = (r.update.queue w).cursor

namespace Marked

variable {l : Layer} {b b' : Flags} {row : Nat} {s t : Triple} {r r' : Run}

theorem table_eq (h : Marked l w b row t r r') : r'.table = r.table := by
  obtain ⟨_, _, rfl⟩ := h.eq
  rfl

theorem has_of_ne (h : Marked l w b row t r r') (hb : b.any b' = false) :
    r'.HasOn l b' s ↔ r.HasOn l b' s := by
  rw [h.has_iff, hb]
  simp

theorem has_self (h : Marked l w b row t r r') (hb : Bits.IsBit b) :
    r'.HasOn l b s ↔ r.HasOn l b s ∨ s = t := by
  rw [h.has_iff, hb.any_self]
  simp

theorem has_old (h : Marked l w b row t r r') (hb : Bits.IsBit b) (ho : r.HasOn l b t) :
    r'.HasOn l b s ↔ r.HasOn l b s := by
  refine (h.has_self hb).trans ⟨?_, .inl⟩
  rintro (hs | rfl)
  · exact hs
  · exact ho

theorem listed (h : Marked l w b row t r r') : r.listed w <+: r'.listed w := by
  by_cases hb : r.HasOn l b t
  · rw [h.old hb]
  · rw [h.new hb]
    exact List.prefix_append _ _

/-- No queue is taken from. -/
theorem sameCursors (h : Marked l w b row t r r') : r.SameCursors r' := by
  intro w'
  have hcursor := h.cursor
  obtain ⟨m, q, rfl⟩ := h.eq
  cases l <;> cases w <;> cases w' <;> first | exact hcursor | rfl

/-- Only the one work list changes. -/
theorem listed_of_ne (h : Marked l w b row t r r') {w' : WorkList} (hw : w' ≠ w) :
    r'.listed w' = r.listed w' := by
  obtain ⟨m, q, rfl⟩ := h.eq
  cases l <;> cases w <;> cases w' <;> first | exact absurd rfl hw | rfl

/-- A queue goes on listing the facts with the flag. -/
theorem lists (h : Marked l w b row t r r') (hb : Bits.IsBit b) (hf : r.table.fact? row = some t)
    (hl : Lists r.table (r.HasOn l b) (r.listed w)) :
    Lists r'.table (r'.HasOn l b) (r'.listed w) := by
  rw [h.table_eq]
  by_cases ho : r.HasOn l b t
  · rw [h.old ho]
    exact hl.congr fun s => h.has_old hb ho
  · rw [h.new ho]
    exact hl.push hf ho fun s => h.has_self hb

/-- A work list goes on listing the facts with the flag. -/
theorem sorted (h : Marked l w b row t r r') (hb : Bits.IsBit b) (hf : r.table.fact? row = some t)
    {x : RuleIndex} {level : Option Nat} {lowerEnd : Nat} (hat : x.At level t)
    (hle : lowerEnd ≤ (r.listed w).length) (rest : List RowIndex)
    (hs : Sorted r.table x (r.HasOn l b) level lowerEnd (r.listed w ++ rest)) :
    Sorted r'.table x (r'.HasOn l b) level lowerEnd (r'.listed w ++ rest) := by
  rw [h.table_eq]
  by_cases ho : r.HasOn l b t
  · rw [h.old ho]
    exact hs.congr fun s => h.has_old hb ho
  · rw [h.new ho]
    exact hs.insert hle hf hat ho fun s => h.has_self hb

/-- A fact of the level does not matter above it. -/
theorem later (h : Marked l w b row t r r') (hb : Bits.IsBit b) {x : RuleIndex}
    {initially : Array Queue} {level : Option Nat} (hat : x.At level t)
    (hl : Later r.table x initially (r.HasOn l b) level) :
    Later r'.table x initially (r'.HasOn l b) level := by
  rw [h.table_eq]
  refine hl.congr fun s hs => (h.has_self hb).trans ⟨?_, .inl⟩
  rintro (hs' | rfl)
  · exact hs'
  · exact absurd (.inr hat) hs

end Marked

/-- A flag of a fact is set, and its row can be queued if the flag is new. -/
theorem add_wp {l : Layer} {b : Flags} {row : Nat} {t : Triple} {r : Run} (w : WorkList)
    (hb : Bits.IsBit b) (hmerged : b.any l.merged = false) (hp : r.Plain)
    (hf : r.table.fact? row = some t) :
    WP (l.add row b) r fun isNew r₁ =>
      (isNew = false ∧ r.HasOn l b t ∧ Marked l w b row t r r₁) ∨
      (isNew = true ∧ ¬ r.HasOn l b t ∧
        WP (enqueue w row) r₁ fun _ r₂ => Marked l w b row t r r₂) := by
  refine Layer.add_wp hb (hp.row_lt hf) fun m ha => ?_
  have hmarks : ∀ q : Queue, l.marks ((l.withMarks r.update m).withQueue w q) = m := fun q => by
    cases l <;> cases w <;> rfl
  have hhas : ∀ (b' : Flags) (s : Triple) (q : Queue),
      Run.HasOn { r with update := (l.withMarks r.update m).withQueue w q } l b' s ↔
        r.HasOn l b' s ∨ (b.any b' = true ∧ s = t) := fun b' s q => by
    simp only [Run.HasOn, hmarks]
    exact ha.holds_iff hf
  have hflags : ∀ (other : Nat) (b' : Flags) (q : Queue), b.any b' = false →
      ((l.marks ((l.withMarks r.update m).withQueue w q)).flags other).any b' =
        ((l.marks r.update).flags other).any b' := fun other b' q hb' => by
    rw [hmarks, ha.any, hb', Bool.and_false, Bool.or_false]
  have hqueue : (l.withMarks r.update m).queue w = r.update.queue w := by
    cases l <;> cases w <;> rfl
  have hplain := hp.withMarks hf ha hmerged
  have hplain' : ∀ q : Queue,
      ({ r with update := (l.withMarks r.update m).withQueue w q } : Run).Plain := fun q => by
    cases l <;> cases w <;> exact { hplain with }
  cases hnew : ((l.marks r.update).flags row).any b with
  | true =>
    have hhad : r.HasOn l b t := (Table.holds_iff hf).mpr hnew
    have hself : (l.withMarks r.update m).withQueue w (r.update.queue w) = l.withMarks r.update m := by
      rw [← hqueue, Update.withQueue_queue]
    rw [← hself]
    refine .inl ⟨rfl, hhad, ⟨⟨m, _, rfl⟩, fun other b' => hflags other b' _,
      fun b' s => hhas b' s _, hplain' _, fun _ => ?_, fun hno => absurd hhad hno, ?_⟩⟩
    · rw [Run.listed, Update.queue_withQueue]
      rfl
    · rw [Update.queue_withQueue]
  | false =>
    have hnot : ¬ r.HasOn l b t := fun hs => by
      have := (Table.holds_iff hf).mp hs
      rw [hnew] at this
      cases this
    refine .inr ⟨rfl, hnot, enqueue_wp (Table.fact?_bounds hf).1 ?_⟩
    rw [hqueue]
    refine ⟨⟨m, _, rfl⟩, fun other b' => hflags other b' _, fun b' s => hhas b' s _, hplain' _,
      fun hh => absurd hh hnot, fun _ => ?_, ?_⟩
    · rw [Run.listed, Update.queue_withQueue]
      simp [Queue.push, Run.listed]
    · rw [Update.queue_withQueue]
      rfl

/-- The rule for setting a flag of a fact and queueing its row if the flag is new. -/
theorem mark_wp {α : Type} {l : Layer} {b : Flags} {row : Nat} {t : Triple} {r : Run}
    (hb : Bits.IsBit b) (hmerged : b.any l.merged = false) (hp : r.Plain)
    (hf : r.table.fact? row = some t) {k : Bool → Routine α} {Q : α → Run → Prop}
    (h : ∀ isNew r', (isNew = true ↔ ¬ r.HasOn l b t) → Marked l w b row t r r' →
      WP (k isNew) r' Q) :
    WP (do
      let isNew ← l.add row b
      if isNew then enqueue w row
      k isNew) r Q := by
  rw [WP.bind_iff]
  refine (add_wp w hb hmerged hp hf).mono fun isNew r₁ hr₁ => ?_
  rcases hr₁ with ⟨rfl, hhad, hm⟩ | ⟨rfl, hnot, hq⟩
  · exact h false r₁ (by simpa using hhad) hm
  · simp only [if_true, WP.bind_iff]
    exact hq.mono fun _ r₂ hm => h true r₂ (by simpa using hnot) hm

/-- The rule for queueing what another queue, of which nothing was taken, holds. -/
theorem append_wp {other : Queue} {r : Run} (hcursor : other.cursor = 0)
    (hpos : ∀ row ∈ other.values.toList, 0 < row) {Q : Unit → Run → Prop}
    (h : ∀ q : Queue, q.values.toList = r.listed w ++ other.values.toList →
      Q () { r with update := r.update.withQueue w q }) :
    WP (Routine.append w other) r Q := by
  obtain ⟨q, happend, hq⟩ : ∃ q, (r.update.queue w).append other = .ok q ∧
      q.values.toList = r.listed w ++ other.values.toList := by
    refine ⟨_, Queue.append_eq_ok fun row hrow => ?_, ?_⟩
    · exact Nat.pos_iff_ne_zero.mp (hpos row (Array.mem_toList_iff.mpr hrow))
    · rw [Array.toList_appendList, Queue.pending, hcursor, List.drop_zero]
      rfl
  refine ⟨(), _, ?_, h q hq⟩
  simp only [append, happend]

/-- `next` takes the row under the cursor, or answers 0 if there is none at a live place. -/
def Takes (w : WorkList) (live : Nat → Prop) (next : Routine RowIndex) : Prop :=
  ∀ r : Run, r.stopped = false → ∃ polls,
    (∃ row, live (r.update.queue w).cursor ∧
      (r.update.queue w).values[(r.update.queue w).cursor]? = some row ∧
      next r = .ok row (r.moved w ((r.update.queue w).cursor + 1) polls)) ∨
    ((live (r.update.queue w).cursor → (r.update.queue w).values.size ≤ (r.update.queue w).cursor) ∧
      next r = .ok 0 { r with polls })

theorem dequeueBefore_eq (limit : Nat) (r : Run) : dequeueBefore w limit r =
    .ok ((r.update.queue w).dequeueBefore limit).1 { r with
      update := r.update.withQueue w ((r.update.queue w).dequeueBefore limit).2 } := rfl

theorem dequeue_eq (r : Run) : dequeue w r =
    .ok (r.update.queue w).dequeue.1 { r with
      update := r.update.withQueue w (r.update.queue w).dequeue.2 } := rfl

theorem takes_dequeueBefore (limit : Nat) : Takes w (· < limit) (dequeueBefore w limit) := by
  intro r _
  refine ⟨r.polls, ?_⟩
  by_cases hl : limit ≤ (r.update.queue w).cursor
  · refine .inr ⟨fun h => absurd hl (Nat.not_le.mpr h), ?_⟩
    have hq : (r.update.queue w).dequeueBefore limit = (0, r.update.queue w) := if_pos hl
    rw [dequeueBefore_eq, hq, Update.withQueue_queue]
  · cases hv : (r.update.queue w).values[(r.update.queue w).cursor]? with
    | some row =>
      refine .inl ⟨row, Nat.lt_of_not_le hl, rfl, ?_⟩
      have hq : (r.update.queue w).dequeueBefore limit =
          (row, (r.update.queue w).seek ((r.update.queue w).cursor + 1)) := by
        rw [Queue.dequeueBefore, if_neg hl, hv]
        rfl
      rw [dequeueBefore_eq, hq]
      rfl
    | none =>
      refine .inr ⟨fun _ => Array.getElem?_eq_none_iff.mp hv, ?_⟩
      have hq : (r.update.queue w).dequeueBefore limit = (0, r.update.queue w) := by
        rw [Queue.dequeueBefore, if_neg hl, hv]
      rw [dequeueBefore_eq, hq, Update.withQueue_queue]

/-- The end of the list is a limit that no cursor passes. -/
theorem takes_dequeue : Takes w (fun _ => True) (dequeue w) := by
  intro r hr
  have hdequeue : dequeue w r = dequeueBefore w (r.update.queue w).size r := by
    rw [dequeue_eq, dequeueBefore_eq, Queue.dequeueBefore_of_size_le le_rfl]
  rw [hdequeue]
  obtain ⟨polls, ⟨row, -, hrow, hnext⟩ | ⟨hend, hnext⟩⟩ :=
    takes_dequeueBefore (w := w) (r.update.queue w).size r hr
  · exact ⟨polls, .inl ⟨row, trivial, hrow, hnext⟩⟩
  · exact ⟨polls, .inr ⟨fun _ => Nat.le_of_not_lt fun hlt => Nat.not_le.mpr hlt (hend hlt), hnext⟩⟩

theorem Takes.whileRunning (hc : c.stop = .never) (h : Takes w live next) :
    Takes w live (c.whileRunning next) := by
  intro r hr
  obtain ⟨_, r', hrun, rfl, polls, rfl⟩ := Context.isRunning_wp (c := c) (r := r) hc hr
    (Q := fun b r' => b = true ∧ ∃ polls, r' = { r with polls }) fun polls => ⟨rfl, polls, rfl⟩
  obtain ⟨polls', h⟩ := h { r with polls } hr
  refine ⟨polls', ?_⟩
  rcases h with ⟨row, hl, hv, hn⟩ | ⟨hl, hn⟩
  · exact .inl ⟨row, hl, hv, bind_eq_ok.mpr ⟨_, _, hrun, hn⟩⟩
  · exact .inr ⟨hl, bind_eq_ok.mpr ⟨_, _, hrun, hn⟩⟩

/-- The rows of a work list from the place `start` up to the cursor were at live places when they were
taken, and are judged. -/
structure Taken (w : WorkList) (live : Nat → Prop) (start : Nat) (Judged : RowIndex → Run → Prop)
    (r : Run) : Prop where
  start_le : start ≤ (r.update.queue w).cursor
  cursor_le (h : start < (r.update.queue w).cursor) : (r.update.queue w).cursor ≤ (r.listed w).length
  live (place : Nat) (h : start ≤ place) (h' : place < (r.update.queue w).cursor) : live place
  judged (place : Nat) (row : RowIndex) (h : start ≤ place) (h' : place < (r.update.queue w).cursor)
    (hrow : (r.listed w)[place]? = some row) : Judged row r

namespace Taken

variable {live : Nat → Prop} {start : Nat} {Judged : RowIndex → Run → Prop} {r r' : Run} {row : RowIndex}

theorem begin (hstart : (r.update.queue w).cursor = start) : Taken w live start Judged r :=
  ⟨hstart.ge, fun h => absurd hstart.le (Nat.not_le.mpr h), fun _ h h' => by omega,
    fun _ _ h h' => by omega⟩

theorem polled (h : Taken w live start Judged r) {polls : Nat}
    (hkeep : ∀ row, Judged row r → Judged row { r with polls }) :
    Taken w live start Judged { r with polls } :=
  ⟨h.start_le, h.cursor_le, h.live, fun place row h₁ h₂ h₃ => hkeep row (h.judged place row h₁ h₂ h₃)⟩

/-- The row under the cursor is taken and judged. -/
theorem step (h : Taken w live start Judged r) (hl : live (r.update.queue w).cursor)
    (hv : (r.listed w)[(r.update.queue w).cursor]? = some row)
    (hcursor : (r'.update.queue w).cursor = (r.update.queue w).cursor + 1)
    (hlisted : r.listed w <+: r'.listed w) (hrow : Judged row r')
    (hother : ∀ other ∈ r.listed w, Judged other r → Judged other r') :
    Taken w live start Judged r' := by
  have hle := h.start_le
  have hlt := (List.getElem?_eq_some_iff.mp hv).1
  obtain ⟨more, hmore⟩ := hlisted
  refine ⟨by omega, fun _ => ?_, fun place h₁ h₂ => ?_, fun place row' h₁ h₂ h₃ => ?_⟩
  · rw [hcursor, ← hmore, List.length_append]
    omega
  · rw [hcursor] at h₂
    rcases Nat.lt_or_eq_of_le (Nat.le_of_lt_succ h₂) with hlt' | rfl
    · exact h.live place h₁ hlt'
    · exact hl
  · rw [hcursor] at h₂
    rw [← hmore, List.getElem?_append_left (by omega)] at h₃
    rcases Nat.lt_or_eq_of_le (Nat.le_of_lt_succ h₂) with hlt' | rfl
    · exact hother row' (List.mem_of_getElem? h₃) (h.judged place row' h₁ hlt' h₃)
    · rw [hv] at h₃
      cases h₃
      exact hrow

/-- When no row is left at a live place, all of them are judged. -/
theorem judged_of_end (h : Taken w live start Judged r)
    (hlive : ∀ place place', live place' → place < place' → live place)
    (hend : live (r.update.queue w).cursor → (r.listed w).length ≤ (r.update.queue w).cursor)
    {place : Nat} (h₁ : start ≤ place) (h₂ : live place) (h₃ : (r.listed w)[place]? = some row) :
    Judged row r := by
  refine h.judged place row h₁ (Nat.lt_of_not_le fun hge => ?_) h₃
  have hcursor : live (r.update.queue w).cursor := by
    rcases Nat.lt_or_eq_of_le hge with hlt | heq
    · exact hlive _ _ h₂ hlt
    · exact heq ▸ h₂
  exact Nat.not_lt.mpr ((hend hcursor).trans hge) (List.getElem?_eq_some_iff.mp h₃).1

end Taken

section workOff

variable {handle : RowIndex → β → Routine β} (live : Nat → Prop) (start : Nat)
  (hnext : Takes w live next) (Inv : β → Run → Prop) (Judged : RowIndex → Run → Prop) {N : Nat}
  (hrun : ∀ b r, Inv b r → r.stopped = false)
  (hlist : ∀ b r, Inv b r → (r.listed w).length ≤ N ∧ ∀ row ∈ r.listed w, 0 < row)
  (hmove : ∀ b r cursor polls, Inv b r →
    Inv b (r.moved w cursor polls) ∧ ∀ row, Judged row r → Judged row (r.moved w cursor polls))
  (hstep : ∀ b r place row, Inv b r → start ≤ place → live place →
    (r.listed w)[place]? = some row →
    WP (handle row b) r fun b' r' => Inv b' r' ∧
      (r'.update.queue w).cursor = (r.update.queue w).cursor ∧ r.listed w <+: r'.listed w ∧
      Judged row r' ∧ ∀ other ∈ r.listed w, Judged other r → Judged other r')

include hnext hrun hlist hmove hstep

/-- Working off a queue until it answers that no row is left at a live place. -/
theorem drain_wp (fuel : Nat) {b : β} {r : Run}
    (hfuel : N < fuel + ((r.update.queue w).cursor - start)) (h : Inv b r)
    (ht : Taken w live start Judged r) :
    WP (drain next handle fuel b) r fun b' r' => Inv b' r' ∧ Taken w live start Judged r' ∧
      (live (r'.update.queue w).cursor → (r'.listed w).length ≤ (r'.update.queue w).cursor) := by
  induction fuel generalizing b r with
  | zero =>
    have hle := ht.start_le
    have hcursor := ht.cursor_le
    have hbound := (hlist b r h).1
    omega
  | succ fuel ih =>
    obtain ⟨polls, hn⟩ := hnext r (hrun b r h)
    rw [drain, WP.bind_iff]
    rcases hn with ⟨row, hl, hv, hn⟩ | ⟨hl, hn⟩
    · refine ⟨row, _, hn, ?_⟩
      have hv : (r.listed w)[(r.update.queue w).cursor]? = some row := by
        rwa [Run.listed, Array.getElem?_toList]
      have hpos : ¬ row = 0 := Nat.pos_iff_ne_zero.mp
        ((hlist b r h).2 row (List.mem_of_getElem? hv))
      dsimp only
      rw [if_neg hpos, WP.bind_iff]
      obtain ⟨hmoved, hkeep⟩ := hmove b r ((r.update.queue w).cursor + 1) polls h
      have hlisted : (r.moved w ((r.update.queue w).cursor + 1) polls).listed w = r.listed w := by
        rw [Run.listed, Run.queue_moved]
        rfl
      refine (hstep b _ _ row hmoved ht.start_le hl (by rwa [hlisted])).mono ?_
      rintro b' r' ⟨h', hcursor, hprefix, hrow, hother⟩
      rw [Run.queue_moved] at hcursor
      rw [hlisted] at hprefix hother
      have hcursor : (r'.update.queue w).cursor = (r.update.queue w).cursor + 1 := hcursor
      refine ih ?_ h' (ht.step hl hv hcursor hprefix hrow fun other hm hj =>
        hother other hm (hkeep other hj))
      have hle := ht.start_le
      omega
    · have hself := hmove b r (r.update.queue w).cursor polls h
      rw [Run.moved_self] at hself
      refine ⟨0, _, hn, WP.pure_iff.mpr ⟨hself.1, ht.polled hself.2, fun hl' => ?_⟩⟩
      rw [Run.listed, Array.length_toList]
      exact hl hl'

/-- Working off a queue: the invariant is kept, and every row at a live place that was not yet taken
is judged in the end. The cursor ends behind the live places. -/
theorem workOff_wp (hlive : ∀ place place', live place' → place < place' → live place)
    (fuel : Nat) {b : β} {r : Run} (hfuel : N < fuel) (h : Inv b r)
    (hstart : (r.update.queue w).cursor = start) :
    WP (drain next handle fuel b) r fun b' r' => Inv b' r' ∧
      (∀ place row, start ≤ place → live place → (r'.listed w)[place]? = some row →
        Judged row r') ∧
      (live (r'.update.queue w).cursor → (r'.listed w).length ≤ (r'.update.queue w).cursor) ∧
      start ≤ (r'.update.queue w).cursor ∧
      ∀ place, start ≤ place → place < (r'.update.queue w).cursor →
        live place ∧ place < (r'.listed w).length := by
  refine (drain_wp live start hnext Inv Judged hrun hlist hmove hstep fuel (by omega) h
    (.begin hstart)).mono ?_
  rintro b' r' ⟨h', ht, hend⟩
  exact ⟨h', fun _ _ h₁ h₂ h₃ => ht.judged_of_end hlive hend h₁ h₂ h₃, hend, ht.start_le,
    fun place h₁ h₂ => ⟨ht.live place h₁ h₂, h₂.trans_le (ht.cursor_le (h₁.trans_lt h₂))⟩⟩

end workOff

end Routine

/-! ## Queues between two levels -/

/-- The rows that a level has still to take over from its own queue. -/
def pending (initially : Array Queue) : Option Nat → List RowIndex
  | none => []
  | some level => ((initially[level]?).getD .empty).values.toList

/-- Before a level is worked off, a work list and the queue of the level list the facts of which `S`
holds, up to the level. -/
structure Run.Awaits (r : Run) (x : RuleIndex) (w : WorkList) (initially : Array Queue)
    (S : Triple → Prop) (level : Option Nat) (lowerEnd : Nat) : Prop where
  sorted : Sorted r.table x S level lowerEnd (r.listed w ++ pending initially level)
  later : Later r.table x initially S level
  lowerEnd_le : lowerEnd ≤ (r.listed w).length
  seeded (l : Nat) (h : level = some l) : ∃ q, initially[l]? = some q ∧ q.cursor = 0

end Entail
