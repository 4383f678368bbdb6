import Entail.Proofs.Classes.Confined
import Entail.Proofs.Maintenance.Budget
import Entail.Proofs.Maintenance.Idle

/-!
# Queues that come to an end

A row is put into a queue only when a flag of it is newly set (`Lane`). So a queue grows by different
rows that did not have the flag before (`Lane.Advances`), and what waits in the queue, together with
the rows that may still get the flag, does not become more (`Lane.Advances.waiting_le`). As long as
the ids of all facts are from a finite set, there are only so many rows, and taking one after the
other comes to an end (`Routine.drain_ends`).
-/

namespace Entail

/-! ## Facts over a finite set of ids -/

/-- A set of ids of resources has those of the vocabulary and the constants of the heads of rules. -/
structure Context.Names (c : Context) (K : Finset Nat) : Prop where
  nonzero : 0 ∉ K
  vocabulary : rdfTypeId ∈ K ∧ sameAsId ∈ K ∧ nothingId ∈ K
  constant (rule : Nat) (i : IndexedRule) (hi : c.rules.rules[rule]? = some i) (a : Atom)
    (ha : a ∈ i.rule.head) (id : Nat) (hid : id ∈ a.constants) : id ∈ K

theorem Context.Names.inter {c : Context} {K K' : Finset Nat} (h : c.Names K) (h' : c.Names K') :
    c.Names (K ∩ K') := by
  have hmem : ∀ {id}, id ∈ K → id ∈ K' → id ∈ K ∩ K' := fun hid hid' => Finset.mem_inter.mpr ⟨hid, hid'⟩
  exact ⟨fun h0 => h.nonzero (Finset.mem_inter.mp h0).1, ⟨hmem h.vocabulary.1 h'.vocabulary.1,
    hmem h.vocabulary.2.1 h'.vocabulary.2.1, hmem h.vocabulary.2.2 h'.vocabulary.2.2⟩,
    fun rule i hi a ha id hid =>
      hmem (h.constant rule i hi a ha id hid) (h'.constant rule i hi a ha id hid)⟩

theorem Triple.over_mk {K : Nat → Prop} {s p o : Nat} (hs : K s) (hp : K p) (ho : K o) :
    Triple.Over K ⟨s, p, o⟩ := fun q => by cases q <;> assumption

theorem Triple.over_reflexive {K : Nat → Prop} {id : Nat} (h : K sameAsId) (hid : K id) :
    (reflexive id).Over K := over_mk hid h hid

theorem Classes.Confined.normalizeTriple {c : Classes} {K : Finset Nat} (h : c.Confined K) {t : Triple}
    (ht : t.Over (· ∈ K)) :
    (c.normalizeTriple t).Over (· ∈ K) := fun p => by
  rw [Classes.get_normalizeTriple]
  exact h.normalize_mem _ (ht p)

/-- There are not more facts over a set than triples of its ids. -/
theorem length_le_of_over {K : Finset Nat} {l : List Triple} (hl : l.Nodup)
    (h : ∀ t ∈ l, t.Over (· ∈ K)) : l.length ≤ K.card ^ 3 := by
  let all := (K ×ˢ K ×ˢ K).image fun p => (⟨p.1, p.2.1, p.2.2⟩ : Triple)
  have hsub : l.toFinset ⊆ all := fun t ht => by
    have hw := h t (List.mem_toFinset.mp ht)
    refine Finset.mem_image.mpr ⟨(t.subject, t.predicate, t.object), ?_, rfl⟩
    simp only [Finset.mem_product]
    exact ⟨hw .subject, hw .predicate, hw .object⟩
  calc l.length = l.toFinset.card := (List.toFinset_card_of_nodup hl).symm
    _ ≤ all.card := Finset.card_le_card hsub
    _ ≤ (K ×ˢ K ×ˢ K).card := Finset.card_image_le
    _ = K.card ^ 3 := by
      simp only [Finset.card_product, Nat.pow_succ, Nat.pow_zero, Nat.one_mul, Nat.mul_assoc]

/-- A table over a set of ids has at most so many rows. -/
theorem Table.size_le_of_over {T : Table} {K : Finset Nat}
    (h : ∀ row t, T.fact? row = some t → t.Over (· ∈ K)) : T.size ≤ K.card ^ 3 :=
  size_le_of_forall (U := Triple.Over (· ∈ K)) (fun _ => length_le_of_over) h

namespace Context

variable {c : Context} {r : Run}

/-- The ids that the tasks come across. -/
def ids (c : Context) (r : Run) : Finset Nat := Finset.Icc 1 (c.maxId r)

theorem mem_ids {id : Nat} : id ∈ c.ids r ↔ id ≠ 0 ∧ id ≤ c.maxId r := by
  rw [ids, Finset.mem_Icc, Nat.one_le_iff_ne_zero]

/-- There are less facts over the ids of a run than rows that its queues have room for. -/
theorem card_ids_lt (w : WorkList) : (r.update.queue w).size + (c.ids r).card ^ 3 < c.budget r := by
  have hle : (c.ids r).card ^ 3 ≤ c.factBound r := by
    rw [ids, Nat.card_Icc]
    exact Nat.pow_le_pow_left (Nat.le_succ _) 3
  rw [budget]
  cases w <;> simp only [Update.queue] <;> omega

theorem names_ids {rules : List Rule} {byLevels : Bool} (hb : RuleIndex.Builds rules byLevels c.rules)
    (hp : ∀ rule ∈ rules, rule.Parsed) : c.Names (c.ids r) := by
  have hvocabulary : ∀ id, id ≠ 0 → id ≤ nothingId → id ∈ c.ids r := fun id h0 hle =>
    mem_ids.mpr ⟨h0, hle.trans (le_maxId (by simp only [List.mem_cons, true_or]))⟩
  refine ⟨fun h => (mem_ids.mp h).1 rfl, ⟨hvocabulary _ (by decide) (by decide),
    hvocabulary _ (by decide) (by decide), hvocabulary _ (by decide) le_rfl⟩,
    fun rule i hi a ha id hid => ?_⟩
  have hatom : a ∈ i.rule.atoms := List.mem_append_left _ ha
  exact mem_ids.mpr ⟨(hp _ (hb.rule_mem hi).1).constant_ne_zero hatom hid,
    constant_le (Array.mem_toList_iff.mpr (Array.mem_of_getElem? hi)) hatom hid⟩

theorem over_ids (h : ∀ row t, r.table.fact? row = some t → ∀ p, t.get p ≠ 0)
    (row : RowIndex) (t : Triple)
    (hf : r.table.fact? row = some t) : t.Over (· ∈ c.ids r) := fun p =>
  mem_ids.mpr ⟨h row t hf p, within_of_fact hf p⟩

theorem steady_ids (h : r.steady.Listed) : r.steady.Confined (c.ids r) :=
  .of_le h (le_maxId (by simp only [List.mem_cons, true_or, or_true]))

theorem proving_ids (h : r.proving.Listed) : r.proving.Confined (c.ids r) :=
  .of_le h (le_maxId (by simp only [List.mem_cons, true_or, or_true]))

end Context

/-! ## Taking rows until there are none -/

/-- What is taken out of a queue: its values stay, and there is one less to take. -/
structure Queue.Takes (q : Queue) (row : RowIndex) (q' : Queue) : Prop where
  values : q'.values = q.values
  cursor : q.cursor ≤ q'.cursor
  unprocessed (h : row ≠ 0) : q'.unprocessed < q.unprocessed

namespace Queue

variable {q : Queue}

theorem takes_dequeue (q : Queue) : q.Takes q.dequeue.1 q.dequeue.2 := by
  rw [dequeue]
  split
  · rename_i hrow
    have hlt := (Array.getElem?_eq_some_iff.mp hrow).1
    refine ⟨rfl, Nat.le_succ _, fun _ => ?_⟩
    simp only [unprocessed, size]
    omega
  · exact ⟨rfl, Nat.le_refl _, fun h => absurd rfl h⟩

theorem takes_dequeueBefore (q : Queue) (limit : Nat) :
    q.Takes (q.dequeueBefore limit).1 (q.dequeueBefore limit).2 := by
  rw [dequeueBefore]
  split
  · exact ⟨rfl, Nat.le_refl _, fun h => absurd rfl h⟩
  · exact q.takes_dequeue

end Queue

/-- A row is taken out of a work list. -/
def Routine.TakesFrom (w : WorkList) (next : Routine RowIndex) : Prop :=
  ∀ r, ∃ row q, next r = .ok row { r with update := r.update.withQueue w q } ∧
    (r.update.queue w).Takes row q

theorem Routine.takesFrom_dequeue (w : WorkList) : TakesFrom w (dequeue w) := fun r =>
  ⟨_, _, rfl, (r.update.queue w).takes_dequeue⟩

theorem Routine.takesFrom_dequeueBefore (w : WorkList) (limit : Nat) :
    TakesFrom w (dequeueBefore w limit) :=
  fun r => ⟨_, _, rfl, (r.update.queue w).takes_dequeueBefore limit⟩

/-- Taking rows comes to an end if that makes less of `μ`, and what is done with a row does not make
more of it. -/
theorem Routine.drain_ends {β : Type} {P : Run → Prop} {E : Failure → Run → Prop} {μ : Run → Nat}
    {next : Routine RowIndex} {handle : RowIndex → β → Routine β}
    (hnext : ∀ r, P r → Ends next r (fun row r' => P r' ∧ (row ≠ 0 → μ r' < μ r)) E)
    (hstep : ∀ row b r, P r → Ends (handle row b) r (fun _ r' => P r' ∧ μ r' ≤ μ r) E) (fuel : Nat)
    (b : β) {r : Run} (hr : P r) (hfuel : μ r < fuel) :
    Ends (drain next handle fuel b) r (fun _ => P) E := by
  induction fuel generalizing b r with
  | zero => omega
  | succ fuel ih =>
    refine Ends.bind_iff.mpr ((hnext r hr).mono (fun row r₁ h₁ => ?_) fun _ _ => id)
    refine .ite (fun _ => h₁.1) fun hrow => ?_
    refine Ends.bind_iff.mpr ((hstep row b r₁ h₁.1).mono (fun b' r₂ h₂ => ?_) fun _ _ => id)
    have := h₁.2 hrow
    exact ih b' h₂.1 (by omega)

/-! ## Queues and the flags of their rows -/

namespace Update

variable (u : Update) {w w' : WorkList} {l l' : Layer} (q : Queue) (m : Marks)

theorem queue_withQueue_of_ne (h : w ≠ w') : (u.withQueue w q).queue w' = u.queue w' := by
  revert h
  cases w <;> cases w' <;> first | exact fun _ => rfl | exact fun h => absurd rfl h

@[simp] theorem marks_withQueue : l.marks (u.withQueue w q) = l.marks u := by
  cases l <;> cases w <;> rfl

@[simp] theorem queue_withMarks : (l.withMarks u m).queue w = u.queue w := by
  cases l <;> cases w <;> rfl

@[simp] theorem marks_withMarks : l.marks (l.withMarks u m) = m := by
  cases l <;> rfl

theorem marks_withMarks_of_ne (h : l ≠ l') : l'.marks (l.withMarks u m) = l'.marks u := by
  revert h
  cases l <;> cases l' <;> first | exact fun _ => rfl | exact fun h => absurd rfl h

end Update

/-- A work list with the flag that a row has once it was put into it. -/
structure Lane where
  list : WorkList
  layer : Layer
  flag : Flags

namespace Lane

/-- The facts to be added. -/
def added : Lane := ⟨.added, .update, Flag.Update.addedNew⟩

/-- The facts that are proved at a level. -/
def proved : Lane := ⟨.proved, .level, Flag.Level.provedNew⟩

variable (q : Lane)

/-- Whether a row has a flag in the layer of a lane. -/
def marked (b : Flags) (r : Run) (row : RowIndex) : Bool := ((q.layer.marks r.update).flags row).any b

/-- The number of rows with a flag. -/
def count (b : Flags) (r : Run) : Nat :=
  ((Finset.Icc 1 r.table.size).filter fun row => q.marked b r row = true).card

/-- What is still to be taken out of a work list and, if it is that of the lane, how many of `n` rows
may still be put into it. -/
def waiting (n : Nat) (w : WorkList) (r : Run) : Nat :=
  (r.update.queue w).unprocessed + if w = q.list then n - q.count q.flag r else 0

/-- From `r` to `r'` some rows were put into the queue that did not have the flag, each of them once. -/
structure Enters (r r' : Run) (rows : List RowIndex) : Prop where
  listed : r'.listed q.list = r.listed q.list ++ rows
  nodup : rows.Nodup
  unmarked (row : RowIndex) (h : row ∈ rows) : q.marked q.flag r row = false
  marked (row : RowIndex) (h : row ∈ rows) : q.marked q.flag r' row = true
  stored (row : RowIndex) (h : row ∈ rows) : ∃ t, r'.table.fact? row = some t

/-- From `r` to `r'` no fact loses its row and no flag is cleared, rows enter the queue as they get the
flag of it, and nothing is put into other queues or put back. -/
structure Advances (r r' : Run) : Prop where
  fact (row : RowIndex) (t : Triple) (h : r.table.fact? row = some t) : r'.table.fact? row = some t
  marked (b : Flags) (row : RowIndex) (h : q.marked b r row = true) : q.marked b r' row = true
  enters : ∃ rows, q.Enters r r' rows
  others (w : WorkList) (h : w ≠ q.list) : (r'.update.queue w).values = (r.update.queue w).values
  cursor (w : WorkList) : (r.update.queue w).cursor ≤ (r'.update.queue w).cursor

variable {q} {r r' r'' : Run} {b : Flags} {row : RowIndex} {t : Triple} {n : Nat}

theorem count_le_size (q : Lane) (b : Flags) (r : Run) : q.count b r ≤ r.table.size :=
  (Finset.card_filter_le _ _).trans_eq (Nat.card_Icc 1 _)

theorem waiting_lt {w : WorkList} {taken : Queue} (h : (r.update.queue w).Takes row taken)
    (hrow : row ≠ 0) :
    q.waiting n w { r with update := r.update.withQueue w taken } < q.waiting n w r := by
  have hless := h.unprocessed hrow
  have hmarked : ∀ other, q.marked q.flag { r with update := r.update.withQueue w taken } other =
      q.marked q.flag r other := fun other => by rw [Lane.marked, Update.marks_withQueue, Lane.marked]
  have hcount : q.count q.flag { r with update := r.update.withQueue w taken } = q.count q.flag r := by
    simp only [count, hmarked]
  simp only [waiting, hcount, Update.queue_withQueue]
  omega

theorem enters_nil (h : (r'.update.queue q.list).values = (r.update.queue q.list).values) :
    q.Enters r r' [] :=
  ⟨by rw [List.append_nil, Run.listed, Run.listed, h], .nil, by simp, by simp, by simp⟩

namespace Advances

theorem of_update_eq (ht : ∀ row t, r.table.fact? row = some t → r'.table.fact? row = some t)
    (hu : r'.update = r.update) : q.Advances r r' := by
  refine ⟨ht, fun b row h => ?_, ⟨[], enters_nil ?_⟩, fun w _ => by rw [hu], fun w => by rw [hu]⟩
  · rwa [Lane.marked, hu]
  · rw [hu]

theorem refl (q : Lane) (r : Run) : q.Advances r r := of_update_eq (fun _ _ => id) rfl

/-- A row without a flag did not have it before. -/
theorem unmarked (h : q.Advances r r') (hn : q.marked b r' row = false) : q.marked b r row = false := by
  by_contra hm
  rw [h.marked b row (Bool.not_eq_false _ ▸ hm)] at hn
  cases hn

theorem trans (h : q.Advances r r') (h' : q.Advances r' r'') : q.Advances r r'' := by
  obtain ⟨rows, hrows⟩ := h.enters
  obtain ⟨rows', hrows'⟩ := h'.enters
  refine ⟨fun row t hf => h'.fact row t (h.fact row t hf),
    fun b row hb => h'.marked b row (h.marked b row hb),
    ⟨rows ++ rows', ?_⟩, fun w hw => (h'.others w hw).trans (h.others w hw),
    fun w => (h.cursor w).trans (h'.cursor w)⟩
  refine ⟨?_, List.nodup_append.mpr ⟨hrows.nodup, hrows'.nodup, fun row hrow row' hrow' he => ?_⟩,
    fun row hrow => ?_, fun row hrow => ?_, fun row hrow => ?_⟩
  · rw [hrows'.listed, hrows.listed, List.append_assoc]
  · -- what was put in first has the flag already
    have hm := hrows.marked row hrow
    rw [he, hrows'.unmarked row' hrow'] at hm
    cases hm
  · rcases List.mem_append.mp hrow with hrow | hrow
    · exact hrows.unmarked row hrow
    · exact h.unmarked (hrows'.unmarked row hrow)
  · rcases List.mem_append.mp hrow with hrow | hrow
    · exact h'.marked _ row (hrows.marked row hrow)
    · exact hrows'.marked row hrow
  · rcases List.mem_append.mp hrow with hrow | hrow
    · obtain ⟨t, ht⟩ := hrows.stored row hrow
      exact ⟨t, h'.fact row t ht⟩
    · exact hrows'.stored row hrow

theorem size_le (h : q.Advances r r') : r.table.size ≤ r'.table.size := by
  rcases Nat.eq_zero_or_pos r.table.size with h0 | hpos
  · omega
  · obtain ⟨t, ht⟩ := Table.exists_fact? hpos le_rfl
    exact (Table.fact?_bounds (h.fact _ t ht)).2

theorem filter_subset (h : q.Advances r r') (b : Flags) :
    ((Finset.Icc 1 r.table.size).filter fun row => q.marked b r row = true) ⊆
      (Finset.Icc 1 r'.table.size).filter fun row => q.marked b r' row = true := by
  intro row hrow
  rw [Finset.mem_filter, Finset.mem_Icc] at hrow ⊢
  exact ⟨⟨hrow.1.1, hrow.1.2.trans h.size_le⟩, h.marked b row hrow.2⟩

theorem count_le (h : q.Advances r r') (b : Flags) : q.count b r ≤ q.count b r' :=
  Finset.card_le_card (h.filter_subset b)

/-- Another row has the flag. -/
theorem count_lt (h : q.Advances r r') (hf : r'.table.fact? row = some t) (hn : q.marked b r row = false)
    (hm : q.marked b r' row = true) : q.count b r < q.count b r' := by
  refine Finset.card_lt_card
    (Finset.ssubset_iff_of_subset (h.filter_subset b) |>.mpr ⟨row, ?_, fun hmem => ?_⟩)
  · rw [Finset.mem_filter, Finset.mem_Icc]
    exact ⟨Table.fact?_bounds hf, hm⟩
  · rw [Finset.mem_filter, hn] at hmem
    cases hmem.2

theorem count_add_length_le (h : q.Advances r r') {rows : List RowIndex} (hrows : q.Enters r r' rows) :
    q.count q.flag r + rows.length ≤ q.count q.flag r' := by
  rw [← List.toFinset_card_of_nodup hrows.nodup, count, count, ← Finset.card_union_of_disjoint]
  · refine Finset.card_le_card (Finset.union_subset (h.filter_subset _) fun row hrow => ?_)
    have hrow := List.mem_toFinset.mp hrow
    obtain ⟨t, ht⟩ := hrows.stored row hrow
    rw [Finset.mem_filter, Finset.mem_Icc]
    exact ⟨Table.fact?_bounds ht, hrows.marked row hrow⟩
  · refine Finset.disjoint_left.mpr fun row hmem hrow => ?_
    rw [Finset.mem_filter, hrows.unmarked row (List.mem_toFinset.mp hrow)] at hmem
    cases hmem.2

/-- What is put into the queue was among the rows that could get the flag. -/
theorem waiting_le (h : q.Advances r r') (hn : r'.table.size ≤ n) (w : WorkList) :
    q.waiting n w r' ≤ q.waiting n w r := by
  have hcursor := h.cursor w
  simp only [waiting, Queue.unprocessed, Queue.size]
  split
  · rename_i hw
    subst hw
    obtain ⟨rows, hrows⟩ := h.enters
    have hcount := h.count_add_length_le hrows
    have hle := q.count_le_size q.flag r'
    have hsize : (r'.update.queue q.list).values.size =
        (r.update.queue q.list).values.size + rows.length := by
      rw [← Array.length_toList, ← Array.length_toList, ← List.length_append]
      exact congrArg List.length hrows.listed
    omega
  · rename_i hw
    rw [h.others w hw]
    omega

/-- Flags are set in a layer. -/
theorem of_marks {l : Layer} {set : Flags} {m : Marks} (h : (l.marks r.update).Adds row set m) :
    q.Advances r { r with update := l.withMarks r.update m } := by
  refine ⟨fun _ _ => id, fun b other hb => ?_, ⟨[], enters_nil ?_⟩, fun w _ => ?_, fun w => ?_⟩
  · rw [Lane.marked] at hb ⊢
    by_cases hl : l = q.layer
    · subst hl
      rw [Update.marks_withMarks, h.any, hb, Bool.true_or]
    · rwa [Update.marks_withMarks_of_ne _ _ hl]
  · simp
  · simp
  · simp

/-- Something is taken out of a queue. -/
theorem of_takes {w : WorkList} {taken : Queue} (h : (r.update.queue w).Takes row taken) :
    q.Advances r { r with update := r.update.withQueue w taken } := by
  have hqueue : ∀ w', ((r.update.withQueue w taken).queue w').values = (r.update.queue w').values ∧
      (r.update.queue w').cursor ≤ ((r.update.withQueue w taken).queue w').cursor := by
    intro w'
    by_cases he : w = w'
    · subst he
      rw [Update.queue_withQueue]
      exact ⟨h.values, h.cursor⟩
    · rw [Update.queue_withQueue_of_ne _ _ he]
      exact ⟨rfl, le_rfl⟩
  refine ⟨fun _ _ => id, fun b other hb => ?_, ⟨[], enters_nil (hqueue _).1⟩, fun w' _ => (hqueue w').1,
    fun w' => (hqueue w').2⟩
  rwa [Lane.marked, Update.marks_withQueue]

/-- A row gets the flag that it did not have, and is put into the queue. -/
theorem of_enter {m : Marks} (hm : (q.layer.marks r.update).Adds row q.flag m) (hbit : Bits.IsBit q.flag)
    (hf : r.table.fact? row = some t) (hn : q.marked q.flag r row = false) :
    q.Advances r { r with
      update := (q.layer.withMarks r.update m).withQueue q.list ((r.update.queue q.list).push row) } := by
  have hmarks : ∀ (b : Flags) other, (m.flags other).any b =
      (((q.layer.marks r.update).flags other).any b || (row == other && q.flag.any b)) := fun b other =>
    hm.any b other
  refine ⟨fun _ _ => id, fun b other hb => ?_, ⟨[row], ?_, by simp, ?_, ?_, ?_⟩,
    fun w hw => ?_, fun w => ?_⟩
  · rw [Lane.marked] at hb ⊢
    simp [hmarks, hb]
  · simp [Run.listed, Queue.push]
  · simpa using hn
  · simp [Lane.marked, hmarks, hbit.any_self]
  · simpa using ⟨t, hf⟩
  · rw [Update.queue_withQueue_of_ne _ _ hw.symm, Update.queue_withMarks]
  · by_cases he : q.list = w
    · subst he
      rw [Update.queue_withQueue]
      exact le_rfl
    · rw [Update.queue_withQueue_of_ne _ _ he, Update.queue_withMarks]

end Advances

end Lane

end Entail
