import Entail.Proofs.Maintenance.Calm
import Entail.Proofs.Termination.Bound
import Entail.Proofs.Termination.Search

/-!
# The searches of a level

While the facts of a level are checked, rows stay marked as examined from one check to the next,
whatever the deletions between them do (`Search.Level`). So no row is examined twice
(`Search.Level.underway`), and with the bound of the level every check comes to an end
(`Search.check_ends`).
-/

namespace Entail.Search

variable {c : Context} {task : DeletionTask} {K : Finset Nat} {r r' r'' : Run} {row : RowIndex}
    {t : Triple}
  {rows rows' : List RowIndex}

/-! ## What a check examines -/

variable (c task) in
/-- The search of `check`, before what was examined in vain is marked. -/
def examine (row : RowIndex) (t : Triple) : Routine Bool := do
  modify fun r => { r with checks := r.checks + 1, checked := #[] }
  let known ←
    if ← takeUp row then
      begin c task row t
      pure false
    else
      skip c t
      let interrupted ← Routine.reads fun r => !r.examinations.isEmpty
      if interrupted then pure false else allProved c row t
  let waiting ← Routine.reads fun r => r.examinations.length
  conclude c task (2 * task.budget + waiting + 1) known

theorem check_eq_examine : check c task row t = (do
    let proved ← examine c task row t
    markDisproved c
    pure proved) := by
  simp only [check, examine, bind_assoc]
  refine bind_congr fun _ => bind_congr fun taken => ?_
  cases taken with
  | true => simp only [↓reduceIte, bind_assoc]
  | false =>
    simp only [Bool.false_eq_true, ↓reduceIte, bind_assoc]
    refine bind_congr fun _ => bind_congr fun interrupted => ?_
    cases interrupted <;> simp only [Bool.false_eq_true, ↓reduceIte, bind_assoc]

variable (c task) in
/-- The rows for which a check from `r` on looks for a proof, whether it succeeds or fails. -/
def examined (row : RowIndex) (t : Triple) (r : Run) : List RowIndex :=
  match examine c task row t r with
  | .ok _ r' => r'.checked.toList
  | .error _ r' => r'.checked.toList

/-- A search goes on from where one left off. -/
theorem Underway.trans (h : Underway K r rows r') (h' : Underway K r' rows' r'') :
    Underway K r (rows ++ rows') r'' := by
  have hkept : ∀ row ∈ rows, Lane.proved.marked Flag.Level.checked r'' row = true := fun row hrow =>
    h'.keeps row (h.marked row hrow)
  refine ⟨h'.fact, h'.steady, h'.proving, h'.holds, h'.waiting_le.trans h.waiting_le,
    fun row hrow => h'.keeps row (h.keeps row hrow), ?_, fun row hrow => ?_, fun row hrow => ?_⟩
  · refine List.nodup_append.mpr ⟨h.nodup, h'.nodup, fun row hrow row' hrow' he => ?_⟩
    -- what was examined first is marked when the search goes on
    have hm := h.marked row hrow
    rw [he, h'.unmarked row' hrow'] at hm
    cases hm
  · rcases List.mem_append.mp hrow with hrow | hrow
    · exact h.unmarked row hrow
    · exact Bool.eq_false_iff.mpr fun hm => Bool.eq_false_iff.mp (h'.unmarked row hrow) (h.keeps row hm)
  · exact (List.mem_append.mp hrow).elim (hkept row) (h'.marked row)

/-- A check that has looked at nothing yet. -/
theorem Underway.amid (h : Underway K r [] r) (checks : Nat) :
    Amid K r r.examinations [] { r with checks, checked := #[] } :=
  ⟨{ h with holds := fun e he => (h.holds e he).mono fun _ _ => id }, rfl, rfl⟩

section check

variable (hc : c.Names K)

include hc

/-- A search examines fresh rows only, and leaves no examination behind if it succeeds. -/
theorem examine_ends (hr : Underway K r [] r) (hf : r.table.fact? row = some t)
    (hcard : K.card ^ 3 < task.budget)
    (hwaiting : Lane.proved.waiting (K.card ^ 3) .proved r < task.budget) :
    Ends (examine c task row t) r (fun _ r' => Amid K r [] (examined c task row t r) r')
      fun f r' => f ≠ .exhausted ∧ Underway K r (examined c task row t r) r' := by
  have hconclude : ∀ {l rows r'} known, Amid K r l rows r' → Ends (do
      let waiting ← Routine.reads fun r => r.examinations.length
      conclude c task (2 * task.budget + waiting + 1) known) r'
      (fun _ r' => Amid K r [] r'.checked.toList r') (Breaks K r) := fun {l rows r'} known hr' => by
    refine Ends.bind_iff.mpr (conclude_ends hc hwaiting _ known hr' ?_)
    simp only [turns]
    omega
  have hends : Ends (examine c task row t) r (fun _ r' => Amid K r [] r'.checked.toList r')
      (Breaks K r) := by
    refine Ends.bind_iff.mpr (Ends.modify_iff.mpr ?_)
    have hstart := hr.amid (r.checks + 1)
    refine Ends.bind_iff.mpr ((takeUp_fresh hc hstart hf).mono (fun taken r₁ h₁ => ?_) fun _ _ => id)
    obtain ⟨hr₁, ha₁, hfresh⟩ := h₁
    refine .ite (fun htaken => ?_) fun _ => ?_
    · have hrow : Fresh r r₁ row t := (hfresh htaken).mono id
      refine Ends.bind_iff.mpr ((begin_ends hc hr₁ hrow hwaiting).mono (fun _ r₂ h₂ => ?_) fun _ _ => id)
      exact Ends.bind_iff.mpr (hconclude false h₂.1.choose_spec)
    · have hb := Amid.bears hc r r.examinations []
      refine Ends.bind_iff.mpr ((skip_bears hb r₁ hr₁).mono (fun _ r₂ hr₂ => ?_) fun _ _ => id)
      refine Ends.bind_iff.mpr (Ends.ite (fun _ => Ends.bind_iff.mpr (hconclude false hr₂)) fun _ => ?_)
      exact Ends.bind_iff.mpr ((allProved_bears hb r₂ hr₂).mono (fun known _ => hconclude known)
        fun _ _ => id)
  rw [examined]
  rw [Ends] at hends ⊢
  cases hx : examine c task row t r <;> rw [hx] at hends <;> exact hends

/-- A check examines fresh rows only, and leaves no examination behind if it succeeds. -/
theorem check_underway (hr : Underway K r [] r) (hf : r.table.fact? row = some t)
    (hcard : K.card ^ 3 < task.budget)
    (hwaiting : Lane.proved.waiting (K.card ^ 3) .proved r < task.budget) :
    Ends (check c task row t) r
      (fun _ r' => Underway K r (examined c task row t r) r' ∧ r'.examinations = [])
      fun f r' => f ≠ .exhausted ∧ Underway K r (examined c task row t r) r' := by
  rw [check_eq_examine]
  refine Ends.bind_iff.mpr ((examine_ends hc hr hf hcard hwaiting).mono (fun _ r₁ hr₁ => ?_)
    fun _ _ => id)
  exact Ends.bind_iff.mpr (markDisproved_ends hc hr₁)

end check

/-! ## Levels -/

/-- Between two checks facts may be deleted and be queued for deletion, but nothing is done to the
table, the classes and what the checks have found. -/
structure Pauses (r r' : Run) : Prop where
  table : r'.table = r.table
  steady : r'.steady = r.steady
  proving : r'.proving = r.proving
  examinations : r'.examinations = r.examinations
  levelFlags : r'.update.levelFlags = r.update.levelFlags
  proved : r'.update.proved = r.update.proved

/-- Checks of a level that started in `r`: facts of the table are checked one after the other, whether
that succeeds or fails. The rows for which the checks looked for a proof are given. -/
inductive Level (c : Context) (task : DeletionTask) (r : Run) : List RowIndex → Run → Prop
  | start : Level c task r [] r
  | pause {rows : List RowIndex} {r' r'' : Run} (h : Level c task r rows r') (hp : Pauses r' r'') :
      Level c task r rows r''
  | check {rows : List RowIndex} {r' r'' : Run} {row : RowIndex} {t : Triple} (h : Level c task r rows r')
      (hf : r'.table.fact? row = some t)
      (hend : Ends (check c task row t) r' (fun _ => (· = r'')) fun _ => (· = r'')) :
      Level c task r (rows ++ examined c task row t r') r''

/-- The facts have no wildcards in them, both kinds of classes list their members, and the
examinations are ones of facts of the table. -/
structure Ready (r : Run) : Prop where
  fact (row : RowIndex) (t : Triple) (hf : r.table.fact? row = some t) (p : Position) : t.get p ≠ 0
  steady : r.steady.Listed
  proving : r.proving.Listed
  holds (e : Examination) (h : e ∈ r.examinations) : e.Holds r

/-- A search may start over. -/
theorem Underway.restart (h : Underway K r rows r') : Underway K r' [] r' :=
  ⟨h.fact, h.steady, h.proving, h.holds, le_rfl, fun _ => id, .nil, nofun, nofun⟩

theorem Underway.pause (h : Underway K r rows r') (hp : Pauses r' r'') : Underway K r rows r'' := by
  have hmarked : ∀ b row, Lane.proved.marked b r'' row = Lane.proved.marked b r' row := fun b row => by
    simp only [Lane.marked, Lane.proved, Layer.marks, hp.levelFlags]
  have hwaiting : Lane.proved.waiting (K.card ^ 3) .proved r'' =
      Lane.proved.waiting (K.card ^ 3) .proved r' := by
    simp only [Lane.waiting, Lane.count, hmarked, hp.table, Update.queue, hp.proved]
  refine ⟨by rw [hp.table]; exact h.fact, hp.steady ▸ h.steady, hp.proving ▸ h.proving, fun e he => ?_,
    hwaiting ▸ h.waiting_le, fun row hrow => (hmarked _ row).trans (h.keeps row hrow),
    h.nodup, h.unmarked,
    fun row hrow => (hmarked _ row).trans (h.marked row hrow)⟩
  rw [hp.examinations] at he
  exact (h.holds e he).mono fun row t hf => by rwa [hp.table]

theorem Ready.underway (hr : Ready r) : Underway (c.ids r) r [] r :=
  ⟨Context.over_ids hr.fact, Context.steady_ids hr.steady, Context.proving_ids hr.proving,
    hr.holds, le_rfl,
    fun _ => id, .nil, nofun, nofun⟩

/-- The checks of a level examine different rows. -/
theorem Level.underway (hc : c.Names K) (hr : Underway K r [] r) (hcard : K.card ^ 3 < task.budget)
    (hwaiting : Lane.proved.waiting (K.card ^ 3) .proved r < task.budget) (hl : Level c task r rows r') :
    Underway K r rows r' := by
  induction hl with
  | start => exact hr
  | pause _ hp ih => exact ih.pause hp
  | check _ hf hend ih =>
    have hchecks := check_underway hc ih.restart hf hcard (ih.waiting_le.trans_lt hwaiting)
    rw [Ends] at hchecks hend
    split at hchecks <;> rename_i heq <;> rw [heq] at hend <;> subst hend
    · exact ih.trans hchecks.1
    · exact ih.trans hchecks.2

/-! ## Deletions -/

theorem Pauses.refl (r : Run) : Pauses r r := ⟨rfl, rfl, rfl, rfl, rfl, rfl⟩

theorem Pauses.of_queue {w : WorkList} (hw : w ≠ .proved) (q : Queue) :
    Pauses r { r with update := r.update.withQueue w q } := by
  cases w with
  | proved => exact absurd rfl hw
  | deleted => exact { refl r with }
  | added => exact { refl r with }

section deletion

variable {P : Run → Prop} (hP : ∀ r r', P r → Pauses r r' → P r')

include hP

/-- Facts may be deleted and be queued for deletion between checks. -/
theorem Pauses.addFlags_within (row : RowIndex) (set : Flags) :
    Within P (fun _ => P) (Routine.addFlags row set) := fun r h =>
  Routine.addFlags_ends (fun _ _ => hP r _ h { refl r with }) fun _ _ => h

theorem Pauses.announce_within (e : Event) : Within P (fun _ => P) (c.announce e) := fun r h =>
  Context.announce_frame fun _ _ _ _ => hP r _ h { refl r with }

theorem Pauses.bears : DeletionTask.Bears c P fun _ => P where
  keeps r r' h he := he ▸ h
  fails _ _ h _ := h
  stops r _ h := hP r _ h { refl r with }
  announce e _ := announce_within hP e
  addFlags row set _ := addFlags_within hP row set
  enqueue row r h := by
    simp only [Ends, Routine.enqueue]
    cases (r.update.queue .deleted).enqueue row with
    | ok q => exact hP r _ h (.of_queue (w := .deleted) nofun q)
    | error e => exact h
  dequeue w hw r h := hP r _ h (.of_queue hw _)
  dequeueBefore limit r h := hP r _ h (.of_queue (w := .deleted) nofun _)
  isRunning r h := Ends.modifyGet_iff.mpr (hP r _ h { refl r with })
  checkReflexivity id kind r h := Ends.modifyGet_iff.mpr (hP r _ h { refl r with })

/-- A fact stays in its row between two checks. -/
theorem Pauses.with_fact (row : RowIndex) (t : Triple) (r r' : Run) (h : P r ∧ r.table.fact? row = some t)
    (hp : Pauses r r') : P r' ∧ r'.table.fact? row = some t :=
  ⟨hP r r' h.1 hp, hp.table ▸ h.2⟩

end deletion

variable (c task) in
/-- From `r` to `r'` facts of a level are checked, and may be deleted. -/
def Reaches (r r' : Run) : Prop := ∃ rows, Level c task r rows r'

theorem Reaches.pause (h : Reaches c task r r') (hp : Pauses r' r'') : Reaches c task r r'' :=
  h.imp fun _ hl => hl.pause hp

theorem Reaches.check (h : Reaches c task r r') (hf : r'.table.fact? row = some t) :
    Ends (check c task row t) r' (fun _ => Reaches c task r) fun _ => Reaches c task r := by
  obtain ⟨rows, hl⟩ := h
  have hcheck : ∀ r'', Ends (Search.check c task row t) r' (fun _ => (· = r'')) (fun _ => (· = r'')) →
      Reaches c task r r'' := fun r'' hend => ⟨_, hl.check hf hend⟩
  rw [Ends]
  cases hx : Search.check c task row t r' with
  | ok kept r'' => exact hcheck r'' (by rw [Ends, hx])
  | error f r'' => exact hcheck r'' (by rw [Ends, hx])

theorem judge_reaches (r : Run) (row : RowIndex) : Within (Reaches c task r) (fun _ => Reaches c task r)
    (task.judge c (check c task) row) := by
  have hpause : ∀ r' r'', Reaches c task r r' → Pauses r' r'' → Reaches c task r r'' :=
    fun _ _ h => h.pause
  have hb := Pauses.bears (c := c) hpause
  intro r₁ hr₁
  refine Ends.bind_iff.mpr (hb.factOf_ends hr₁ fun t hf => ?_)
  have hfact := Pauses.with_fact hpause row t
  refine Ends.bind_iff.mpr ((Pauses.announce_within (c := c) hfact _ r₁ ⟨hr₁, hf⟩).mono
    (fun _ r₂ h₂ => ?_)
    fun _ _ h => h.1)
  refine Ends.bind_iff.mpr ((h₂.1.check h₂.2).mono (fun kept r₃ hr₃ => ?_) fun _ _ => id)
  have hjudged : Within (Reaches c task r) (fun _ => Reaches c task r)
      (c.announce (.deletionJudged t (!kept))) :=
    Pauses.announce_within hpause _
  have hdelete : Within (Reaches c task r) (fun _ => Reaches c task r) (do
      c.announce (.deletionPropagationStarted t)
      task.propagate c row t
      discard <| Routine.addFlags row Flag.Update.deleted
      c.announce .deletionPropagationFinished
      c.announce (.deletionJudged t (!kept))) :=
    .bind (hb.announce _ rfl) fun _ => .bind (DeletionTask.propagate_within hb) fun _ =>
      .bind (.discard (Pauses.addFlags_within hpause row _)) fun _ =>
        .bind (hb.announce _ rfl) fun _ => hjudged
  exact Within.ite (fun _ => hdelete) (fun _ => hjudged) r₃ hr₃

/-- Working off the rows queued for deletion is nothing but checks of facts of the table, and what may
be done between them. -/
theorem run_reaches (r : Run) : Within (Reaches c task r) (fun _ => Reaches c task r)
    (task.run c (check c task)) := by
  have hb : DeletionTask.Bears c (Reaches c task r) fun _ => Reaches c task r :=
    Pauses.bears fun _ _ h => h.pause
  have hjudgeAll : Within (Reaches c task r) (fun _ => Reaches c task r)
      (Routine.orStop (task.judgeAll c (check c task))) := by
    refine hb.orStop (.bind (hb.announce _ rfl) fun _ => .bind (hb.drain (.bind hb.isRunning fun _ => ?_)
      (fun row _ => judge_reaches r row) _ _) fun _ => hb.announce _ rfl)
    exact .ite (fun _ => hb.dequeue .deleted nofun) fun _ => .pure _
  exact .ite (fun _ => .bind (hb.orStop (DeletionTask.replay_within hb)) fun _ => hjudgeAll)
    fun _ => hjudgeAll

/-! ## The outcome -/

/-- The check of a fact comes to an end for want of no steps, and as it does with any greater bound.
If it succeeds, no examination is left over, and the checks of a level examine different rows. -/
theorem check_ends {rules : List Rule} {byLevels : Bool} (hb : RuleIndex.Builds rules byLevels c.rules)
    (hp : ∀ rule ∈ rules, rule.Parsed) (hr : Ready r) (hbudget : c.budget r ≤ task.budget)
    (hl : Level c task r rows r') (hf : r'.table.fact? row = some t) :
    Ends (check c task row t) r' (fun _ r'' => r''.examinations = []) (fun f _ => f ≠ .exhausted) ∧
      (∀ n, task.budget ≤ n → check c { task with budget := n } row t r' = check c task row t r') ∧
      (rows ++ examined c task row t r').Nodup ∧
      ∀ other ∈ rows ++ examined c task row t r',
        (r.levelFlags other).any Flag.Level.checked = false := by
  have hc : c.Names (c.ids r) := Context.names_ids hb hp
  have hroom := Context.card_ids_lt (c := c) (r := r) .proved
  have hwaiting : Lane.proved.waiting ((c.ids r).card ^ 3) .proved r < task.budget := by
    simp only [Lane.waiting, Lane.proved, if_pos, Queue.unprocessed]
    omega
  have hlevel : Underway (c.ids r) r rows r' := hl.underway hc hr.underway (by omega) hwaiting
  have hends := check_underway hc hlevel.restart hf (by omega) (hlevel.waiting_le.trans_lt hwaiting)
  refine ⟨hends.mono (fun _ _ h => h.2) fun _ _ h => h.1, fun n hn => (check_extends hn).eq hends, ?_⟩
  have hrows : ∀ r'', Underway (c.ids r) r' (examined c task row t r') r'' →
      (rows ++ examined c task row t r').Nodup ∧ ∀ other ∈ rows ++ examined c task row t r',
        (r.levelFlags other).any Flag.Level.checked = false := fun r'' h =>
    ⟨(hlevel.trans h).nodup, (hlevel.trans h).unmarked⟩
  rw [Ends] at hends
  split at hends
  · exact hrows _ hends.1
  · exact hrows _ hends.2

/-- Of two resources that were merged, one has nothing but itself to be equal to. -/
theorem check_ends_functional :
    let c : Context :=
      { dictionary := .vocabulary, rules := functionalIndex, mode := { equality := .noUna } }
    let r : Run :=
      { table := [⟨4, 5, 6⟩, ⟨6, 2, 6⟩, ⟨6, 5, 8⟩].foldl
          (fun t fact => (t.add fact Status.derived).2) .empty
        steady := .mergeAll [(7, 6)] }
    let task : DeletionTask := ⟨none, 0, false, c.budget r⟩
    Ends (check c task 2 ⟨6, 2, 6⟩) r (fun _ r' => r'.examinations = []) (fun f _ => f ≠ .exhausted) ∧
      (∀ n, task.budget ≤ n →
        check c { task with budget := n } 2 ⟨6, 2, 6⟩ r = check c task 2 ⟨6, 2, 6⟩ r) ∧
      ([] ++ examined c task 2 ⟨6, 2, 6⟩ r).Nodup ∧
      ∀ other ∈ [] ++ examined c task 2 ⟨6, 2, 6⟩ r,
        (r.levelFlags other).any Flag.Level.checked = false := by
  refine check_ends (show RuleIndex.Builds [functional] false functionalIndex from rfl)
    (fun _ hr => List.mem_singleton.mp hr ▸ parsed_functional) ⟨fun row t hf => ?_, ?_, ?_, nofun⟩
      le_rfl .start ?_
  · exact Table.get_ne_zero_of_addAll (by decide) (by decide) hf
  · exact (Classes.listed_mergeAll _ (by decide)).1
  · exact Classes.listed_discrete
  · have hfacts := Table.facts_addAll (t := .empty) [⟨4, 5, 6⟩, ⟨6, 2, 6⟩, ⟨6, 5, 8⟩] Status.derived
      (by decide)
    rw [Table.fact?_succ, ← Array.getElem?_toList, hfacts]
    rfl

end Entail.Search
