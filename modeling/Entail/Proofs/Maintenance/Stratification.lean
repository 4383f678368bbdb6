import Entail.Proofs.Maintenance.Discipline

/-!
# Tasks keep to their level

Without equality the tasks of a level queue facts of that level only: a rule of the level concludes
facts of the level, and the base facts that were changed wait in the queues of their levels. So whichever
strategy is used and whenever the run is stopped, the work lists keep to their levels while the levels are
worked off (`Maintenance.updateLevel_wlp`), and the parts that the levels have of them are what the ends
say after an update (`Maintenance.update_wlp`).
-/

namespace Entail

open Changes (Side)

variable {c : Context} {rules : List Rule} {level : Nat} {taken : Side → Nat} {r r' : Run} {t : Triple}
  {row : RowIndex} {P : Run → Prop}

/-- The rules are applied level by level. -/
structure Context.ByLevels (c : Context) (rules : List Rule) : Prop where
  usesLevels : c.mode.usesLevels = true
  builds : RuleIndex.Builds rules true c.rules

namespace Context.ByLevels

theorem equality (h : c.ByLevels rules) : c.mode.equality.enabled = false := by
  have hu := h.usesLevels
  rw [Mode.usesLevels, Bool.and_eq_true, Bool.not_eq_true'] at hu
  exact hu.2

theorem steady?_eq (h : c.ByLevels rules) (r : Run) : c.steady? r = none := by
  rw [steady?, h.equality]
  rfl

/-- Rules of a level conclude facts of that level. -/
theorem acceptsHeads (h : c.ByLevels rules) {consume : Triple → Routine Unit}
    {accepts : Run → Role → Occurrence → RowIndex → Status → Bool}
    (hc : ∀ head, c.rules.componentLevel head = level → Preserves P (consume head))
    {i : IndexedRule} {rule : Nat} (hi : (i, rule) ∈ c.rules.inScope (.ofLevel (some level))) :
    RuleIndex.AcceptsHeads P (fun _ _ => True) (c.view accepts) (fun _ head => consume head) i rule := by
  intro s τ head hs hhead
  have hclasses : (c.view accepts).classes s = none := h.steady?_eq s
  rw [hclasses] at hhead
  refine (hc head ?_).within s hs
  rw [h.builds.componentLevel_of_concludes (h.builds.rule_mem (RuleIndex.mem_inScope.mp hi).1).1 hhead]
  exact RuleIndex.Builds.level_of_mem_inScope hi

/-- Applying the rules of a level keeps what handling facts of the level keeps, whatever rows are accepted. -/
theorem applyToPositive_preserves (h : c.ByLevels rules) {scope : Scope}
    (hscope : scope = .ofLevel (some level)) {consume : Triple → Routine Unit}
    {accepts : Run → Role → Occurrence → RowIndex → Status → Bool}
    (hc : ∀ head, c.rules.componentLevel head = level → Preserves P (consume head)) :
    Preserves P (c.rules.applyToPositive (c.view accepts) row t scope fun _ head => consume head) := by
  subst hscope
  exact (RuleIndex.applyToPositive_within (fun _ _ _ _ => trivial) rfl
    fun i rule hi => h.acceptsHeads hc hi).preserves

theorem applyToNegation_preserves (h : c.ByLevels rules) {scope : Scope}
    (hscope : scope = .ofLevel (some level)) {consume : Triple → Routine Unit}
    {accepts : Run → Role → Occurrence → RowIndex → Status → Bool}
    (hc : ∀ head, c.rules.componentLevel head = level → Preserves P (consume head)) :
    Preserves P (c.rules.applyToNegation (c.view accepts) t scope fun _ head => consume head) := by
  subst hscope
  exact (RuleIndex.applyToNegation_within (fun _ _ _ _ => trivial) rfl
    fun i rule hi => h.acceptsHeads hc hi).preserves

end Context.ByLevels

/-- The queue of the level is taken over by the work list of a side. -/
theorem Disciplined.append_wlp {x : RuleIndex} {q : Queue} {taken' : Side → Nat} (s : Side)
    (h : Disciplined x level taken r) (htaken : taken s = level)
    (htaken' : taken' s = level + 1) (hother : ∀ s' ≠ s, taken' s' = taken s')
    (hq : (s.byLevel r.update)[level]? = some q) :
    WLP (Routine.append s.work q) r fun _ => Disciplined x level taken' := by
  have hs := h s
  rw [htaken] at hs
  have hw := hs.waits level q le_rfl hq
  have hpos : ∀ row ∈ q.values.toList, 0 < row := fun row hr => by
    obtain ⟨-, t, hf, -⟩ := hw.flagged row hr
    exact (Table.fact?_bounds hf).1
  refine (Routine.append_wp hw.cursor hpos fun q' hq' s' => ?_).wlp
  by_cases he : s' = s
  · subst he
    rw [htaken']
    exact hs.takeOver hq hq'
  · rw [hother s' he]
    refine (h s').quiet ⟨fun _ _ => id, fun _ => ?_, ?_, ?_, ?_, ?_⟩ <;>
      cases s <;> cases s' <;> first | exact absurd rfl he | rfl

namespace Changes

/-! ## Retractions and assertions -/

/-- A fact is flagged on a side, and waits in the queue of its level if the flag is new. -/
theorem flag_wlp (hu : c.mode.usesLevels = true) (h : Disciplined c.rules 0 (fun _ => 0) r) (s : Side)
    (hf : r.table.fact? row = some t) :
    WLP (do if ← Routine.addFlags row s.flag then queue c s.work s.byLevel s.withByLevel row t) r
      fun _ => Disciplined c.rules 0 fun _ => 0 := by
  rw [WLP.bind_iff]
  refine Routine.addFlags_wlp fun m ha => ?_
  rw [s.isBit_flag.or_bne]
  cases hnew : (r.flags row).any s.flag with
  | true => exact WLP.pure_iff.mpr (Disciplined.stable _ _ h (Run.quiet_of_flagged ha hnew))
  | false =>
    rw [Bool.not_false, if_pos rfl, queue, hu]
    simp only [Bool.not_true, Bool.false_eq_true, if_false, WLP.bind_iff]
    refine Routine.demand_wlp fun q hq => ?_
    have hby : s.byLevel ({ r.update with flags := m } : Update) = s.byLevel r.update := by
      cases s <;> rfl
    rw [hby] at hq
    rw [Queue.enqueue]
    split
    · exact WLP.throw _
    refine WLP.pure_iff.mpr (WLP.modify_iff.mpr fun s' => ?_)
    have hrun : ∀ r₂ : Run, r₂ = r.withParts s m (r.update.queue s.work)
        ((s.byLevel r.update).setIfInBounds (c.rules.componentLevel t) (q.push row)) →
        s'.Levels c.rules 0 0 r₂ := by
      rintro _ rfl
      by_cases hs : s' = s
      · subst hs
        exact (h s').seed hf hq hnew ha (Nat.zero_le _)
      · exact (h s').quiet (Run.quietOn_withParts ha Array.size_setIfInBounds hs)
    exact hrun _ (by cases s <;> rfl)

variable (h : c.ByLevels rules)

include h

theorem retractOne_preserves : Preserves (Disciplined c.rules 0 fun _ => 0) (retractOne c t) := by
  intro r hr
  rw [retractOne, WLP.bind_iff]
  refine (Routine.reads_wp ?_).wlp
  split
  · exact WLP.pure_iff.mpr hr
  rename_i row hrow
  have hf := Table.index?_eq_some_iff.mp hrow
  rw [WLP.bind_iff]
  refine (Routine.updateStatus_wp hf fun T hT => ?_).wlp
  have hr₁ : Disciplined c.rules 0 (fun _ => 0) { r with table := T } :=
    Disciplined.stable _ _ hr (.of_table fun other u hu => by rwa [hT.fact?_eq])
  refine WLP.ite (fun _ => ?_) fun _ => WLP.pure_iff.mpr hr₁
  rw [WLP.bind_iff, standIn, WLP.bind_iff]
  refine (Routine.reads_wp ?_).wlp
  rw [h.steady?_eq]
  refine WLP.pure_iff.mpr (WLP.bind_iff.mpr ?_)
  exact (flag_wlp h.usesLevels hr₁ .deletion (show T.fact? row = some t by rwa [hT.fact?_eq])).mono
    fun _ _ hr₂ => WLP.pure_iff.mpr hr₂

theorem assertOne_preserves : Preserves (Disciplined c.rules 0 fun _ => 0) (assertOne c t) := by
  intro r hr
  rw [assertOne, WLP.bind_iff]
  refine (Routine.store_wp Bits.isBit_asserted fun row T hT => ?_).wlp
  have hr₁ : Disciplined c.rules 0 (fun _ => 0) { r with table := T } :=
    Disciplined.stable _ _ hr (.of_table hT.keeps)
  refine WLP.ite (fun _ => ?_) fun _ => WLP.pure_iff.mpr hr₁
  rw [WLP.bind_iff]
  exact (flag_wlp h.usesLevels hr₁ .addition (show T.fact? row = some t from hT.fact?)).mono
    fun _ _ hr₂ => WLP.pure_iff.mpr hr₂

/-- The base facts that are changed wait in the queues of their levels. -/
theorem retract_preserves (facts : List Triple) :
    Preserves (Disciplined c.rules 0 fun _ => 0) (retract c facts) := by
  refine .bind (.foldlM (fun t _ n => .bind (retractOne_preserves h) fun _ => ?_) _) fun _ =>
    .bind (Disciplined.stable.note _) fun _ => .pure _
  exact .ite (fun _ => .pure _) fun _ => .pure _

theorem assert_preserves (facts : List Triple) :
    Preserves (Disciplined c.rules 0 fun _ => 0) (assert c facts) := by
  refine .bind (.foldlM (fun t _ n => .bind (assertOne_preserves h) fun _ => ?_) _) fun _ =>
    .bind (Disciplined.stable.note _) fun _ => .pure _
  exact .ite (fun _ => .pure _) fun _ => .pure _

end Changes

/-! ## Deletion -/

/-- Which queues of base facts are taken over when the deletion of a level starts. -/
def Changes.Side.deletionTaken (level : Nat) : Side → Nat
  | deletion => level + 1
  | addition => level

namespace DeletionTask

variable {task : DeletionTask}

theorem delete_preserves (hl : c.rules.componentLevel t = level) :
    Preserves (Disciplined c.rules level taken) (delete c t) := by
  intro r hr
  rw [delete, WLP.bind_iff]
  refine (Routine.reads_wp ?_).wlp
  split
  · exact WLP.throw _
  · exact hr.mark_wlp .deletion (Table.index?_eq_some_iff.mp ‹_›) hl fun _ => Disciplined.stable.announce _

/-- The facts retracted at a level are queued. -/
theorem start_wlp (hr : Disciplined c.rules level (fun _ => level) r) (width : Nat) :
    WLP (start c (some level) width) r fun task r' =>
      task.level = some level ∧ Disciplined c.rules level (Side.deletionTaken level) r' := by
  have hstable : Run.Stable (Disciplined c.rules level (Side.deletionTaken level)) := Disciplined.stable
  rw [start, WLP.bind_iff]
  refine (Routine.reads_wp (WLP.bind_iff.mpr (Routine.demand_wlp fun retracted hq => ?_))).wlp
  have happend : WLP (Routine.append .deleted retracted) r fun _ =>
      Disciplined c.rules level (Side.deletionTaken level) :=
    hr.append_wlp .deletion rfl rfl (fun s hs => by cases s <;> first | exact absurd rfl hs | rfl) hq
  refine WLP.bind_iff.mpr (happend.mono fun _ r₁ hr₁ => ?_)
  refine WLP.bind_iff.mpr (WLP.pure_iff.mpr (WLP.bind_iff.mpr ?_))
  refine (hstable.seek _ _ r₁ hr₁).mono fun _ r₂ hr₂ => WLP.ite (fun _ => WLP.bind_iff.mpr
    ((hstable.seek _ _ r₂ hr₂).mono fun _ r₂ hr₂ => ?_)) fun _ => ?_
  all_goals
    refine WLP.bind_iff.mpr (WLP.modify_iff.mpr (WLP.bind_iff.mpr (Routine.reads_wp ?_).wlp))
    exact WLP.pure_iff.mpr ⟨rfl, hstable _ _ hr₂ (.of_eq rfl rfl)⟩

variable (h : c.ByLevels rules) (htask : task.level = some level)

include h htask

theorem propagate_preserves : Preserves (Disciplined c.rules level taken) (task.propagate c row t) := by
  have hscope : task.scope = .ofLevel (some level) := by rw [scope, htask]
  refine .bind (fun r hr => ?_) fun _ => .ite (fun _ => ?_) fun _ => .pure _
  · rw [propagateEquality, WLP.bind_iff]
    refine (Routine.reads_wp ?_).wlp
    rw [h.steady?_eq]
    exact WLP.pure_iff.mpr hr
  · exact h.applyToPositive_preserves hscope fun _ => delete_preserves

theorem replay_preserves : Preserves (Disciplined c.rules level taken) (task.replay c) := by
  have hscope : task.scope = .ofLevel (some level) := by rw [scope, htask]
  have hstable : Run.Stable (Disciplined c.rules level taken) := Disciplined.stable
  refine .bind (hstable.announce _) fun _ => .bind ?_ fun _ => .ite (fun _ => ?_) fun _ => .pure _
  · refine Routine.drain_preserves (hstable.dequeueBefore _ _) (fun row _ => ?_) _ _
    refine .bind (Routine.reads_preserves _) fun _ => .ite (fun _ => ?_) fun _ => .pure _
    refine .bind (Routine.factOf_preserves row) fun t => ?_
    exact h.applyToPositive_preserves hscope fun _ => delete_preserves
  · refine Routine.drain_preserves (hstable.dequeue _) (fun row _ => ?_) _ _
    refine .bind (Routine.reads_preserves _) fun _ => .ite (fun _ => ?_) fun _ => .pure _
    refine .bind (Routine.factOf_preserves row) fun t => ?_
    exact h.applyToNegation_preserves hscope fun _ => delete_preserves

/-- However queued facts are checked, the task queues facts of its level. -/
theorem run_preserves {check : RowIndex → Triple → Routine Bool}
    (hcheck : ∀ row t, Preserves (Disciplined c.rules level taken) (check row t)) :
    Preserves (Disciplined c.rules level taken) (task.run c check) := by
  have hstable : Run.Stable (Disciplined c.rules level taken) := Disciplined.stable
  have hjudge : ∀ row, Preserves (Disciplined c.rules level taken) (task.judge c check row) := by
    refine fun row => .bind (Routine.factOf_preserves row) fun t => .bind (hstable.announce _) fun _ =>
      .bind (hcheck row t) fun kept => .ite (fun _ => ?_) fun _ => hstable.announce _
    refine .bind (hstable.announce _) fun _ => .bind (propagate_preserves h htask) fun _ => ?_
    refine .bind (.discard (hstable.addFlags row fun s => ?_)) fun _ =>
      .bind (hstable.announce _) fun _ => hstable.announce _
    cases s <;> rfl
  have hall : Preserves (Disciplined c.rules level taken) (Routine.orStop (task.judgeAll c check)) := by
    refine Routine.orStop_preserves (.bind (hstable.announce _) fun _ => .bind ?_ fun _ =>
      hstable.announce _)
    exact Routine.drain_preserves (hstable.whileRunning (hstable.dequeue _)) (fun row _ => hjudge row) _ _
  exact .ite (fun _ => .bind (Routine.orStop_preserves (replay_preserves h htask)) fun _ => hall)
    fun _ => hall

end DeletionTask

namespace Search

variable (h : c.ByLevels rules)

include h

/-- What has lost its support at a level is deleted, after a search for proofs. -/
theorem delete_wlp (hr : Disciplined c.rules level (fun _ => level) r) :
    WLP (delete c (some level)) r fun _ => Disciplined c.rules level (Side.deletionTaken level) := by
  have hstable : Run.Stable (Disciplined c.rules level fun _ => level) := Disciplined.stable
  have hstable' : Run.Stable (Disciplined c.rules level (Side.deletionTaken level)) := Disciplined.stable
  refine WLP.bind_iff.mpr ((hstable.announce _ r hr).mono fun _ r₁ hr₁ => ?_)
  refine WLP.bind_iff.mpr (WLP.bind_iff.mpr ((DeletionTask.start_wlp hr₁ 3).mono ?_))
  rintro task r₂ ⟨htask, hr₂⟩
  have hr₂' : Disciplined c.rules level (Side.deletionTaken level)
      { r₂ with checks := 0, examinations := [] } := hstable' r₂ _ hr₂ (.of_eq rfl rfl)
  refine WLP.bind_iff.mpr (WLP.modify_iff.mpr (WLP.pure_iff.mpr (WLP.bind_iff.mpr ?_)))
  refine (DeletionTask.run_preserves h htask (fun _ _ => check_preserves hstable') _ hr₂').mono
    fun _ r₃ hr₃ => ?_
  exact Preserves.bind (Routine.reads_preserves _) (fun _ => .bind (hstable'.note _) fun _ =>
    .bind (hstable'.announce _) fun _ => .pure _) r₃ hr₃

end Search

namespace Rederivation

/-- What may have lost its support at a level is deleted. -/
theorem delete_wlp (h : c.ByLevels rules) (hr : Disciplined c.rules level (fun _ => level) r) :
    WLP (delete c (some level)) r fun _ => Disciplined c.rules level (Side.deletionTaken level) := by
  have hstable : Run.Stable (Disciplined c.rules level fun _ => level) := Disciplined.stable
  have hstable' : Run.Stable (Disciplined c.rules level (Side.deletionTaken level)) := Disciplined.stable
  refine WLP.bind_iff.mpr ((hstable.announce _ r hr).mono fun _ r₁ hr₁ => ?_)
  refine WLP.bind_iff.mpr ((DeletionTask.start_wlp hr₁ 1).mono ?_)
  rintro task r₂ ⟨htask, hr₂⟩
  refine WLP.bind_iff.mpr ((DeletionTask.run_preserves h htask (fun _ _ => .pure false) _ hr₂).mono
    fun _ r₃ hr₃ => hstable'.announce _ r₃ hr₃)

/-- The row that is taken next from the deleted facts, and all behind it, are of the level or higher. -/
def Beyond (x : RuleIndex) (level : Nat) (r : Run) : Prop :=
  ∀ (i row : Nat) (t : Triple), (r.update.queue .deleted).cursor ≤ i → (r.listed .deleted)[i]? = some row →
    r.table.fact? row = some t → level ≤ x.componentLevel t

theorem Beyond.of_quietOn {x : RuleIndex} (hb : Beyond x level r) (hr : Disciplined x level taken r)
    (hq : r.QuietOn .deletion r')
    (hcursor : (r.update.queue .deleted).cursor ≤ (r'.update.queue .deleted).cursor) :
    Beyond x level r' := by
  intro i row t hi hrow hf
  have hrow : (r.listed .deleted)[i]? = some row := by rw [← hrow]; exact congrArg (·[i]?) hq.listed.symm
  obtain ⟨-, u, hu, -⟩ := (hr .deletion).flagged row (List.mem_of_getElem? hrow)
  obtain rfl : u = t := Option.some.inj ((hq.fact? row u hu).symm.trans hf)
  exact hb i row u (hcursor.trans hi) hrow hu

/-- A deleted fact of the level may be put back. -/
theorem consider_wlp {x : RuleIndex} {n : Nat} (hr : Disciplined x level taken r) (hb : Beyond x level r)
    (hrow : row ∈ r.listed .deleted) (hlevel : ∀ t, r.table.fact? row = some t → level ≤ x.componentLevel t) :
    WLP (consider c row n) r fun _ r' => Disciplined x level taken r' ∧ Beyond x level r' := by
  refine WLP.bind_iff.mpr (Routine.reads_wp ?_).wlp
  refine WLP.ite (fun _ => WLP.pure_iff.mpr ⟨hr, hb⟩) fun _ => WLP.bind_iff.mpr (Routine.reads_wp ?_).wlp
  split
  · exact WLP.pure_iff.mpr ⟨hr, hb⟩
  rename_i status t hknown
  have hf : r.table.fact? row = some t := by
    rw [Table.row?, Option.map_eq_some_iff] at hknown
    obtain ⟨u, hu, he⟩ := hknown
    cases he
    exact hu
  have hl : x.componentLevel t = level := by
    obtain ⟨-, u, hu, hle⟩ := (hr .deletion).flagged row hrow
    rw [hf] at hu
    cases hu
    exact Nat.le_antisymm hle (hlevel t hf)
  have hput : ∀ kept : Bool, WLP (if !kept then pure n else do
      if !(← Routine.addFlags row Flag.Update.addedNew) then pure n
      else
        Routine.enqueue .added row
        c.announce (.rederived t)
        pure (n + 1) : Routine Nat) r fun _ r' => Disciplined x level taken r' ∧ Beyond x level r' := by
    intro kept
    refine WLP.ite (fun _ => WLP.pure_iff.mpr ⟨hr, hb⟩) fun _ => WLP.bind_iff.mpr ?_
    refine (hr.addFlags_wlp .addition hf hl).mono fun isNew r₁ hr₁ => ?_
    rcases hr₁ with ⟨rfl, hr₁, hq⟩ | ⟨rfl, hqueue⟩
    · exact WLP.pure_iff.mpr
        ⟨hr₁, hb.of_quietOn hr (hq.quietOn .deletion (by simp)) (hq.cursors .deleted).ge⟩
    · refine WLP.bind_iff.mpr (hqueue.mono ?_)
      rintro _ r₂ ⟨hr₂, hq⟩
      have hb₂ := hb.of_quietOn hr (hq.quietOn .deletion (by simp)) (hq.cursors .deleted).ge
      refine WLP.bind_iff.mpr (Context.announce_wlp fun r₃ ht hu => WLP.pure_iff.mpr ?_)
      have hq₃ : r₂.Quiet r₃ := .of_eq ht hu
      exact ⟨Disciplined.stable _ _ hr₂ hq₃, hb₂.of_quietOn hr₂ (hq₃ .deletion) (by rw [hu])⟩
  refine WLP.ite (fun _ => WLP.bind_iff.mpr (WLP.pure_iff.mpr (hput true))) fun _ => ?_
  refine WLP.bind_iff.mpr ((RuleIndex.isDerivable_within (P := (· = r)) (E := fun _ _ => True)
    (fun _ _ _ _ => trivial) rfl t).preserves r rfl |>.mono ?_)
  rintro kept _ rfl
  exact hput kept

/-- What is taken from the deleted facts is of the level. -/
theorem dequeue_wlp {x : RuleIndex} (hr : Disciplined x level taken r) (hb : Beyond x level r) :
    WLP (Routine.dequeue .deleted) r fun row r' => (Disciplined x level taken r' ∧ Beyond x level r') ∧
      (row ≠ 0 → row ∈ r'.listed .deleted ∧
        ∀ t, r'.table.fact? row = some t → level ≤ x.componentLevel t) := by
  have hmoved : ∀ q : Queue, q.values = (r.update.queue .deleted).values →
      (r.update.queue .deleted).cursor ≤ q.cursor →
      Disciplined x level taken { r with update := r.update.withQueue .deleted q } ∧
        Beyond x level { r with update := r.update.withQueue .deleted q } := fun q hvalues hcursor =>
    have hq := Run.Quiet.of_queue hvalues
    ⟨Disciplined.stable _ _ hr hq, hb.of_quietOn hr (hq .deletion) hcursor⟩
  refine WLP.modifyGet_iff.mpr ?_
  cases hnext : (r.update.queue .deleted).values[(r.update.queue .deleted).cursor]? with
  | some row =>
    have hrow : (r.listed .deleted)[(r.update.queue .deleted).cursor]? = some row := by
      rwa [Run.listed, Array.getElem?_toList]
    simp only [Queue.dequeue, hnext]
    exact ⟨hmoved _ rfl (Nat.le_succ _), fun _ => ⟨List.mem_of_getElem? hrow, fun t hf =>
      hb _ row t le_rfl hrow hf⟩⟩
  | none =>
    simp only [Queue.dequeue, hnext]
    exact ⟨hmoved _ rfl le_rfl, fun hne => absurd rfl hne⟩

/-- Deleted facts are put back as facts of the level. -/
theorem rederive_wlp (hr : Disciplined c.rules level taken r) :
    WLP (rederive c (some level)) r fun _ => Disciplined c.rules level taken := by
  have hstable : Run.Stable (Disciplined c.rules level taken) := Disciplined.stable
  refine WLP.bind_iff.mpr ((hstable.announce _ r hr).mono fun _ r₁ hr₁ => ?_)
  refine WLP.bind_iff.mpr (Routine.endBefore_wlp fun place hplace => WLP.bind_iff.mpr ?_)
  -- the cursor goes to the end of the lower levels
  refine WLP.modify_iff.mpr (WLP.bind_iff.mpr (Routine.reads_wp ?_).wlp)
  have hr₂ : Disciplined c.rules level taken
      { r₁ with update := r₁.update.withQueue .deleted ((r₁.update.queue .deleted).seek place) } :=
    hstable _ _ hr₁ (.of_queue rfl)
  have hb₂ : Beyond c.rules level
      { r₁ with update := r₁.update.withQueue .deleted ((r₁.update.queue .deleted).seek place) } := by
    intro i row t hi hrow hf
    cases level with
    | zero => exact Nat.zero_le _
    | succ l =>
      obtain ⟨place', hplace', hsplit⟩ := (hr₁ .deletion).ended l (Nat.lt_succ_self l)
      have hplace' : r₁.update.deletedEnds[l]? = some place' := hplace'
      rw [Update.endBefore, hplace'] at hplace
      cases hplace
      exact Nat.lt_of_not_le fun hle => absurd ((hsplit.lt_iff i row t hrow hf).mpr hle) (Nat.not_lt.mpr hi)
  have hsame : ∀ {r r' : Run}, Disciplined c.rules level taken r ∧ Beyond c.rules level r →
      r'.table = r.table → r'.update = r.update →
      Disciplined c.rules level taken r' ∧ Beyond c.rules level r' := fun h ht hu =>
    have hq := Run.Quiet.of_eq ht hu
    ⟨hstable _ _ h.1 hq, h.2.of_quietOn h.1 (hq .deletion) (by rw [hu])⟩
  refine WLP.bind_iff.mpr (Context.announce_wlp fun r₃ ht hu => WLP.bind_iff.mpr ?_)
  refine (Routine.drain_wlp (fun _ r => Disciplined c.rules level taken r ∧ Beyond c.rules level r)
    (fun row r => row ∈ r.listed .deleted ∧
      ∀ t, r.table.fact? row = some t → level ≤ c.rules.componentLevel t)
    (fun _ r hr => ?_) (fun row n r hr htaken => consider_wlp hr.1 hr.2 htaken.1 htaken.2) _ _
    (hsame ⟨hr₂, hb₂⟩ ht hu)).mono fun n r₄ hr₄ => ?_
  · refine WLP.bind_iff.mpr (Context.isRunning_wlp fun r' ht hu _ => ?_)
    have hr' := hsame hr ht hu
    exact WLP.ite (fun _ => dequeue_wlp hr'.1 hr'.2) fun _ =>
      WLP.pure_iff.mpr ⟨hr', fun hne => absurd rfl hne⟩
  · exact Preserves.bind (hstable.note _) (fun _ => .bind (hstable.announce _) fun _ => .pure n) r₄ hr₄.1

end Rederivation

/-! ## Insertion -/

namespace InsertionTask

variable {task : InsertionTask} {n : Nat}

/-- The facts asserted at a level are queued. -/
theorem start_wlp (hr : Disciplined c.rules level (Side.deletionTaken level) r) :
    WLP (start c (some level)) r fun task r' =>
      task.level = some level ∧ Disciplined c.rules level (fun _ => level + 1) r' := by
  have hstable : Run.Stable (Disciplined c.rules level fun _ => level + 1) := Disciplined.stable
  refine WLP.bind_iff.mpr (Routine.demand_wlp fun asserted hq => WLP.bind_iff.mpr ?_)
  have happend : WLP (Routine.append .added asserted) r fun _ =>
      Disciplined c.rules level fun _ => level + 1 :=
    hr.append_wlp .addition rfl rfl (fun s hs => by cases s <;> first | exact absurd rfl hs | rfl) hq
  refine happend.mono fun _ r₁ hr₁ => WLP.bind_iff.mpr ?_
  refine (hstable.seek _ _ r₁ hr₁).mono fun _ r₂ hr₂ => WLP.ite (fun _ => WLP.bind_iff.mpr
    ((hstable.seek _ _ r₂ hr₂).mono fun _ r₂ hr₂ => ?_)) fun _ => ?_
  all_goals
    refine WLP.bind_iff.mpr (Routine.endBefore_wlp fun lowerEnd _ => WLP.bind_iff.mpr ?_)
    refine WLP.modify_iff.mpr (WLP.bind_iff.mpr (Routine.reads_wp ?_).wlp)
    exact WLP.pure_iff.mpr ⟨rfl, hstable _ _ hr₂ (.of_eq rfl rfl)⟩

variable (h : c.ByLevels rules) (htask : task.level = some level)

include h

/-- A derived fact of the level is queued. -/
theorem deriveFact_preserves (hl : c.rules.componentLevel t = level) :
    Preserves (Disciplined c.rules level taken) (task.deriveFact c t) := by
  intro r hr
  rw [deriveFact]
  cases task.budget with
  | zero => exact WLP.throw _
  | succ depth =>
    rw [derive, WLP.bind_iff]
    refine (Routine.reads_wp ?_).wlp
    refine WLP.ite (fun _ => WLP.bind_iff.mpr ?_) fun _ => WLP.pure_iff.mpr hr
    refine (Routine.rowOf_wp fun row r₁ hg hf _ => ?_).wlp
    have hr₁ : Disciplined c.rules level taken r₁ := by
      obtain ⟨_, rfl⟩ := hg.eq
      exact Disciplined.stable _ _ hr (.of_table fun _ _ => hg.table.rows.fact?)
    refine hr₁.mark_wlp .addition hf hl fun isNew => .bind (Disciplined.stable.announce _) fun _ => ?_
    refine .ite (fun hunite => ?_) fun _ => .pure _
    -- no resources are united without equality
    exact absurd (h.equality.symm.trans hunite.2.1) Bool.false_ne_true

include htask

theorem propagate_preserves : Preserves (Disciplined c.rules level taken) (task.propagate c row t) := by
  have hscope : task.scope = .ofLevel (some level) := by rw [scope, htask]
  rw [propagate, h.equality]
  refine .ite (fun hrec => absurd hrec Bool.false_ne_true) fun _ => .ite (fun _ => ?_) fun _ => .pure _
  exact h.applyToPositive_preserves hscope fun _ => deriveFact_preserves h

theorem replay_preserves : Preserves (Disciplined c.rules level taken) (task.replay c) := by
  have hscope : task.scope = .ofLevel (some level) := by rw [scope, htask]
  have hstable : Run.Stable (Disciplined c.rules level taken) := Disciplined.stable
  refine .bind ?_ fun _ => .ite (fun _ => ?_) fun _ => .pure _
  · refine Routine.drain_preserves (hstable.whileRunning (hstable.dequeueBefore _ _)) (fun row _ => ?_) _ _
    refine .bind (Routine.reads_preserves _) fun _ => .ite (fun _ => ?_) fun _ => .pure _
    refine .bind (Routine.factOf_preserves row) fun t => ?_
    exact h.applyToPositive_preserves hscope fun _ => deriveFact_preserves h
  · refine Routine.drain_preserves (hstable.whileRunning (hstable.dequeue _)) (fun row _ => ?_) _ _
    refine .bind (Routine.reads_preserves _) fun _ => .ite (fun _ => ?_) fun _ => .pure _
    refine .bind (Routine.factOf_preserves row) fun t => ?_
    exact h.applyToNegation_preserves hscope fun _ => deriveFact_preserves h

theorem add_preserves : Preserves (Disciplined c.rules level taken) (task.add c row t n) := by
  have hstable : Run.Stable (Disciplined c.rules level taken) := Disciplined.stable
  intro r hr
  rw [add, WLP.bind_iff]
  refine (Routine.reads_wp ?_).wlp
  rw [h.steady?_eq]
  refine WLP.ite (fun hne => absurd rfl hne) fun _ => ?_
  suffices hnormal : Preserves (Disciplined c.rules level taken) (task.addNormal c row t n) from
    hnormal r hr
  rw [addNormal, h.equality]
  refine .bind (hstable.addFlags row fun s => by cases s <;> rfl) fun isNew => ?_
  refine .ite (fun _ => .bind (hstable.announce _) fun _ => ?_) fun _ => ?_
  all_goals
    refine .ite (fun hunite => absurd hunite.1 Bool.false_ne_true) fun _ => ?_
    exact .bind (propagate_preserves h htask) fun _ => .pure _

theorem addAll_preserves : Preserves (Disciplined c.rules level taken) (task.addAll c) := by
  have hstable : Run.Stable (Disciplined c.rules level taken) := Disciplined.stable
  have hconsider : ∀ row n, Preserves (Disciplined c.rules level taken) (task.consider c row n) := by
    refine fun row n => .bind (Routine.reads_preserves _) fun known => ?_
    split
    · exact .pure _
    · exact .bind (Routine.reads_preserves _) fun _ => .ite (fun _ => .pure _) fun _ =>
        add_preserves h htask
  refine .bind (hstable.announce _) fun _ => .ite (fun _ => .bind (replay_preserves h htask) fun _ => ?_)
    fun _ => ?_
  all_goals
    refine .bind (hstable.announce _) fun _ => .bind ?_ fun n => .bind (hstable.announce _) fun _ => .pure n
    exact Routine.drain_preserves (hstable.whileRunning (hstable.dequeue _)) hconsider _ _

end InsertionTask

theorem insert_wlp (h : c.ByLevels rules)
    (hr : Disciplined c.rules level (Side.deletionTaken level) r) :
    WLP (insert c (some level)) r fun _ => Disciplined c.rules level fun _ => level + 1 := by
  have hstable : Run.Stable (Disciplined c.rules level fun _ => level + 1) := Disciplined.stable
  refine WLP.bind_iff.mpr ((InsertionTask.start_wlp hr).mono ?_)
  rintro task r₁ ⟨htask, hr₁⟩
  exact Preserves.bind (hstable.announce _) (fun _ =>
    .bind (Routine.orStop_preserves (InsertionTask.addAll_preserves h htask)) fun n =>
      .bind (hstable.note _) fun _ => .bind (hstable.announce _) fun _ => .pure n) r₁ hr₁

/-! ## An update -/

namespace Maintenance

variable (h : c.ByLevels rules) {stats : Stats}

include h

theorem deleteLevel_wlp (hr : Disciplined c.rules level (fun _ => level) r) :
    WLP (deleteLevel c (some level) stats) r fun _ =>
      Disciplined c.rules level (Side.deletionTaken level) := by
  rw [deleteLevel]
  split
  · refine WLP.bind_iff.mpr ((Rederivation.delete_wlp h hr).mono fun _ r₁ hr₁ => ?_)
    exact WLP.bind_iff.mpr ((Rederivation.rederive_wlp hr₁).mono fun _ r₂ hr₂ => WLP.pure_iff.mpr hr₂)
  · refine WLP.bind_iff.mpr ((Search.delete_wlp h hr).mono fun _ r₁ hr₁ => ?_)
    rw [h.equality]
    exact WLP.ite (fun heq => absurd heq Bool.false_ne_true) fun _ => WLP.pure_iff.mpr hr₁

/-- When a level was worked off, the work lists keep to the levels up to it. -/
theorem updateLevel_wlp (hr : Disciplined c.rules level (fun _ => level) r) :
    WLP (updateLevel c (some level) stats) r fun _ =>
      Disciplined c.rules (level + 1) fun _ => level + 1 := by
  have hstable : Run.Stable (Disciplined c.rules level fun _ => level) := Disciplined.stable
  have hstable' : Run.Stable (Disciplined c.rules (level + 1) fun _ => level + 1) := Disciplined.stable
  refine WLP.bind_iff.mpr (WLP.modify_iff.mpr (WLP.bind_iff.mpr ?_))
  have hr₁ : Disciplined c.rules level (fun _ => level) { r with update := r.update.startLevel } :=
    hstable _ _ hr <| .of_update (fun _ _ => rfl) (fun s => by cases s <;> rfl)
      (fun s => by cases s <;> rfl) fun s => by cases s <;> rfl
  refine (hstable.announce _ _ hr₁).mono fun _ r₂ hr₂ => WLP.bind_iff.mpr ?_
  refine (deleteLevel_wlp h hr₂).mono fun _ r₃ hr₃ => WLP.bind_iff.mpr ?_
  refine (insert_wlp h hr₃).mono fun _ r₄ hr₄ => WLP.bind_iff.mpr (WLP.bind_iff.mpr ?_)
  refine Routine.demand_wlp fun _ hlevel => WLP.modify_iff.mpr ?_
  have hlt : level < r₄.update.levels := by
    split at hlevel
    · exact of_decide_eq_true ‹_›
    · cases hlevel
  exact Preserves.bind (hstable'.note _) (fun _ => .bind (hstable'.announce _) fun _ => .pure _) _
    fun s => (hr₄ s).close hlt

/-- Levels are worked off from the lowest on, until the run is stopped. -/
theorem updateLevels_wlp (n : Nat) (hr : Disciplined c.rules level (fun _ => level) r) :
    WLP (updateLevels c ((List.range' level n).map some) stats) r fun _ r' =>
      ∃ l, Disciplined c.rules l (fun _ => l) r' ∧ (r'.stopped = false → l = level + n) := by
  induction n generalizing level stats r with
  | zero => exact WLP.pure_iff.mpr ⟨level, hr, fun _ => rfl⟩
  | succ n ih =>
    rw [List.range'_succ, List.map_cons, updateLevels, WLP.bind_iff]
    refine Context.isRunning_wlp fun r₁ ht hu _ => ?_
    have hr₁ : Disciplined c.rules level (fun _ => level) r₁ := Disciplined.stable _ _ hr (.of_eq ht hu)
    refine WLP.ite (fun _ => WLP.bind_iff.mpr ?_) fun hstop => WLP.pure_iff.mpr ⟨level, hr₁, fun hs => ?_⟩
    · refine (updateLevel_wlp h hr₁).mono fun stats r₂ hr₂ => (ih hr₂).mono ?_
      rintro _ r₃ ⟨l, hr₃, hl⟩
      exact ⟨l, hr₃, fun hs => (hl hs).trans (by omega)⟩
    · rw [hs] at hstop
      exact absurd rfl hstop

omit h in
/-- The changes are written unless the run is stopped, and that is noted. -/
theorem finish_wlp (hr : Disciplined c.rules level taken r) :
    WLP (finish c stats) r fun stats' r' => Disciplined c.rules level taken r' ∧
      (stats'.cancelled = false → r.stopped = false) := by
  have hstable : Run.Stable (Disciplined c.rules level taken) := Disciplined.stable
  refine WLP.bind_iff.mpr (Context.isRunning_wlp fun r₁ ht hu hmono => ?_)
  have hr₁ : Disciplined c.rules level taken r₁ := hstable _ _ hr (.of_eq ht hu)
  refine WLP.ite (fun hrun => WLP.bind_iff.mpr ?_) fun _ => WLP.bind_iff.mpr ?_
  · have hs : r.stopped = false := by
      rw [Bool.not_eq_true'] at hrun
      exact Bool.eq_false_iff.mpr fun hs => Bool.false_ne_true (hrun.symm.trans (hmono hs))
    refine (Changes.propagate_preserves hstable _ hr₁).mono fun n r₂ hr₂ => WLP.bind_iff.mpr ?_
    exact (hstable.note _ _ hr₂).mono fun _ r₃ hr₃ => WLP.pure_iff.mpr ⟨hr₃, fun _ => hs⟩
  · exact (hstable.note _ _ hr₁).mono fun _ r₂ hr₂ => WLP.pure_iff.mpr ⟨hr₂, fun hc => by cases hc⟩

omit h in
/-- At the start of an update nothing is queued. -/
theorem startUpdate_wlp (maxLevel : Option Nat) (x : RuleIndex) :
    WLP (Routine.startUpdate maxLevel) r fun _ => Disciplined x 0 fun _ => 0 := by
  intro _ r' hstart
  simp only [Routine.startUpdate] at hstart
  split at hstart <;> cases hstart
  rename_i u hu
  rw [Update.start] at hu
  split at hu <;> cases hu
  refine fun s => ⟨?_, fun row hrow => ?_, ?_, fun l hl => by omega, fun l place _ hp => ?_,
    fun l q _ hq => ?_⟩
  · cases s <;> exact List.nodup_nil
  · cases s <;> cases hrow
  · cases s <;> simp [Side.ends, Update.levels]
  · cases s <;>
      · simp only [Side.ends, Array.getElem?_replicate] at hp
        split at hp <;> cases hp
        rfl
  · have hempty : q = .empty := by
      cases s <;>
        · simp only [Side.byLevel, Array.getElem?_replicate] at hq
          split at hq <;> cases hq
          rfl
    subst hempty
    exact ⟨rfl, List.nodup_nil, fun _ hrow => absurd hrow List.not_mem_nil,
      fun _ hrow => absurd hrow List.not_mem_nil⟩

/-- After an update the work lists keep to the levels up to some level, which is above all levels if the
update was not cancelled. -/
theorem update_wlp (strategy : Strategy) (retractions assertions : List Triple) :
    WLP (update c strategy retractions assertions) r fun stats r' =>
      ∃ l, Disciplined c.rules l (fun _ => l) r' ∧ (stats.cancelled = false → l = c.rules.maxLevel + 1) := by
  have hstable : Run.Stable (Disciplined c.rules 0 fun _ => 0) := Disciplined.stable
  refine WLP.bind_iff.mpr (Routine.note_wlp fun r₁ _ _ => WLP.bind_iff.mpr ?_)
  refine (startUpdate_wlp (maxLevel? c) c.rules).mono fun _ r₂ hr₂ => WLP.bind_iff.mpr (WLP.modify_iff.mpr ?_)
  refine WLP.bind_iff.mpr (Routine.lift_wlp fun levels hlevels => WLP.bind_iff.mpr ?_)
  have hlevels : levels = (List.range' 0 (c.rules.maxLevel + 1)).map some := by
    rw [Materialization.levels, h.usesLevels] at hlevels
    simp only [Bool.not_true, Bool.false_eq_true, if_false] at hlevels
    split at hlevels <;> cases hlevels
    rw [List.range_eq_range']
  have hr₂ : Disciplined c.rules 0 (fun _ => 0) { r₂ with proving := .discrete } :=
    hstable r₂ _ hr₂ (.of_eq rfl rfl)
  refine (Changes.retract_preserves h retractions _ hr₂).mono fun retracted r₃ hr₃ => WLP.bind_iff.mpr ?_
  refine (Changes.assert_preserves h assertions _ hr₃).mono fun asserted r₄ hr₄ => WLP.bind_iff.mpr ?_
  rw [hlevels]
  refine (updateLevels_wlp h _ hr₄).mono ?_
  rintro stats r₅ ⟨l, hr₅, hl⟩
  refine (finish_wlp hr₅).mono ?_
  rintro stats' r₆ ⟨hr₆, hrun⟩
  exact ⟨l, hr₆, fun hc => (hl (hrun hc)).trans (Nat.zero_add _)⟩

end Maintenance

end Entail
