import Entail.Maintenance
import Entail.Proofs.Maintenance.Idle

/-!
# What leaves the work lists alone

Facts are queued for deletion and for addition at few places. Everything else an update does is
`Run.Quiet`: facts keep their rows, and the work lists, the queues of the levels and the flags of what
is queued stay as they are. A `Run.Stable` property of runs does not notice it, so every computation
that queues nothing preserves such a property. That is so of a whole search for a proof, since it is idle
(`Search.check_preserves`), and of writing the outcome of an update to the store
(`Changes.propagate_preserves`), whatever the rules are and whether or not equality is in use. That is
all idle but for the status of what leaves and enters the materialization and for saying so
(`Changes.propagate_within`, `Changes.Withstands`).
-/

namespace Entail

open Changes (Side)

variable {c : Context} {P : Run → Prop} {r r' : Run} {α β : Type}

/-! ## Routines that end -/

namespace Routine

theorem reads_preserves (f : Run → α) : Preserves P (reads f) := fun _ h => (reads_wp h).wlp

theorem reads_wlp {f : Run → α} {Q : α → Run → Prop} (h : Q (f r) r) : WLP (reads f) r Q := (reads_wp h).wlp

theorem demand_wlp {f : Run → Option α} {Q : α → Run → Prop} (h : ∀ a, f r = some a → Q a r) :
    WLP (demand f) r Q := by
  intro a s' hx
  simp only [demand] at hx
  split at hx <;> cases hx
  exact h a ‹_›

theorem factOf_wlp {row : RowIndex} {Q : Triple → Run → Prop}
    (h : ∀ t, r.table.fact? row = some t → Q t r) : WLP (factOf row) r Q := by
  intro t s' hx
  simp only [factOf] at hx
  split at hx <;> cases hx
  exact h t ‹_›

theorem factOf_preserves (row : RowIndex) : Preserves P (factOf row) :=
  fun _ h => factOf_wlp fun _ _ => h

theorem endBefore_wlp {ends : Run → Array Nat} {level : Option Nat} {Q : Nat → Run → Prop}
    (h : ∀ place, Update.endBefore (ends r) level = .ok place → Q place r) :
    WLP (endBefore ends level) r Q := by
  intro place s' hx
  simp only [endBefore] at hx
  split at hx <;> cases hx
  exact h place ‹_›

theorem lift_wlp {x : Except Failure α} {Q : α → Run → Prop} (h : ∀ a, x = .ok a → Q a r) :
    WLP (lift x) r Q := by
  cases x with
  | ok a => exact WLP.pure_iff.mpr (h a rfl)
  | error f => exact WLP.throw f

theorem orStop_wlp {x : Routine α} {Q : α → Run → Prop} (h : WLP x r Q) : WLP (orStop x) r Q := by
  intro a s' hx
  simp only [orStop] at hx
  split at hx <;> cases hx
  exact h a s' ‹_›

theorem orStop_preserves {x : Routine α} (h : Preserves P x) : Preserves P (orStop x) :=
  fun r hr => orStop_wlp (h r hr)

/-- Working off a queue keeps `Inv`, if what is taken next is `Taken` and handling that keeps `Inv`. -/
theorem drain_wlp {next : Routine RowIndex} {handle : RowIndex → β → Routine β} (Inv : β → Run → Prop)
    (Taken : RowIndex → Run → Prop)
    (hnext : ∀ b r, Inv b r → WLP next r fun row r' => Inv b r' ∧ (row ≠ 0 → Taken row r'))
    (hstep : ∀ row b r, Inv b r → Taken row r → WLP (handle row b) r Inv)
    (fuel : Nat) (b : β) (h : Inv b r) : WLP (drain next handle fuel b) r Inv := by
  induction fuel generalizing b r with
  | zero => exact WLP.throw _
  | succ fuel ih =>
    rw [drain, WLP.bind_iff]
    refine (hnext b r h).mono ?_
    rintro row r₁ ⟨h₁, htaken⟩
    refine WLP.ite (fun _ => WLP.pure_iff.mpr h₁) fun hne => ?_
    rw [WLP.bind_iff]
    exact (hstep row b r₁ h₁ (htaken hne)).mono fun b' _ h₂ => ih b' h₂

theorem drain_preserves {next : Routine RowIndex} {handle : RowIndex → β → Routine β}
    (hnext : Preserves P next) (hstep : ∀ row b, Preserves P (handle row b)) (fuel : Nat) (b : β) :
    Preserves P (drain next handle fuel b) := fun _ h =>
  drain_wlp (fun _ => P) (fun _ _ => True) (fun _ r hr => (hnext r hr).mono fun _ _ hr' => ⟨hr', fun _ => trivial⟩)
    (fun row b r hr _ => hstep row b r hr) fuel b h

end Routine

/-! ## Runs in which nothing is queued -/

namespace Run

/-- From `r` to `r'` nothing is queued on a side. -/
structure QuietOn (s : Side) (r r' : Run) : Prop where
  fact? (row : Nat) (t : Triple) (h : r.table.fact? row = some t) : r'.table.fact? row = some t
  flag (row : Nat) : (r'.flags row).any s.flag = (r.flags row).any s.flag
  listed : r'.listed s.work = r.listed s.work
  byLevel : s.byLevel r'.update = s.byLevel r.update
  ends : s.ends r'.update = s.ends r.update
  levels : r'.update.levels = r.update.levels

/-- From `r` to `r'` nothing is queued for deletion or for addition. -/
def Quiet (r r' : Run) : Prop := ∀ s : Side, QuietOn s r r'

/-- A property of runs that does not notice when nothing is queued. -/
def Stable (P : Run → Prop) : Prop := ∀ r r', P r → r.Quiet r' → P r'

/-- Only the store and the update matter. -/
theorem Quiet.of_eq (ht : r'.table = r.table) (hu : r'.update = r.update) : r.Quiet r' := fun s => by
  refine ⟨fun row t h => by rwa [ht], fun row => ?_, ?_, by rw [hu], by rw [hu], by rw [hu]⟩
  · rw [Run.flags, hu]
    rfl
  · rw [Run.listed, hu]
    rfl

/-- The store may get more rows. -/
theorem Quiet.of_table {table : Table}
    (h : ∀ row t, r.table.fact? row = some t → table.fact? row = some t) :
    r.Quiet { r with table } :=
  fun _ => ⟨h, fun _ => rfl, rfl, rfl, rfl, rfl⟩

/-- The work lists and the flags of what is queued are all that matters of an update. -/
theorem Quiet.of_update {u : Update}
    (hflag : ∀ (s : Side) row, (u.flags.flags row).any s.flag = (r.flags row).any s.flag)
    (hqueue : ∀ s : Side, (u.queue s.work).values = (r.update.queue s.work).values)
    (hby : ∀ s : Side, s.byLevel u = s.byLevel r.update) (hends : ∀ s : Side, s.ends u = s.ends r.update) :
    r.Quiet { r with update := u } := fun s =>
  ⟨fun _ _ => id, hflag s, congrArg Array.toList (hqueue s), hby s, hends s,
    congrArg Array.size (hby .deletion)⟩

/-- A queue may be taken from another place on. -/
theorem Quiet.of_queue {w : WorkList} {q : Queue} (h : q.values = (r.update.queue w).values) :
    r.Quiet { r with update := r.update.withQueue w q } :=
  .of_update (fun s row => by cases w <;> rfl)
    (fun s => by cases w <;> cases s <;> first | rfl | exact h)
    (fun s => by cases w <;> cases s <;> rfl) fun s => by cases w <;> cases s <;> rfl

theorem Stable.preserves (hP : Stable P) {x : Routine α} (h : ∀ r, WLP x r fun _ r' => r.Quiet r') :
    Preserves P x :=
  fun r hr => (h r).mono fun _ r' => hP r r' hr

end Run

section steps

variable {row : RowIndex} {t : Triple} {set : Flags} {w : WorkList}

theorem Context.announce_wlp {e : Event} {Q : Unit → Run → Prop}
    (h : ∀ r', r'.table = r.table → r'.update = r.update → Q () r') : WLP (c.announce e) r Q :=
  (announce_ends (E := fun _ _ => True) fun r' ht hu _ => h r' ht hu).wlp

theorem Routine.note_wlp {n : Note} {Q : Unit → Run → Prop}
    (h : ∀ r', r'.table = r.table → r'.update = r.update → Q () r') : WLP (note n) r Q :=
  WLP.modify_iff.mpr (h _ rfl rfl)

/-- Asking whether to go on says whether the run is asked to stop. -/
theorem Context.isRunning_wlp {Q : Bool → Run → Prop}
    (h : ∀ r', r'.table = r.table → r'.update = r.update → (r.stopped = true → r'.stopped = true) →
      Q (!r'.stopped) r') : WLP c.isRunning r Q := by
  refine WLP.modifyGet_iff.mpr (h { r with
    polls := r.polls + 1
    stopped := r.stopped || c.stop == .poll (r.polls + 1) } rfl rfl fun hs => ?_)
  show (r.stopped || _) = true
  rw [hs, Bool.true_or]

theorem Routine.addFlags_wlp {Q : Bool → Run → Prop}
    (h : ∀ m, r.update.flags.Adds row set m → Q ((r.flags row ||| set) != r.flags row)
      { r with update := { r.update with flags := m } }) : WLP (addFlags row set) r Q :=
  (addFlags_ends (E := fun _ _ => True) h fun _ _ => trivial).wlp

theorem Routine.enqueue_wlp {Q : Unit → Run → Prop}
    (h : Q () { r with update := r.update.withQueue w ((r.update.queue w).push row) }) :
    WLP (enqueue w row) r Q := by
  intro _ s' hx
  simp only [enqueue, Queue.enqueue] at hx
  split at hx <;> cases hx
  rename_i hq
  split at hq <;> cases hq
  exact h

/-- Either nothing changes, or the status of a fact does. -/
theorem Routine.updateStatus_wlp {cleared set : Status} {Q : Bool → Run → Prop} (hno : Q false r)
    (hyes : ∀ t T, r.table.fact? row = some t → r.table.Sets row ((r.table.status row).update cleared set) T →
      (r.table.status row).update cleared set ≠ r.table.status row → Q true { r with table := T }) :
    WLP (updateStatus row cleared set) r Q := by
  refine WLP.modifyGet_iff.mpr ?_
  show Q (r.table.updateStatus row cleared set).1 { r with table := (r.table.updateStatus row cleared set).2 }
  cases hc : (r.table.updateStatus row cleared set).1 with
  | false =>
    rw [Table.updateStatus_of_unchanged hc]
    exact hno
  | true =>
    cases hf : r.table.fact? row with
    | none => exact absurd (hc.symm.trans (Table.changed_updateStatus_of_none hf)) Bool.noConfusion
    | some t =>
      obtain ⟨hpos, hle⟩ := Table.fact?_bounds hf
      rw [Table.changed_updateStatus hpos hle, bne_iff_ne] at hc
      exact hyes t _ hf (Table.updateStatus_sets hf cleared set) hc

end steps

/-- What is idle queues nothing. -/
theorem Run.Idle.quiet (h : r.Idle r') : r.Quiet r' := fun s => by
  have hvalues := h.values s.work (by cases s <;> decide)
  refine ⟨fun row t => h.table.rows.fact?, fun row => ?_, congrArg Array.toList hvalues,
    h.byLevel s, h.ends s, congrArg Array.size (h.byLevel .deletion)⟩
  exact h.flags row _ (by cases s <;> rfl) (by cases s <;> rfl)

namespace Run.Stable

variable (hP : Stable P)

include hP

theorem tolerates : Tolerates Idle P fun _ _ => True :=
  ⟨fun r r' hr h => hP r r' hr h.quiet, fun _ _ _ _ => trivial, fun _ _ _ => trivial⟩

theorem announce (e : Event) : Preserves P (c.announce e) :=
  hP.preserves fun _ => Context.announce_wlp fun _ => .of_eq

theorem note (n : Note) : Preserves P (Routine.note n) := (hP.tolerates.note n).preserves

theorem updateStatus (row : RowIndex) (cleared set : Status) :
    Preserves P (Routine.updateStatus row cleared set) :=
  hP.preserves fun _ => WLP.modifyGet_iff.mpr <| .of_table fun _ _ h =>
    Table.fact?_updateStatus.trans h

/-- Flags other than those of what is queued may be set. -/
theorem addFlags (row : RowIndex) {set : Flags} (hset : ∀ s : Side, set.any s.flag = false) :
    Preserves P (Routine.addFlags row set) := by
  refine hP.preserves fun r => Routine.addFlags_wlp fun m ha => .of_update (fun s other => ?_)
    (fun s => by cases s <;> rfl) (fun s => by cases s <;> rfl) fun s => by cases s <;> rfl
  rw [ha.any, hset, Bool.and_false, Bool.or_false]
  rfl

theorem seek (w : WorkList) (place : Nat) : Preserves P (Routine.seek w place) :=
  (hP.tolerates.seek w place).preserves

theorem dequeue (w : WorkList) : Preserves P (Routine.dequeue w) := (hP.tolerates.dequeue w).preserves

theorem dequeueBefore (w : WorkList) (limit : Nat) : Preserves P (Routine.dequeueBefore w limit) :=
  (hP.tolerates.dequeueBefore w limit).preserves

theorem whileRunning {next : Routine RowIndex} (h : Preserves P next) :
    Preserves P (c.whileRunning next) :=
  (hP.tolerates.whileRunning h.within).preserves

end Run.Stable

/-- The search for a proof of a fact queues nothing for deletion or for addition. -/
theorem Search.check_preserves {task : DeletionTask} {row : RowIndex} {t : Triple} (hP : Run.Stable P) :
    Preserves P (check c task row t) :=
  (check_within hP.tolerates).preserves

/-! ## Writing the outcome -/

namespace Changes

/-- `P` withstands that facts leave and enter the materialization and that this is announced. Facts are
given up for their normal forms only if equality is in use. -/
structure Withstands (c : Context) (P : Run → Prop) (E : Failure → Run → Prop) : Prop where
  idle : Run.Tolerates Run.Idle P E
  leave (row : RowIndex) : Within P E (Routine.updateStatus row (Status.derived ||| Status.merged) 0)
  enter (row : RowIndex) : Within P E (enter row)
  giveUp (h : c.mode.equality.enabled = true) (row : RowIndex) :
    Within P E (Routine.updateStatus row Status.derived Status.merged)
  outcome (e : Event) (t : Triple) (h : e = .deleted t ∨ e = .added t) : Within P E (c.announce e)

/-- What a property of the store has to withstand. -/
theorem Withstands.ofTable {p : Table → Prop} (hidle : ∀ r r' : Run, r.Idle r' → p r.table → p r'.table)
    (hleave : ∀ T row, p T → p (T.updateStatus row (Status.derived ||| Status.merged) 0).2)
    (henter : ∀ T row, p T → p (T.updateStatus row Status.merged Status.derived).2)
    (hgiveUp : c.mode.equality.enabled = true → ∀ T row, p T →
      p (T.updateStatus row Status.derived Status.merged).2) :
    Withstands c (fun r => p r.table) fun _ r => p r.table where
  idle := ⟨fun r r' hr h => hidle r r' h hr, fun _ _ hr _ => hr, fun _ _ hr => hr⟩
  leave row r hr := Ends.modifyGet_iff.mpr (hleave r.table row hr)
  enter row r hr := Ends.modifyGet_iff.mpr (henter r.table row hr)
  giveUp he row r hr := Ends.modifyGet_iff.mpr (hgiveUp he r.table row hr)
  outcome e t _ r hr := Context.announce_ends fun r' ht _ _ => by
    rw [ht]
    exact hr

section

variable {E : Failure → Run → Prop} {row : RowIndex} {t : Triple} {n : Propagated} (hw : Withstands c P E)

include hw

theorem countAdded_within (isNew : Bool) : Within P E (countAdded c isNew t n) :=
  .ite (fun _ => .bind (hw.outcome _ t (.inr rfl)) fun _ => .pure _) fun _ => .pure _

theorem renormalize_within : Within P E (renormalize c row n) := by
  intro r hr
  refine Ends.bind_iff.mpr ?_
  by_cases he : c.mode.equality.enabled = true
  · refine Within.bind (Routine.reads_within _) (fun known => ?_) r hr
    split
    · refine .ite (fun _ => .pure _) fun _ => .bind (hw.giveUp he row) fun _ => ?_
      refine .ite (fun _ => .pure _) fun _ => .bind (hw.idle.rowOf _) fun normalRow => ?_
      exact .bind (hw.enter normalRow) fun isNew => countAdded_within hw isNew
    · exact .pure _
  · have hsteady : c.steady? r = none := by rw [Context.steady?, if_neg he]
    simp only [Routine.reads, Ends, hsteady]
    exact hr

theorem propagateDeleted_within : Within P E (propagateDeleted c row n) := by
  refine .bind (Routine.reads_within _) fun _ => .ite (fun _ => ?_) fun _ => renormalize_within hw
  refine .bind (hw.leave row) fun _ => .ite (fun _ => ?_) fun _ => .pure _
  exact .bind (Routine.reads_within _) fun t => .bind (hw.outcome _ t (.inl rfl)) fun _ => .pure _

theorem propagateProved_within : Within P E (propagateProved c row n) := by
  refine .bind (Routine.reads_within _) fun _ => .ite (fun _ => ?_) fun _ => .pure _
  refine .bind (Routine.reads_within _) fun t => .bind (Routine.reads_within _) fun normal => ?_
  refine .ite (fun _ => .bind (.pure _) fun row => ?_) fun _ => .bind (hw.idle.rowOf normal) fun row => ?_
  all_goals exact .bind (hw.enter row) fun isNew => countAdded_within hw isNew

theorem propagateAdded_within : Within P E (propagateAdded c row n) := by
  refine .bind (Routine.reads_within _) fun _ => .ite (fun _ => ?_) fun _ => .pure _
  exact .bind (hw.enter row) fun isNew => .bind (Routine.reads_within _) fun _ =>
    countAdded_within hw isNew

theorem propagateLevel_within (budget level : Nat) : Within P E (propagateLevel c budget n level) := by
  have hadded : ∀ n addedEnd, Within P E (Routine.drain
      (c.whileRunning (Routine.dequeueBefore .added addedEnd)) (propagateAdded c) budget n) :=
    fun n _ => hw.idle.drain (hw.idle.whileRunning (hw.idle.dequeueBefore _ _))
      (fun _ _ => propagateAdded_within hw) budget n
  refine .bind (hw.idle.demand _) fun deletedEnd => .bind ?_ fun n =>
    .ite (fun _ => .bind ?_ fun n => ?_) fun _ => .bind (.pure n) fun n => ?_
  · exact hw.idle.drain (hw.idle.whileRunning (hw.idle.dequeueBefore _ _))
      (fun _ _ => propagateDeleted_within hw) budget _
  · exact hw.idle.drain (hw.idle.whileRunning (hw.idle.dequeue _))
      (fun _ _ => propagateProved_within hw) budget n
  all_goals exact .bind (hw.idle.demand _) fun addedEnd => hadded n addedEnd

/-- Writing the outcome of an update to the store. -/
theorem propagate_within : Within P E (propagate c) := by
  refine .bind (Routine.reads_within _) fun levels => .bind (hw.idle.seek _ _) fun _ =>
    .bind (hw.idle.seek _ _) fun _ => .bind (hw.idle.seek _ _) fun _ => .bind (hw.idle.announce rfl) fun _ =>
      .bind (Routine.reads_within _) fun budget => ?_
  refine .bind (.foldlM (fun level _ n => propagateLevel_within hw budget level) _) fun n => ?_
  exact .bind (hw.idle.note _) fun _ => .bind (hw.idle.announce rfl) fun _ => .pure n

end

/-- Writing the outcome of an update to the store queues nothing for deletion or for addition. -/
theorem propagate_preserves (hP : Run.Stable P) : Preserves P (propagate c) :=
  (propagate_within ⟨hP.tolerates, fun row => (hP.updateStatus row _ _).within,
    fun row => (hP.updateStatus row _ _).within, fun _ row => (hP.updateStatus row _ _).within,
    fun e _ _ => (hP.announce e).within⟩).preserves

end Changes

end Entail
