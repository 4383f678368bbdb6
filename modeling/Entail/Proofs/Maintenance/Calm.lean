import Entail.Maintenance
import Entail.Proofs.Maintenance.Frame

/-!
# What the tasks of an update leave alone

Between the start of an update and its end, every task is `Run.Calm`: facts keep their rows, no bit of
their status changes but those by which equality gives up a fact for its normal form, and no outcome is
announced. Two places are different. A fact that is judged may be deleted, and the outcome is announced at
once (`DeletionTask.judge`); and in the end the outcome of the update is written to the store
(`Changes.propagate`). What withstands these as well stays as it is in a whole level
(`Maintenance.updateLevel_within`, `Maintenance.Withstands`) and in the end of an update
(`Changes.propagate_within`, `Changes.Withstands`), and thus in a whole update (`Maintenance.update_within`,
`Maintenance.Survives`). Computing the materialization is calm but for the bits
of what is materialized (`Materialization.materialize_within`).

All this holds whatever the rules are, whether or not the run is stopped, and also of tasks that fail, which
they do only in a way that leaves the store unusable.
-/

namespace Entail

open Flag.Update
open Changes (Side)

variable {c : Context} {P : Run → Prop} {E : Failure → Run → Prop} {r r' r'' : Run} {free : Status}
  {α β : Type}

/-! ## Calm runs -/

/-- The status bits that change while levels are worked off: those by which a fact is given up for its
normal form. -/
def Context.unsettled (c : Context) : Status :=
  if c.mode.equality.enabled then Status.derived ||| Status.merged else 0

/-- From `r` to `r'` facts keep their rows, no bits of their status change but those of `free`, the same
facts are deleted, and no outcome is announced. -/
structure Run.Calm (free : Status) (r r' : Run) : Prop where
  fact? (row : Nat) (t : Triple) (h : r.table.fact? row = some t) : r'.table.fact? row = some t
  status (row : Nat) (b : Status) (hb : Bits.IsBit b) (h : Status.complete.any b = false)
    (h' : free.any b = false) : (r'.table.status row).any b = (r.table.status row).any b
  deleted (row : Nat) : (r'.flags row).any deleted = (r.flags row).any deleted
  outcomes : r'.outcomes = r.outcomes

theorem Run.Idle.calm (h : r.Idle r') : r.Calm free r' where
  fact? row t := h.table.rows.fact?
  status row b _ hb _ := by
    by_cases hle : row ≤ r.table.size
    · rw [h.table.rows.status row hle]
    · have hlt := Nat.lt_of_not_le hle
      rw [h.table.status row hlt b hb, Table.status_eq_zero hlt, Bits.zero_any]
  deleted row := h.flags row _ rfl rfl
  outcomes := h.outcomes

/-- A property of the store that calm tasks keep holds also if they fail. -/
theorem Run.Tolerates.ofTable {p : Table → Prop} (h : ∀ r r' : Run, r.Calm free r' → p r.table → p r'.table) :
    Run.Tolerates (Run.Calm free) (fun r => p r.table) fun _ r => p r.table :=
  ⟨fun r r' hr hc => h r r' hc hr, fun _ _ hr _ => hr, fun _ _ hr => hr⟩

theorem Queue.fatal_of_append {q other : Queue} {e : Error} (h : q.append other = .error e) :
    e.code.fatal = true := by
  rw [Queue.append] at h
  generalize other.between other.cursor other.size = rows at h
  induction rows generalizing q with
  | nil => cases h
  | cons row rows ih =>
    simp only [Queue.enqueueAll, Queue.enqueue, bind, Except.bind] at h
    split at h
    · rename_i hadd
      split at hadd <;> cases hadd
      cases h
      rfl
    · exact ih h

namespace Run.Tolerates

variable {row : RowIndex} {t : Triple} {set cleared : Status} (ht : Run.Tolerates (Run.Calm free) P E)

include ht

theorem idle : Run.Tolerates Run.Idle P E := ht.mono fun _ _ h => h.calm

/-- A property that also knows the fact of a row. -/
theorem withFact (row : RowIndex) (t : Triple) :
    Run.Tolerates (Run.Calm free) (fun r => P r ∧ r.table.fact? row = some t) E :=
  ⟨fun r r' h hr => ⟨ht.keeps r r' h.1 hr, hr.fact? row t h.2⟩, fun r f h => ht.fails r f h.1, ht.stops⟩

/-- What is neither stored nor flagged nor announced may change. -/
theorem adjust {f : Run → Run} (hT : ∀ r, (f r).table = r.table)
    (hf : ∀ r, (f r).update.flags = r.update.flags) (hj : ∀ r, (f r).journal = r.journal) :
    Within P E (modify f : Routine Unit) := by
  refine ht.within fun r => Ends.modify_iff.mpr ⟨fun row t h => by rwa [hT], fun row b _ _ _ => by rw [hT],
    fun row => ?_, by rw [outcomes, events, hj]; rfl⟩
  rw [flags, hf]
  rfl

theorem addFlags (row : RowIndex) {set : Flags} (hset : set.any deleted = false) :
    Within P E (Routine.addFlags row set) := by
  refine ht.within fun r => Routine.addFlags_ends (fun m hm => ?_) fun _ hf => ⟨hf, rfl⟩
  refine ⟨fun _ _ => id, fun _ _ _ _ _ => rfl, fun other => ?_, rfl⟩
  exact (hm.any deleted other).trans (by rw [hset, Bool.and_false, Bool.or_false]; rfl)

/-- A queue may be replaced. -/
theorem ofQueue {w : WorkList} {x : Routine α}
    (h : ∀ r, Ends x r (fun _ r' => ∃ q, r' = { r with update := r.update.withQueue w q })
      fun f r' => f.Fatal ∧ r' = r) : Within P E x := by
  refine ht.within fun r => (h r).mono ?_ fun _ _ => id
  rintro _ _ ⟨q, rfl⟩
  refine ⟨fun _ _ => id, fun _ _ _ _ _ => rfl, fun row => ?_, rfl⟩
  cases w <;> rfl

theorem enqueue (w : WorkList) (row : RowIndex) : Within P E (Routine.enqueue w row) := by
  refine ht.ofQueue (w := w) fun r => ?_
  simp only [Ends, Routine.enqueue, Queue.enqueue]
  split <;> rename_i heq <;> split at heq <;> rename_i hadd <;> split at hadd <;> cases hadd <;> cases heq
  · exact ⟨_, rfl⟩
  · exact ⟨rfl, rfl⟩

theorem append (w : WorkList) (other : Queue) : Within P E (Routine.append w other) := by
  refine ht.ofQueue (w := w) fun r => ?_
  simp only [Ends, Routine.append]
  cases h : (r.update.queue w).append other with
  | ok q => exact ⟨q, rfl⟩
  | error e => exact ⟨Queue.fatal_of_append h, rfl⟩

theorem mergeSteady (source target : Nat) : Within P E (Routine.mergeSteady source target) := by
  refine ht.within fun r => ?_
  simp only [Ends, Routine.mergeSteady]
  split <;> rename_i heq <;> split at heq <;> cases heq
  · exact ⟨fun _ _ => id, fun _ _ _ _ _ => rfl, fun _ => rfl, rfl⟩
  · exact ⟨trivial, rfl⟩

/-- Bits that may change are cleared and set. -/
theorem updateStatus (row : RowIndex)
    (hfree : ∀ b, free.any b = false → cleared.any b = false ∧ set.any b = false) :
    Within P E (Routine.updateStatus row cleared set) :=
  ht.within fun _ => Ends.modifyGet_iff.mpr ⟨fun _ _ h => Table.fact?_updateStatus.trans h,
    fun _ b hb _ hf => Table.any_updateStatus hb (hfree b hf).1 (hfree b hf).2, fun _ => rfl, rfl⟩

theorem store (t : Triple) (hset : Bits.IsBit set) (hfree : ∀ b, free.any b = false → set.any b = false) :
    Within P E (Routine.store t set) := by
  refine ht.within fun r => ?_
  obtain ⟨row, T, hadd, hT⟩ := Table.add_stores hset r.table t
  rw [Routine.store, Ends.modifyGet_iff, hadd]
  refine ⟨hT.keeps, fun other b _ hb hf => (hT.status other b hb).trans ?_, fun _ => rfl, rfl⟩
  rw [hfree b hf, Bool.and_false, Bool.or_false]

end Run.Tolerates

/-! ## Deletion -/

/-- `P` bears that rows are queued for deletion. -/
structure DeletionTask.Bears (c : Context) (P : Run → Prop) (E : Failure → Run → Prop) : Prop extends
    Run.Tolerates Eq P E where
  announce (e : Event) (he : e.isOutcome = false) : Within P E (c.announce e)
  addFlags (row : RowIndex) (set : Flags) (hset : set.any deleted = false) : Within P E (Routine.addFlags row set)
  enqueue (row : RowIndex) : Within P E (Routine.enqueue .deleted row)
  dequeue (w : WorkList) (hw : w ≠ .proved) : Within P E (Routine.dequeue w)
  dequeueBefore (limit : Nat) : Within P E (Routine.dequeueBefore .deleted limit)
  isRunning : Within P E c.isRunning
  checkReflexivity (id kind : Nat) : Within P E (Routine.checkReflexivity id kind)

namespace DeletionTask

variable {task : DeletionTask} {row : RowIndex} {t : Triple}

section

variable (ht : Run.Tolerates (Run.Calm free) P E)

include ht

theorem Bears.of_calm : Bears c P E where
  toTolerates := ht.mono fun r _ he => he ▸ (Run.Idle.of_eq rfl rfl rfl : r.Idle r).calm
  announce _ he := ht.idle.announce he
  addFlags row _ hset := ht.addFlags row hset
  enqueue row := ht.enqueue _ row
  dequeue w _ := ht.idle.dequeue w
  dequeueBefore limit := ht.idle.dequeueBefore _ limit
  isRunning := ht.idle.isRunning
  checkReflexivity id kind := ht.idle.checkReflexivity id kind

theorem start_within (level : Option Nat) (width : Nat) : Within P E (start c level width) := by
  have hrest : ∀ place, Within P E (do
      let replays := c.readsLower level
      Routine.seek .deleted (if replays then 0 else place)
      if c.rules.hasNegation (.ofLevel level) then Routine.seek .added 0
      modify fun r => { r with reflexivity := .new c.dictionary.size width }
      let budget ← Routine.reads c.budget
      pure ({ level, lowerEnd := place, replays, budget } : DeletionTask) : Routine DeletionTask) := by
    refine fun place => .bind (ht.idle.seek _ _) fun _ => .ite (fun _ => .bind (ht.idle.seek _ _) fun _ => ?_)
      fun _ => ?_
    all_goals
      exact .bind (ht.adjust (fun _ => rfl) (fun _ => rfl) fun _ => rfl) fun _ =>
        .bind (Routine.reads_within _) fun _ => .pure _
  cases level with
  | none => exact .bind (.pure 0) hrest
  | some l =>
    exact .bind (Routine.reads_within _) fun _ => .bind (ht.idle.demand _) fun retracted =>
      .bind (ht.append _ retracted) fun _ => .bind (.pure _) hrest

end

section

variable (ht : Bears c P E)

include ht

theorem delete_within : Within P E (delete c t) := by
  refine .bind (Routine.reads_within _) fun found => ?_
  cases found with
  | none => exact ht.throw rfl
  | some row =>
    refine .bind (ht.addFlags row _ rfl) fun isNew => .ite (fun _ => .bind (ht.enqueue row) fun _ => ?_)
      fun _ => ?_
    all_goals exact ht.announce _ rfl

theorem replay_within : Within P E (task.replay c) := by
  have hdelete : ∀ i rule {accepts}, RuleIndex.AcceptsHeads P E (c.view accepts)
      (fun _ head => delete c head) i rule := fun _ _ _ =>
    RuleIndex.acceptsHeads_of_within fun _ _ => delete_within ht
  refine .bind (ht.announce _ rfl) fun _ => .bind ?_ fun _ => .ite (fun _ => ?_) fun _ => .pure _
  · refine ht.drain (ht.dequeueBefore _) (fun row _ => ?_) _ _
    refine .bind (Routine.reads_within _) fun _ => .ite (fun _ => ?_) fun _ => .pure _
    exact .bind (ht.factOf row) fun t =>
      RuleIndex.applyToPositive_within ht.breaks rfl fun _ _ _ => hdelete _ _
  · refine ht.drain (ht.dequeue .added nofun) (fun row _ => ?_) _ _
    refine .bind (Routine.reads_within _) fun _ => .ite (fun _ => ?_) fun _ => .pure _
    exact .bind (ht.factOf row) fun t =>
      RuleIndex.applyToNegation_within ht.breaks rfl fun _ _ _ => hdelete _ _

theorem propagateEquality_within : Within P E (propagateEquality c t) := by
  have hreplaced : ∀ row, Within P E (deleteReplaced c row) := fun row =>
    .bind (Routine.reads_within _) fun _ => .ite (fun _ => .bind (ht.addFlags row _ rfl) fun _ => .ite
      (fun _ => .bind (ht.enqueue row) fun _ => .ite (fun _ => .bind (ht.factOf row) fun _ => ht.announce _ rfl)
      fun _ => .pure _) fun _ => .pure _)
      fun _ => .pure _
  have hreflexive : ∀ ids : List Nat, Within P E (ids.forM fun id => do
      if ← Routine.checkReflexivity id 0 then delete c (.reflexive id)) := fun ids =>
    .forM fun id _ => .bind (ht.checkReflexivity id 0) fun _ =>
      .ite (fun _ => delete_within ht) fun _ => .pure _
  refine .bind (Routine.reads_within _) fun classes => ?_
  cases classes with
  | none => exact .pure _
  | some classes =>
    refine .ite (fun _ => .bind ?_ fun _ => hreflexive _) fun _ => hreflexive _
    exact .bind (Routine.reads_within _) fun rows => .forM fun row _ => hreplaced row

/-- What was derived from a fact is queued. -/
theorem propagate_within : Within P E (task.propagate c row t) := by
  refine .bind (propagateEquality_within ht) fun _ => .ite (fun _ => ?_) fun _ => .pure _
  exact RuleIndex.applyToPositive_within ht.breaks rfl fun _ _ _ =>
    RuleIndex.acceptsHeads_of_within fun _ _ => delete_within ht

end

end DeletionTask

/-- `P` withstands what is done while levels are worked off, also that a fact which was found to have lost
its support is deleted. -/
structure Maintenance.Withstands (c : Context) (P : Run → Prop) (E : Failure → Run → Prop) : Prop where
  calm : Run.Tolerates (Run.Calm c.unsettled) P E
  judged (row : RowIndex) (t : Triple) (r : Run) (h : P r) (hf : r.table.fact? row = some t) :
    Ends (do
      discard <| Routine.addFlags row Flag.Update.deleted
      c.announce .deletionPropagationFinished
      c.announce (.deletionJudged t true)) r (fun _ => P) E

section tasks

open Maintenance

variable {row : RowIndex} {t : Triple} {n : Nat} (hw : Withstands c P E)

include hw

namespace DeletionTask

variable {task : DeletionTask} {check : RowIndex → Triple → Routine Bool}
  (hcheck : ∀ {P : Run → Prop}, Run.Tolerates Run.Idle P E → ∀ row t, Within P E (check row t))

include hcheck

theorem judge_within : Within P E (task.judge c check row) := by
  intro r hr
  refine Ends.bind_iff.mpr (hw.calm.idle.factOf_ends hr fun t hf => ?_)
  have ht := hw.calm.withFact row t
  -- what is queued for the fact leaves it in its row
  have hstep : ∀ {α β} {x : Routine α} {f : α → Routine β} {r},
      Within (fun r => P r ∧ r.table.fact? row = some t) E x →
      P r ∧ r.table.fact? row = some t →
      (∀ a r', P r' ∧ r'.table.fact? row = some t → Ends (f a) r' (fun _ => P) E) →
      Ends (x >>= f) r (fun _ => P) E :=
    fun hx hr hf => Ends.bind_iff.mpr ((hx _ hr).mono hf fun _ _ => id)
  refine hstep (ht.idle.announce rfl) ⟨hr, hf⟩ fun _ r₁ hr₁ => ?_
  refine hstep (hcheck ht.idle row t) hr₁ fun kept r₂ hr₂ => ?_
  cases kept with
  | true => exact hw.calm.idle.announce rfl r₂ hr₂.1
  | false =>
    refine hstep (ht.idle.announce rfl) hr₂ fun _ r₃ hr₃ => ?_
    exact hstep (propagate_within (.of_calm ht)) hr₃ fun _ r₄ hr₄ => hw.judged row t r₄ hr₄.1 hr₄.2

/-- However queued facts are checked, if the checks are idle. -/
theorem run_within : Within P E (task.run c check) := by
  have hall : Within P E (Routine.orStop (task.judgeAll c check)) := by
    refine hw.calm.idle.orStop (.bind (hw.calm.idle.announce rfl) fun _ => .bind ?_ fun _ =>
      hw.calm.idle.announce rfl)
    exact hw.calm.idle.drain (hw.calm.idle.whileRunning (hw.calm.idle.dequeue _))
      (fun row _ => judge_within hw hcheck) _ _
  exact .ite (fun _ => .bind (hw.calm.idle.orStop (replay_within (.of_calm hw.calm))) fun _ => hall) fun _ => hall

end DeletionTask

/-- The facts of a level that have lost their support are deleted after a search for proofs. -/
theorem Search.delete_within (level : Option Nat) : Within P E (Search.delete c level) := by
  refine .bind (hw.calm.idle.announce rfl) fun _ => .bind (.bind (DeletionTask.start_within hw.calm level 3)
    fun task => .bind (hw.calm.adjust (fun _ => rfl) (fun _ => rfl) fun _ => rfl) fun _ => .pure task)
    fun task => ?_
  refine .bind (DeletionTask.run_within hw fun ht _ _ => Search.check_within ht) fun _ => ?_
  exact .bind (Routine.reads_within _) fun _ => .bind (hw.calm.idle.note _) fun _ =>
    .bind (hw.calm.idle.announce rfl) fun _ => .pure _

namespace Rederivation

/-- Whatever may have lost its support at a level is deleted. -/
theorem delete_within (level : Option Nat) : Within P E (delete c level) :=
  .bind (hw.calm.idle.announce rfl) fun _ => .bind (DeletionTask.start_within hw.calm level 1) fun _ =>
    .bind (DeletionTask.run_within hw fun _ _ _ => .pure false) fun _ => hw.calm.idle.announce rfl

end Rederivation

end tasks

namespace Rederivation

variable {row : RowIndex} {n : Nat} (ht : Run.Tolerates (Run.Calm free) P E)

include ht

theorem consider_within : Within P E (consider c row n) := by
  refine .bind (Routine.reads_within _) fun _ => .ite (fun _ => .pure _) fun _ =>
    .bind (Routine.reads_within _) fun known => ?_
  split
  · exact .pure _
  · refine .ite (fun _ => .bind (.pure _) fun kept => ?_) fun _ =>
      .bind (RuleIndex.isDerivable_within ht.breaks rfl _) fun kept => ?_
    all_goals
      refine .ite (fun _ => .pure _) fun _ => .bind (ht.addFlags row rfl) fun _ => .ite (fun _ => .pure _)
        fun _ => ?_
      exact .bind (ht.enqueue _ row) fun _ => .bind (ht.idle.announce rfl) fun _ => .pure _

/-- What still has support is put back. -/
theorem rederive_within (level : Option Nat) : Within P E (rederive c level) := by
  refine .bind (ht.idle.announce rfl) fun _ => .bind (ht.idle.endBefore _ _) fun _ =>
    .bind (ht.idle.seek _ _) fun _ => .bind (Routine.reads_within _) fun _ =>
      .bind (ht.idle.announce rfl) fun _ => .bind ?_ fun _ => .bind (ht.idle.note _) fun _ =>
        .bind (ht.idle.announce rfl) fun _ => .pure _
  exact ht.idle.drain (ht.idle.whileRunning (ht.idle.dequeue _))
    (fun _ _ => consider_within ht) _ _

end Rederivation

/-! ## Insertion -/

theorem Context.any_unsettled (he : c.mode.equality.enabled = true) {b : Status} (h : c.unsettled.any b = false) :
    Status.derived.any b = false ∧ Status.merged.any b = false := by
  rwa [unsettled, if_pos he, Bits.any_or, Bool.or_eq_false_iff] at h

namespace InsertionTask

variable {task : InsertionTask} {row : RowIndex} {t : Triple} {n : Nat} {derive' : Triple → Routine Unit}
  (ht : Run.Tolerates (Run.Calm c.unsettled) P E)

include ht

theorem start_within (level : Option Nat) : Within P E (start c level) := by
  have hrest : Within P E (do
      Routine.seek .added 0
      if c.rules.hasNegation (.ofLevel level) then Routine.seek .deleted 0
      let lowerEnd ← Routine.endBefore (fun r => r.update.addedEnds) level
      modify fun r => { r with reflexivity := .new c.dictionary.size 1 }
      let budget ← Routine.reads c.budget
      pure ({ level, lowerEnd, replays := c.readsLower level, budget } : InsertionTask) :
        Routine InsertionTask) := by
    refine .bind (ht.idle.seek _ _) fun _ => .ite (fun _ => .bind (ht.idle.seek _ _) fun _ => ?_) fun _ => ?_
    all_goals
      exact .bind (ht.idle.endBefore _ _) fun _ => .bind (ht.adjust (fun _ => rfl) (fun _ => rfl) fun _ => rfl)
        fun _ => .bind (Routine.reads_within _) fun _ => .pure _
  cases level with
  | none => exact hrest
  | some l =>
    exact .bind (ht.idle.demand _) fun asserted => .bind (ht.append _ asserted) fun _ => hrest

section equality

variable (he : c.mode.equality.enabled = true)

include he

theorem markMerged_within (row : RowIndex) : Within P E (markMerged row) := by
  refine .bind (ht.addFlags row rfl) fun _ => .bind (Routine.reads_within _) fun _ => .ite
    (fun _ => .bind (.discard (ht.updateStatus row fun b hb => ?_)) fun _ => .pure _) fun _ => .pure _
  exact Context.any_unsettled he hb

variable (hd : ∀ t, Within P E (derive' t))

include hd

theorem renormalize_within (row : RowIndex) : Within P E (renormalize c derive' row) := by
  refine .bind (Routine.reads_within _) fun _ => .ite (fun _ => ?_) fun _ => .pure _
  refine .bind (ht.idle.factOf row) fun t => .bind (Routine.reads_within _) fun normal => .ite (fun _ => ?_)
    fun _ => .pure _
  exact .bind (markMerged_within ht he row) fun _ => .ite (fun _ => hd normal) fun _ => .pure _

theorem absorb_within (source : Nat) : Within P E (absorb c task derive' source) := by
  refine .bind ?_ fun _ => .bind (Routine.reads_within _) fun rules => ?_
  · exact .forM fun p _ => .bind (Routine.reads_within _) fun rows =>
      .forM fun row _ => renormalize_within ht he hd row
  · exact .forM fun rule _ => RuleIndex.evaluateRule_within ht.breaks rfl fun _ _ =>
      RuleIndex.acceptsHeads_of_within fun _ head => hd head

theorem unite_within (first second : Nat) : Within P E (unite c task derive' first second) := by
  refine .bind (ht.mergeSteady _ _) fun merged => .ite
    (fun _ => .bind (ht.idle.announce rfl) fun _ => .bind (absorb_within ht he hd _) fun _ => ?_) fun _ => ?_
  all_goals
    refine .ite (fun _ => .bind (ht.idle.announce rfl) fun _ => ?_) fun _ => .pure _
    exact .bind (Routine.reads_within _) fun nothing => hd nothing

end equality

theorem derive_within (depth : Nat) (t : Triple) : Within P E (derive c task depth t) := by
  induction depth generalizing t with
  | zero => exact ht.idle.throw trivial
  | succ depth ih =>
    refine .bind (Routine.reads_within _) fun normal => .ite (fun _ => .bind (ht.idle.rowOf t) fun row => ?_)
      fun _ => .pure _
    refine .bind (ht.addFlags row rfl) fun isNew =>
      .ite (fun _ => .bind (ht.enqueue _ row) fun _ => ?_) fun _ => ?_
    all_goals
      refine .bind (ht.idle.announce rfl) fun _ => .ite (fun h => ?_) fun _ => .pure _
      exact unite_within ht h.2.1 ih _ _

theorem deriveFact_within (t : Triple) : Within P E (task.deriveFact c t) := derive_within ht _ t

theorem replay_within : Within P E (task.replay c) := by
  have hderive : ∀ i rule {accepts}, RuleIndex.AcceptsHeads P E (c.view accepts)
      (fun _ head => task.deriveFact c head) i rule := fun _ _ _ =>
    RuleIndex.acceptsHeads_of_within fun _ _ => deriveFact_within ht _
  refine .bind ?_ fun _ => .ite (fun _ => ?_) fun _ => .pure _
  · refine ht.idle.drain (ht.idle.whileRunning (ht.idle.dequeueBefore _ _)) (fun row _ => ?_) _ _
    refine .bind (Routine.reads_within _) fun _ => .ite (fun _ => ?_) fun _ => .pure _
    exact .bind (ht.idle.factOf row) fun t =>
      RuleIndex.applyToPositive_within ht.breaks rfl fun _ _ _ => hderive _ _
  · refine ht.idle.drain (ht.idle.whileRunning (ht.idle.dequeue _)) (fun row _ => ?_) _ _
    refine .bind (Routine.reads_within _) fun _ => .ite (fun _ => ?_) fun _ => .pure _
    exact .bind (ht.idle.factOf row) fun t =>
      RuleIndex.applyToNegation_within ht.breaks rfl fun _ _ _ => hderive _ _

theorem propagate_within : Within P E (task.propagate c row t) := by
  have hrules : Within P E (if c.rules.hasRecursive task.scope then
      c.rules.applyToPositive (c.view (additionFilter c row)) row t task.scope fun _ head =>
        task.deriveFact c head else pure ()) :=
    .ite (fun _ => RuleIndex.applyToPositive_within ht.breaks rfl fun _ _ _ =>
      RuleIndex.acceptsHeads_of_within fun _ _ => deriveFact_within ht _) fun _ => .pure _
  refine .ite (fun _ => .bind (.forM fun id _ => ?_) fun _ => hrules) fun _ => hrules
  exact .bind (ht.idle.checkReflexivity id 0) fun _ => .ite (fun _ => deriveFact_within ht _) fun _ => .pure _

theorem addNormal_within : Within P E (task.addNormal c row t n) := by
  refine .bind (ht.addFlags row rfl) fun isNew =>
    .ite (fun _ => .bind (ht.idle.announce rfl) fun _ => ?_) fun _ => ?_
  all_goals
    refine .ite (fun h => .bind (unite_within ht h.1 (deriveFact_within ht) _ _) fun _ => .pure _) fun _ => ?_
    exact .bind (propagate_within ht) fun _ => .pure _

/-- Facts are given up for their normal forms only if equality is in use. -/
theorem add_within : Within P E (task.add c row t n) := by
  intro r hr
  refine Ends.bind_iff.mpr ?_
  by_cases he : c.mode.equality.enabled = true
  · refine Within.ite (fun _ => .bind (.discard (markMerged_within ht he row)) fun _ => ?_)
      (fun _ => addNormal_within ht) r hr
    exact .bind (deriveFact_within ht _) fun _ => .pure _
  · have hsteady : c.steady? r = none := by rw [Context.steady?, if_neg he]
    simp only [Routine.reads, Ends, hsteady, ne_eq, not_true, if_false]
    exact addNormal_within ht r hr

theorem consider_within : Within P E (task.consider c row n) := by
  refine .bind (Routine.reads_within _) fun known => ?_
  split
  · exact .pure _
  · exact .bind (Routine.reads_within _) fun _ => .ite (fun _ => .pure _) fun _ => add_within ht

theorem addAll_within : Within P E (task.addAll c) := by
  have hrest : Within P E (do
      c.announce .insertionRecursiveStarted
      let count ← Routine.drain (c.whileRunning (Routine.dequeue .added)) (task.consider c) task.budget 0
      c.announce .insertionFinished
      pure count) :=
    .bind (ht.idle.announce rfl) fun _ => .bind
      (ht.idle.drain (ht.idle.whileRunning (ht.idle.dequeue _)) (fun _ _ => consider_within ht) _ _) fun _ =>
        .bind (ht.idle.announce rfl) fun _ => .pure _
  exact .bind (ht.idle.announce rfl) fun _ => .ite (fun _ => .bind (replay_within ht) fun _ => hrest)
    fun _ => hrest

end InsertionTask

/-- What follows at a level is added. -/
theorem insert_within (ht : Run.Tolerates (Run.Calm c.unsettled) P E) (level : Option Nat) :
    Within P E (insert c level) :=
  .bind (InsertionTask.start_within ht level) fun _ => .bind (ht.idle.announce rfl) fun _ =>
    .bind (ht.idle.orStop (InsertionTask.addAll_within ht)) fun _ => .bind (ht.idle.note _) fun _ =>
      .bind (ht.idle.announce rfl) fun _ => .pure _

/-! ## Changes of base facts -/

namespace Changes

variable {facts : List Triple} {row : RowIndex} {t : Triple} {n : Nat} (ht : Run.Tolerates (Run.Calm free) P E)

include ht

theorem queue_within (w : WorkList) {byLevel : Update → Array Queue} {withQueues : Update → Array Queue → Update}
    (hflags : ∀ u qs, (withQueues u qs).flags = u.flags) :
    Within P E (queue c w byLevel withQueues row t) := by
  refine .ite (fun _ => ht.enqueue w row) fun _ => .bind (ht.idle.demand _) fun q =>
    .bind (ht.idle.ofExcept fun e h => ?_) fun _ => ht.adjust (fun _ => rfl) (fun _ => hflags _ _) fun _ => rfl
  rw [Queue.enqueue] at h
  split at h <;> cases h
  rfl

theorem queueDeleted_within : Within P E (queueDeleted c row t) :=
  .bind (ht.addFlags row rfl) fun _ => .ite (fun _ => queue_within ht _ fun _ _ => rfl) fun _ => .pure _

theorem queueAdded_within : Within P E (queueAdded c row t) :=
  .bind (ht.addFlags row rfl) fun _ => .ite (fun _ => queue_within ht _ fun _ _ => rfl) fun _ => .pure _

theorem standIn_within : Within P E (standIn c row t) := by
  refine .bind (Routine.reads_within _) fun classes => ?_
  cases classes with
  | none => exact .pure _
  | some classes => exact .ite (fun _ => .pure _) fun _ => .bind (ht.idle.rowOf _) fun _ => .pure _

/-- What is retracted is queued, if `P` withstands that it is not asserted any more. -/
theorem retract_within (hP : ∀ t ∈ facts, ∀ r row, P r → r.table.fact? row = some t →
      P { r with table := (r.table.updateStatus row Status.asserted 0).2 }) :
    Within P E (retract c facts) := by
  refine .bind (.foldlM (fun t hmem n => .bind (fun r hr => ?_) fun _ => .ite (fun _ => .pure _) fun _ => .pure _)
    _) fun _ => .bind (ht.idle.note _) fun _ => .pure _
  refine Ends.bind_iff.mpr ?_
  simp only [Routine.reads, Ends]
  cases hrow : r.table.index? t with
  | none => exact hr
  | some row =>
    refine Ends.bind_iff.mpr (Ends.modifyGet_iff.mpr ?_)
    exact Within.ite (fun _ => .bind (standIn_within ht) fun p => .bind (queueDeleted_within ht) fun _ => .pure _)
      (fun _ => .pure _) _ (hP t hmem r row hr (Table.index?_eq_some_iff.mp hrow))

/-- What is asserted is queued, if `P` withstands that it is asserted. -/
theorem assert_within (hP : ∀ t ∈ facts, ∀ r, P r → P { r with table := (r.table.add t Status.asserted).2 }) :
    Within P E (assert c facts) := by
  refine .bind (.foldlM (fun t hmem n => .bind (.bind (fun r hr => ?_) fun p => ?_) fun _ =>
    .ite (fun _ => .pure _) fun _ => .pure _) _) fun _ => .bind (ht.idle.note _) fun _ => .pure _
  · exact Ends.modifyGet_iff.mpr (hP t hmem r hr)
  · exact .ite (fun _ => .bind (queueAdded_within ht) fun _ => .pure _) fun _ => .pure _

theorem copyClass_within : Within P E (copyClass c row n) := by
  refine .bind (Routine.reads_within _) fun known => ?_
  split
  · exact .pure _
  · exact .bind (Routine.reads_within _) fun _ => .ite (fun _ => .bind (ht.idle.announce rfl) fun _ =>
      .bind (ht.adjust (fun _ => rfl) (fun _ => rfl) fun _ => rfl) fun _ => .pure _) fun _ => .pure _

/-- The classes of deleted equalities are set back. -/
theorem copyClasses_within : Within P E (copyClasses c) :=
  .bind (ht.idle.seek _ _) fun _ => .bind (Routine.reads_within _) fun _ =>
    ht.idle.drain (ht.idle.whileRunning (ht.idle.dequeue _)) (fun _ _ => copyClass_within ht) _ _

end Changes

/-! ## Materialization -/

namespace Materialization

theorem levels_within (hi : Run.Tolerates Run.Idle P E) : Within P E (Routine.lift (levels c.rules c.mode)) := by
  refine hi.lift fun f hf => ?_
  rw [levels] at hf
  split at hf
  · cases hf
  · split at hf <;> cases hf
    trivial

variable {done : Equated} (ht : Run.Tolerates (Run.Calm (Status.derived ||| c.unsettled)) P E)

include ht

theorem add_within (t : Triple) : Within P E (add c t) := by
  have hderived : ∀ {b}, (Status.derived ||| c.unsettled).any b = false →
      Status.derived.any b = false ∧ c.unsettled.any b = false := fun h => by
    rwa [Bits.any_or, Bool.or_eq_false_iff] at h
  by_cases he : c.mode.equality.enabled = true
  · have hgiven : ∀ {b}, (Status.derived ||| c.unsettled).any b = false →
        Status.derived.any b = false ∧ Status.merged.any b = false := fun h =>
      Context.any_unsettled he (hderived h).2
    refine .bind (Routine.reads_within _) fun classes => ?_
    cases classes with
    | none => exact .bind (ht.store t Bits.isBit_derived fun _ h => (hderived h).1) fun _ => .pure _
    | some classes =>
      refine .ite (fun _ => .bind (ht.idle.rowOf _) fun row => .bind
        (.discard (ht.updateStatus row fun _ => hgiven)) fun _ => ?_) fun _ => ?_
      all_goals
        exact .bind (ht.idle.rowOf _) fun row => ht.updateStatus row fun _ hb => (hgiven hb).symm
  · have hsteady : ∀ r, c.steady? r = none := fun r => by rw [Context.steady?, if_neg he]
    refine fun r hr => Ends.bind_iff.mpr ?_
    simp only [Routine.reads, Ends, hsteady]
    exact (ht.store t Bits.isBit_derived fun _ h => (hderived h).1).bind (fun p => .pure p.1) r hr

theorem addAll_within (facts : List Triple) : Within P E (addAll c facts) :=
  .foldlM (fun t _ _ => .bind (add_within ht t) fun _ => .pure _) _

theorem applyRules_within (scope : Scope) : Within P E (applyRules c scope) :=
  .foldlM (fun _ _ _ => .bind (RuleIndex.consequences_within ht.breaks rfl) fun facts =>
    .bind (addAll_within ht facts) fun _ => .pure _) _

theorem mergeBy_within (t : Triple) : Within P E (mergeBy c t done) := by
  refine .bind (ht.mergeSteady _ _) fun merged =>
    .ite (fun _ => .bind (ht.idle.announce rfl) fun _ => ?_) fun _ => ?_
  all_goals
    exact .ite (fun _ => .bind (ht.idle.announce rfl) fun _ => .bind (add_within ht _) fun _ => .pure _)
      fun _ => .pure _

theorem equateFact_within (t : Triple) : Within P E (equateFact c done t) :=
  .bind (addAll_within ht _) fun _ => .ite (fun _ => mergeBy_within ht t) fun _ => .pure _

theorem renormalize_within (t : Triple) : Within P E (renormalize c t) :=
  .bind (Routine.reads_within _) fun _ => .ite (fun _ => .discard (add_within ht t)) fun _ => .pure _

theorem equateAll_within (fuel : Nat) (changed : Bool) : Within P E (equateAll c fuel changed) := by
  induction fuel generalizing changed with
  | zero => exact ht.idle.throw trivial
  | succ fuel ih =>
    refine .bind (Routine.reads_within _) fun facts => .bind (.foldlM (fun t _ _ => equateFact_within ht t) _)
      fun done => .ite (fun _ => .pure _) fun _ => .bind (Routine.reads_within _) fun facts => ?_
    exact .bind (.forM fun t _ => renormalize_within ht t) fun _ => ih true

theorem equate_within : Within P E (equate c) :=
  .ite (fun _ => .bind (Routine.reads_within _) fun _ => equateAll_within ht _ _) fun _ => .pure _

theorem saturate_within (scope : Scope) (fuel rounds : Nat) : Within P E (saturate c scope fuel rounds) := by
  induction fuel generalizing rounds with
  | zero => exact ht.idle.throw trivial
  | succ fuel ih =>
    exact .bind (applyRules_within ht scope) fun _ => .bind (equate_within ht) fun _ =>
      .ite (fun _ => ih _) fun _ => .pure _

/-- The materialization is computed. -/
theorem materialize_within : Within P E (materialize c) := by
  refine .bind (Routine.reads_within _) fun asserted => .bind (.discard (addAll_within ht _)) fun _ =>
    .bind (levels_within ht.idle) fun levels => .bind (.forM fun level _ => ?_) fun _ =>
      .bind (Routine.reads_within _) fun _ => .bind (ht.idle.note _) fun _ => .pure _
  exact .bind (Routine.reads_within _) fun _ => .bind (saturate_within ht _ _ _) fun _ => ht.idle.note _

end Materialization

/-! ## Whole updates -/

namespace Maintenance

section levels

variable (hw : Withstands c P E) (level : Option Nat) (stats : Stats)

include hw

theorem deleteLevel_within : Within P E (deleteLevel c level stats) := by
  rw [deleteLevel]
  cases stats.strategy with
  | dred =>
    exact .bind (Rederivation.delete_within hw level) fun _ =>
      .bind (Rederivation.rederive_within hw.calm level) fun _ => .pure _
  | fbf =>
    exact .bind (Search.delete_within hw level) fun _ => .ite
      (fun _ => .bind (.discard (Changes.copyClasses_within hw.calm)) fun _ => .pure _) fun _ => .pure _

/-- Levels are worked off. -/
theorem updateLevel_within : Within P E (updateLevel c level stats) :=
  .bind (hw.calm.adjust (fun _ => rfl) (fun _ => rfl) fun _ => rfl) fun _ => .bind (hw.calm.idle.announce rfl)
    fun _ => .bind (deleteLevel_within hw level stats) fun _ => .bind (insert_within hw.calm level) fun _ =>
      .bind (.bind (hw.calm.idle.demand _) fun _ => hw.calm.adjust (fun _ => rfl) (fun _ => rfl) fun _ => rfl)
        fun _ => .bind (hw.calm.idle.note _) fun _ => .bind (hw.calm.idle.announce rfl) fun _ => .pure _

theorem updateLevels_within (levels : List (Option Nat)) : Within P E (updateLevels c levels stats) := by
  induction levels generalizing stats with
  | nil => exact .pure _
  | cons level rest ih =>
    exact .bind hw.calm.idle.isRunning fun _ => .ite
      (fun _ => .bind (updateLevel_within hw level stats) fun stats => ih stats) fun _ => .pure _

end levels

/-- Two statistics count the same changes of base facts. -/
structure SameBase (s s' : Stats) : Prop where
  retracted : s'.retracted = s.retracted
  ignored : s'.ignored = s.ignored
  asserted : s'.asserted = s.asserted

/-- Two statistics count the same changes, of base facts and of the materialization. -/
structure SameCounts (s s' : Stats) : Prop extends SameBase s s' where
  deleted : s'.deleted = s.deleted
  added : s'.added = s.added

theorem updateLevel_sameCounts (level : Option Nat) (stats : Stats) :
    WLP (updateLevel c level stats) r fun stats' _ => SameCounts stats stats' := by
  have hdelete : ∀ r, WLP (deleteLevel c level stats) r fun stats' _ => SameCounts stats stats' := fun r => by
    rw [deleteLevel]
    cases stats.strategy with
    | dred =>
      exact WLP.bind_iff.mpr fun _ _ _ => WLP.bind_iff.mpr fun _ _ _ =>
        WLP.pure_iff.mpr ⟨⟨rfl, rfl, rfl⟩, rfl, rfl⟩
    | fbf =>
      refine WLP.bind_iff.mpr fun _ _ _ => WLP.ite (fun _ => WLP.bind_iff.mpr fun _ _ _ => ?_) fun _ => ?_ <;>
        exact WLP.pure_iff.mpr ⟨⟨rfl, rfl, rfl⟩, rfl, rfl⟩
  refine WLP.bind_iff.mpr fun _ _ _ => WLP.bind_iff.mpr fun _ r₁ _ => WLP.bind_iff.mpr ?_
  refine (hdelete r₁).mono fun stats' _ hs => WLP.bind_iff.mpr fun _ _ _ => WLP.bind_iff.mpr fun _ _ _ => ?_
  exact WLP.bind_iff.mpr fun _ _ _ => WLP.bind_iff.mpr fun _ _ _ =>
    WLP.pure_iff.mpr ⟨⟨hs.retracted, hs.ignored, hs.asserted⟩, hs.deleted, hs.added⟩

theorem updateLevels_sameCounts (levels : List (Option Nat)) (stats : Stats) :
    WLP (updateLevels c levels stats) r fun stats' _ => SameCounts stats stats' := by
  induction levels generalizing stats r with
  | nil => exact WLP.pure_iff.mpr ⟨⟨rfl, rfl, rfl⟩, rfl, rfl⟩
  | cons level rest ih =>
    refine WLP.bind_iff.mpr fun _ r₁ _ => WLP.ite (fun _ => WLP.bind_iff.mpr ?_) fun _ =>
      WLP.pure_iff.mpr ⟨⟨rfl, rfl, rfl⟩, rfl, rfl⟩
    exact (updateLevel_sameCounts level stats).mono fun stats₁ r₂ h₁ => (ih stats₁).mono fun stats₂ _ h₂ =>
      ⟨⟨h₂.retracted.trans h₁.retracted, h₂.ignored.trans h₁.ignored, h₂.asserted.trans h₁.asserted⟩,
        h₂.deleted.trans h₁.deleted, h₂.added.trans h₁.added⟩

theorem finish_sameBase (stats : Stats) :
    WLP (finish c stats) r fun stats' _ => SameBase stats stats' := by
  refine WLP.bind_iff.mpr fun _ _ _ => WLP.ite (fun _ => ?_) fun _ => ?_
  · exact WLP.bind_iff.mpr fun _ _ _ => WLP.bind_iff.mpr fun _ _ _ => WLP.pure_iff.mpr ⟨rfl, rfl, rfl⟩
  · exact WLP.bind_iff.mpr fun _ _ _ => WLP.pure_iff.mpr ⟨rfl, rfl, rfl⟩

/-- A property of the store withstands levels if it is kept by calm tasks, since a deletion is a flag. -/
theorem Withstands.ofTable {p : Table → Prop}
    (h : ∀ r r' : Run, r.Calm c.unsettled r' → p r.table → p r'.table) :
    Withstands c (fun r => p r.table) fun _ r => p r.table where
  calm := .ofTable h
  judged row t r hr _ := by
    refine Ends.bind_iff.mpr (Ends.discard_iff.mpr (Routine.addFlags_ends (fun m _ => ?_) fun _ _ => hr))
    refine Ends.bind_iff.mpr (Context.announce_ends fun r₁ ht₁ _ _ => Context.announce_ends fun r₂ ht₂ _ _ => ?_)
    rw [ht₂, ht₁]
    exact hr

theorem startUpdate_ends {maxLevel : Option Nat} {Q : Unit → Run → Prop}
    (h : ∀ u, r.update.start maxLevel = .ok u → Q () { r with update := u }) (hE : E .misuse r) :
    Ends (Routine.startUpdate maxLevel) r Q E := by
  simp only [Ends, Routine.startUpdate]
  cases hu : r.update.start maxLevel with
  | ok u => exact h u hu
  | error f =>
    rw [Update.start] at hu
    split at hu <;> cases hu
    exact hE

/-- What an update does before its first level: the levels it is to work off, and the statistics so far. -/
def seed (c : Context) (strategy : Strategy) (retractions assertions : List Triple) :
    Routine (List (Option Nat) × Stats) := do
  Routine.note (.applyingChanges strategy.name)
  Routine.startUpdate (maxLevel? c)
  modify fun r => { r with proving := .discrete }
  let levels ← Routine.lift (Materialization.levels c.rules c.mode)
  let retracted ← Changes.retract c retractions
  let asserted ← Changes.assert c assertions
  pure (levels, { strategy, retracted := retracted.seeded, ignored := retracted.ignored, asserted })

/-- What an update does before its outcome is written. -/
def prepare (c : Context) (strategy : Strategy) (retractions assertions : List Triple) : Routine Stats := do
  let (levels, stats) ← seed c strategy retractions assertions
  updateLevels c levels stats

theorem update_eq (c : Context) (strategy : Strategy) (retractions assertions : List Triple) :
    update c strategy retractions assertions = prepare c strategy retractions assertions >>= finish c := by
  simp only [update, prepare, seed, bind_assoc, pure_bind]

/-- `P` withstands what an update of the given facts does before its outcome is written. -/
structure Bears (c : Context) (retractions assertions : List Triple) (P : Run → Prop)
    (E : Failure → Run → Prop) : Prop extends Withstands c P E where
  begins (r : Run) (u : Update) (maxLevel : Option Nat) (h : P r) (hu : r.update.start maxLevel = .ok u) :
    P { r with update := u }
  retracted (t : Triple) (ht : t ∈ retractions) (r : Run) (row : RowIndex) (h : P r)
    (hf : r.table.fact? row = some t) : P { r with table := (r.table.updateStatus row Status.asserted 0).2 }
  asserted (t : Triple) (ht : t ∈ assertions) (r : Run) (h : P r) :
    P { r with table := (r.table.add t Status.asserted).2 }

/-- `P` withstands a whole update that retracts and asserts the given facts. -/
structure Survives (c : Context) (retractions assertions : List Triple) (P : Run → Prop)
    (E : Failure → Run → Prop) : Prop extends Bears c retractions assertions P E where
  settles : Changes.Withstands c P E

section whole

variable {retractions assertions : List Triple}

/-- What a property of the store has to withstand. -/
theorem Survives.ofTable {p : Table → Prop}
    (hcalm : ∀ r r' : Run, r.Calm c.unsettled r' → p r.table → p r'.table)
    (hsettles : Changes.Withstands c (fun r => p r.table) fun _ r => p r.table)
    (hretracted : ∀ t ∈ retractions, ∀ T row, T.fact? row = some t → p T →
      p (T.updateStatus row Status.asserted 0).2)
    (hasserted : ∀ t ∈ assertions, ∀ T, p T → p (T.add t Status.asserted).2) :
    Survives c retractions assertions (fun r => p r.table) fun _ r => p r.table where
  toWithstands := .ofTable hcalm
  begins _ _ _ h _ := h
  retracted t ht r row h hf := hretracted t ht r.table row hf h
  asserted t ht r h := hasserted t ht r.table h
  settles := hsettles

/-- A task of an update fails only in a way that leaves the store unusable. -/
theorem survives_fatal (c : Context) (retractions assertions : List Triple) :
    Survives c retractions assertions (fun _ => True) fun f _ => f.Fatal where
  calm := ⟨fun _ _ _ _ => trivial, fun _ _ _ => id, fun _ _ => id⟩
  judged _ _ _ _ _ := Ends.bind_iff.mpr <| Ends.discard_iff.mpr <| Routine.addFlags_ends
    (fun _ _ => Ends.bind_iff.mpr <| Context.announce_ends fun _ _ _ _ =>
      Context.announce_ends fun _ _ _ _ => trivial) fun _ => id
  begins _ _ _ _ _ := trivial
  retracted _ _ _ _ _ _ := trivial
  asserted _ _ _ _ := trivial
  settles := ⟨⟨fun _ _ _ _ => trivial, fun _ _ _ => id, fun _ _ => id⟩, fun _ _ _ => trivial,
    fun _ _ _ => trivial, fun _ _ _ _ => trivial, fun _ _ _ _ _ => Context.announce_ends fun _ _ _ _ => trivial⟩

theorem seed_within (hb : Bears c retractions assertions P E) (strategy : Strategy) :
    Within P E (seed c strategy retractions assertions) :=
  .bind (hb.calm.idle.note _) fun _ => .bind
    (fun r hr => startUpdate_ends (hb.begins r · _ hr) (hb.calm.fails r _ hr trivial)) fun _ => .bind
    (hb.calm.adjust (fun _ => rfl) (fun _ => rfl) fun _ => rfl) fun _ => .bind
    (Materialization.levels_within hb.calm.idle) fun _ => .bind
    (Changes.retract_within hb.calm hb.retracted) fun _ => .bind
    (Changes.assert_within hb.calm hb.asserted) fun _ => .pure _

theorem prepare_within (hb : Bears c retractions assertions P E) (strategy : Strategy) :
    Within P E (prepare c strategy retractions assertions) :=
  .bind (seed_within hb strategy) fun _ => updateLevels_within hb.toWithstands _ _

theorem finish_within (hw : Changes.Withstands c P E) (stats : Stats) : Within P E (finish c stats) :=
  .bind hw.idle.isRunning fun _ => .ite
    (fun _ => .bind (Changes.propagate_within hw) fun _ => .bind (hw.idle.note _) fun _ => .pure _)
    fun _ => .bind (hw.idle.note _) fun _ => .pure _

/-- A whole update. -/
theorem update_within (hs : Survives c retractions assertions P E) (strategy : Strategy) :
    Within P E (update c strategy retractions assertions) := by
  rw [update_eq]
  exact .bind (prepare_within hs.toBears strategy) fun stats => finish_within hs.settles stats

end whole

end Maintenance

end Entail
