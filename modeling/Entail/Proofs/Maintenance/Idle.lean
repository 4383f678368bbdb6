import Entail.Maintenance.Search
import Entail.Proofs.Maintenance.Changes
import Entail.Proofs.Rule.Emission

/-!
# What a search leaves alone

A search for a proof is `Run.Idle`: it may give facts rows and mark them as examined, proved or disproved,
but the status of what is stored, what the work lists hold and the flags of what is queued stay as they
are, and no outcome is announced (`Search.check_within`). That is so whatever the rules are, whether or
not equality is in use, and also if the search fails, which it does only in a way that leaves the store
unusable.

A routine that does what a relation allows stays within every property that does not notice the relation
(`Run.Tolerates`). The rules below say so of the parts of a task.
-/

namespace Entail

open Changes (Side)
open Flag.Update

variable {c : Context} {R R' : Run → Run → Prop} {P : Run → Prop} {E : Failure → Run → Prop}
  {r r' r'' : Run} {α β : Type}

/-! ## Outcomes -/

/-- Whether an event announces an outcome: a fact is found to be deleted, or leaves or enters the
materialization. -/
def Event.isOutcome : Event → Bool
  | .deletionJudged _ true | .deleted _ | .added _ => true
  | _ => false

/-- The fact of which an event says that it is found to be deleted. -/
def Event.judged? : Event → Option Triple
  | .deletionJudged t true => some t
  | _ => none

/-- The fact of which an event says that it leaves the materialization. -/
def Event.left? : Event → Option Triple
  | .deleted t => some t
  | _ => none

/-- The fact of which an event says that it enters the materialization. -/
def Event.entered? : Event → Option Triple
  | .added t => some t
  | _ => none

/-- The outcomes announced. -/
def Run.outcomes (r : Run) : List Event := r.events.filter Event.isOutcome

/-- The facts of which something was announced, in the order of the announcements. -/
def Run.announced (r : Run) (said? : Event → Option Triple) : List Triple := r.events.filterMap said?

/-- A reading of events that reads nothing but outcomes. -/
def Event.Outcome (said? : Event → Option Triple) : Prop := ∀ e : Event, e.isOutcome = false → said? e = none

theorem Event.outcome_judged : Event.Outcome judged? := fun e h => by
  cases e with
  | deletionJudged t b => cases b <;> first | rfl | cases h
  | _ => rfl

theorem Event.outcome_left : Event.Outcome left? := fun e h => by
  cases e <;> first | rfl | cases h

theorem Event.outcome_entered : Event.Outcome entered? := fun e h => by
  cases e <;> first | rfl | cases h

theorem Run.announced_eq {said? : Event → Option Triple} (hs : Event.Outcome said?)
    (h : r'.outcomes = r.outcomes) :
    r'.announced said? = r.announced said? := by
  have hall : ∀ r : Run, r.announced said? = r.outcomes.filterMap said? := fun r => by
    rw [announced, outcomes, List.filterMap_filter]
    refine List.filterMap_congr fun e _ => ?_
    cases he : e.isOutcome with
    | true => rfl
    | false => exact hs e he
  rw [hall, hall, h]

theorem Run.announced_append {l : List Event} (h : r'.events = r.events ++ l) (said? : Event → Option Triple) :
    r'.announced said? = r.announced said? ++ l.filterMap said? := by
  rw [announced, h, List.filterMap_append]
  rfl

theorem Run.events_push_event {e : Event} :
    ({ r with journal := r.journal.push (.event e) } : Run).events = r.events ++ [e] := by
  simp [events]

theorem Run.events_push_note {n : Note} :
    ({ r with journal := r.journal.push (.note n) } : Run).events = r.events := by
  simp [events]

/-! ## What a property does not notice -/

/-- `P` does not notice what `R` allows, and `E` lets fatal failures happen where `P` holds. -/
structure Run.Tolerates (R : Run → Run → Prop) (P : Run → Prop) (E : Failure → Run → Prop) : Prop where
  keeps (r r' : Run) (h : P r) (hr : R r r') : P r'
  fails (r : Run) (f : Failure) (h : P r) (hf : f.Fatal) : E f r
  stops (r : Run) (f : Failure) (h : E f r) : E f { r with stopped := true }

theorem Run.Tolerates.breaks (ht : Run.Tolerates R P E) (r : Run) (f : Failure) (h : P r) (hf : f.Broken) :
    E f r :=
  ht.fails r f h hf.fatal

theorem Routine.reads_within (f : Run → α) : Within P E (reads f) := fun _ h => h

/-- An announcement is written down and may stop the run, and changes nothing else. -/
theorem Context.announce_frame {e : Event} {Q : Unit → Run → Prop}
    (h : ∀ journal heard stopped, ({ r with journal, heard, stopped } : Run).events =
      r.events ++ (if c.monitored then [e] else []) → Q () { r with journal, heard, stopped }) :
    Ends (c.announce e) r Q E := by
  rw [Context.announce]
  split
  · rename_i hm
    rw [hm, if_pos rfl] at h
    simp only [Ends.modify_iff, Run.hear]
    split
    · split
      · exact h _ _ _ Run.events_push_event
      · exact h _ r.heard r.stopped Run.events_push_event
    · exact h _ r.heard r.stopped Run.events_push_event
  · rename_i hm
    rw [if_neg hm] at h
    exact h r.journal r.heard r.stopped (List.append_nil _).symm

theorem Context.announce_ends {e : Event} {Q : Unit → Run → Prop}
    (h : ∀ r', r'.table = r.table → r'.update = r.update →
      r'.events = r.events ++ (if c.monitored then [e] else []) → Q () r') : Ends (c.announce e) r Q E :=
  announce_frame fun _ _ _ => h _ rfl rfl

theorem Layer.add_ends {l : Layer} {row : RowIndex} {set : Flags} {Q : Bool → Run → Prop}
    (h : ∀ m, (l.marks r.update).Adds row set m →
      Q (((l.marks r.update).flags row ||| set) != (l.marks r.update).flags row)
        { r with update := l.withMarks r.update m }) (hE : ∀ f, f.Broken → E f r) :
    Ends (l.add row set) r Q E := by
  have hmarks : ∀ m : Marks, (∃ m', m.add row set = .ok ((m.flags row ||| set) != m.flags row, m') ∧
      m.Adds row set m') ∨ ∃ e, m.add row set = .error e ∧ (Failure.error e).Broken := by
    intro m
    cases hm : m.add row set with
    | ok p =>
      obtain ⟨changed, m'⟩ := p
      have hadds := Marks.flags_add hm
      rw [Marks.add] at hm
      dsimp only at hm
      split at hm <;> cases hm
      exact .inl ⟨_, rfl, hadds⟩
    | error e =>
      rw [Marks.add] at hm
      dsimp only at hm
      split at hm <;> cases hm
      exact .inr ⟨_, rfl, rfl⟩
  rcases hmarks (l.marks r.update) with ⟨m, hm, ha⟩ | ⟨e, hm, he⟩
  · cases l with
    | update =>
      rw [Ends, add, Routine.addFlags, show r.update.flags.add row set = _ from hm]
      exact h m ha
    | level =>
      rw [Ends, add, Routine.addLevelFlags, show r.update.levelFlags.add row set = _ from hm]
      exact h m ha
  · cases l with
    | update =>
      rw [Ends, add, Routine.addFlags, show r.update.flags.add row set = _ from hm]
      exact hE _ he
    | level =>
      rw [Ends, add, Routine.addLevelFlags, show r.update.levelFlags.add row set = _ from hm]
      exact hE _ he

theorem Routine.addFlags_ends {row : RowIndex} {set : Flags} {Q : Bool → Run → Prop}
    (h : ∀ m, r.update.flags.Adds row set m → Q ((r.flags row ||| set) != r.flags row)
      { r with update := { r.update with flags := m } }) (hE : ∀ f, f.Fatal → E f r) :
    Ends (addFlags row set) r Q E :=
  Layer.add_ends (l := .update) h fun f hf => hE f hf.fatal

namespace Run.Tolerates

variable (ht : Run.Tolerates R P E)

include ht

theorem mono (h : ∀ r r', R' r r' → R r r') : Run.Tolerates R' P E :=
  ⟨fun r r' hp hr => ht.keeps r r' hp (h r r' hr), ht.fails, ht.stops⟩

/-- An operation that does what is allowed, or fails at once. -/
theorem within {x : Routine α} (h : ∀ r, Ends x r (fun _ r' => R r r') fun f r' => f.Fatal ∧ r' = r) :
    Within P E x := fun r hr =>
  (h r).mono (fun _ r' => ht.keeps r r' hr) fun f _ hf => hf.2 ▸ ht.fails r f hr hf.1

theorem throw {f : Failure} (h : f.Fatal) : Within P E (throw f : Routine α) :=
  .throw fun r hr => ht.fails r f hr h

/-- A computation that only reads the run, and fails only fatally. -/
theorem read {x : Routine α} (h : ∀ r, Ends x r (fun _ r' => r' = r) fun f r' => f.Fatal ∧ r' = r) :
    Within P E x := fun r hr =>
  (h r).mono (fun _ _ he => he ▸ hr) fun f _ hf => hf.2 ▸ ht.fails r f hr hf.1

theorem demand (f : Run → Option α) : Within P E (Routine.demand f) := by
  refine ht.read fun r => ?_
  simp only [Ends, Routine.demand]
  split <;> rename_i heq <;> split at heq <;> cases heq
  · rfl
  · exact ⟨trivial, rfl⟩

theorem factOf_ends {row : RowIndex} {Q : Triple → Run → Prop} (hr : P r)
    (hQ : ∀ t, r.table.fact? row = some t → Q t r) : Ends (Routine.factOf row) r Q E := by
  simp only [Ends, Routine.factOf]
  split <;> rename_i heq <;> split at heq <;> cases heq
  · exact hQ _ ‹_›
  · exact ht.fails r _ hr rfl

theorem factOf (row : RowIndex) : Within P E (Routine.factOf row) := fun _ hr =>
  ht.factOf_ends hr fun _ _ => hr

theorem endBefore (ends : Run → Array Nat) (level : Option Nat) :
    Within P E (Routine.endBefore ends level) := by
  refine ht.read fun r => ?_
  simp only [Ends, Routine.endBefore]
  split <;> rename_i heq <;> split at heq <;> cases heq
  · rfl
  · rename_i hend
    unfold Update.endBefore at hend
    split at hend
    · cases hend
    · cases hend
    · split at hend <;> cases hend
      exact ⟨trivial, rfl⟩

theorem lift {x : Except Failure α} (h : ∀ f, x = .error f → f.Fatal) : Within P E (Routine.lift x) := by
  cases x with
  | ok a => exact .pure a
  | error f => exact ht.throw (h f rfl)

theorem ofExcept {x : Except Error α} (h : ∀ e, x = .error e → e.code.fatal = true) :
    Within P E (Routine.ofExcept x) := by
  cases x with
  | ok a => exact .pure a
  | error e => exact ht.throw (f := .error e) (h e rfl)

theorem orStop {x : Routine α} (h : Within P E x) : Within P E (Routine.orStop x) := by
  intro r hr
  have hx := h r hr
  simp only [Ends, Routine.orStop] at hx ⊢
  cases hr : x r with
  | ok a r' =>
    rw [hr] at hx
    exact hx
  | error f r' =>
    rw [hr] at hx
    exact ht.stops r' f hx

theorem drain {next : Routine RowIndex} {handle : RowIndex → β → Routine β} (hnext : Within P E next)
    (hstep : ∀ row b, Within P E (handle row b)) (fuel : Nat) (b : β) :
    Within P E (Routine.drain next handle fuel b) := by
  induction fuel generalizing b with
  | zero => exact ht.throw trivial
  | succ fuel ih =>
    exact .bind hnext fun row => .ite (fun _ => .pure b) fun _ => .bind (hstep row b) fun b' => ih b'

end Run.Tolerates

/-! ## Idle runs -/

namespace Run

/-- From `r` to `r'` nothing happens but that facts get rows and what a search finds is recorded. -/
structure Idle (r r' : Run) : Prop where
  table : r.table.Grows r'.table
  flags (row : Nat) (b : Flags) (h : disproved.any b = false) (h' : normalProved.any b = false) :
    (r'.flags row).any b = (r.flags row).any b
  values (w : WorkList) (h : w ≠ .proved) : (r'.update.queue w).values = (r.update.queue w).values
  byLevel (s : Side) : s.byLevel r'.update = s.byLevel r.update
  ends (s : Side) : s.ends r'.update = s.ends r.update
  outcomes : r'.outcomes = r.outcomes

/-- Only the store, the update and what was announced matter. -/
theorem Idle.of_eq (ht : r'.table = r.table) (hu : r'.update = r.update)
    (ho : r'.outcomes = r.outcomes) : r.Idle r' := by
  refine ⟨ht ▸ .refl _, fun row b _ _ => ?_, fun w _ => by rw [hu], fun s => by rw [hu],
    fun s => by rw [hu], ho⟩
  rw [Run.flags, hu]
  rfl

/-- A queue may be taken from another place on. -/
theorem Idle.of_queue {w : WorkList} {q : Queue} (h : q.values = (r.update.queue w).values) :
    r.Idle { r with update := r.update.withQueue w q } := by
  refine ⟨.refl _, fun row b _ _ => by cases w <;> rfl, fun w' _ => ?_, fun s => by cases w <;> cases s <;> rfl,
    fun s => by cases w <;> cases s <;> rfl, rfl⟩
  cases w <;> cases w' <;> first | rfl | exact h

/-- The flags of the level and what is proved may change. -/
theorem Idle.of_level (levelFlags : Marks) (proved : Queue) :
    r.Idle { r with update := { r.update with levelFlags, proved } } := by
  refine ⟨.refl _, fun _ _ _ _ => rfl, fun w hw => ?_, fun s => by cases s <;> rfl,
    fun s => by cases s <;> rfl, rfl⟩
  cases w with
  | proved => exact absurd rfl hw
  | deleted => rfl
  | added => rfl

namespace Tolerates

variable {row : RowIndex} {set : Flags} (ht : Run.Tolerates Run.Idle P E)

include ht

theorem change {f : Run → Run} (hT : ∀ r, (f r).table = r.table) (hu : ∀ r, (f r).update = r.update)
    (hj : ∀ r, (f r).journal = r.journal) : Within P E (modify f : Routine Unit) :=
  ht.within fun r => Ends.modify_iff.mpr <| .of_eq (hT r) (hu r) <| by
    rw [outcomes, events, hj]
    rfl

theorem announce {e : Event} (he : e.isOutcome = false) : Within P E (c.announce e) := by
  refine ht.within fun r => Context.announce_ends fun r' ht hu hevents => .of_eq ht hu ?_
  rw [outcomes, hevents, List.filter_append]
  split
  · rw [List.filter_singleton, he]
    exact List.append_nil _
  · exact List.append_nil _

theorem note (n : Note) : Within P E (Routine.note n) :=
  ht.within fun r => Ends.modify_iff.mpr <| .of_eq rfl rfl <| by
    rw [outcomes, events_push_note]
    rfl

theorem isRunning : Within P E c.isRunning :=
  ht.within fun _ => Ends.modifyGet_iff.mpr (.of_eq rfl rfl rfl)

theorem whileRunning {next : Routine RowIndex} (h : Within P E next) : Within P E (c.whileRunning next) :=
  .bind ht.isRunning fun _ => .ite (fun _ => h) fun _ => .pure _

theorem announceRow {e : Triple → Event} (he : ∀ t, (e t).isOutcome = false) :
    Within P E (c.announceRow row e) :=
  .ite (fun _ => .bind (ht.factOf row) fun t => ht.announce (he t)) fun _ => .pure _

theorem rowOf (t : Triple) : Within P E (Routine.rowOf t) := by
  refine ht.within fun r => ?_
  obtain ⟨row, r', hx, hg⟩ := Routine.rowOf_wp (r := r) (t := t) (Q := fun _ r' => r.Grows r')
    fun _ _ hg _ _ => hg
  rw [Ends, hx]
  obtain ⟨_, rfl⟩ := hg.eq
  exact ⟨hg.table, fun _ _ _ _ => rfl, fun _ _ => rfl, fun _ => rfl, fun _ => rfl, rfl⟩

theorem addLevelFlags (row : RowIndex) (set : Flags) : Within P E (Routine.addLevelFlags row set) :=
  ht.within fun _ => Layer.add_ends (l := .level) (fun _ _ => .of_level _ _) fun _ hf => ⟨hf.fatal, rfl⟩

/-- What a search finds may be recorded. -/
theorem addFinding (row : RowIndex) (hset : set = disproved ∨ set = normalProved) :
    Within P E (Routine.addFlags row set) := by
  refine ht.within fun r => Routine.addFlags_ends (fun m hm => ?_) fun _ hf => ⟨hf, rfl⟩
  refine ⟨.refl _, fun other b hb hb' => ?_, fun w hw => by cases w <;> rfl,
    fun s => by cases s <;> rfl, fun s => by cases s <;> rfl, rfl⟩
  have hno : set.any b = false := by rcases hset with rfl | rfl <;> assumption
  exact (hm.any b other).trans (by rw [hno, Bool.and_false, Bool.or_false]; rfl)

theorem enqueueProved (row : RowIndex) : Within P E (Routine.enqueue .proved row) := by
  refine ht.within fun r => ?_
  simp only [Ends, Routine.enqueue, Queue.enqueue]
  split <;> rename_i heq <;> split at heq <;> rename_i hadd <;> split at hadd <;> cases hadd <;> cases heq
  · exact .of_level _ _
  · exact ⟨rfl, rfl⟩

theorem seek (w : WorkList) (place : Nat) : Within P E (Routine.seek w place) :=
  ht.within fun _ => Ends.modify_iff.mpr (.of_queue rfl)

theorem dequeue (w : WorkList) : Within P E (Routine.dequeue w) :=
  ht.within fun r => Ends.modifyGet_iff.mpr <| .of_queue <| by
    rw [Queue.dequeue]
    split <;> rfl

theorem dequeueBefore (w : WorkList) (limit : Nat) : Within P E (Routine.dequeueBefore w limit) :=
  ht.within fun r => Ends.modifyGet_iff.mpr <| .of_queue <| by
    rw [Queue.dequeueBefore]
    split
    · rfl
    · split <;> rfl

theorem checkReflexivity (id kind : Nat) : Within P E (Routine.checkReflexivity id kind) :=
  ht.within fun _ => Ends.modifyGet_iff.mpr (.of_eq rfl rfl rfl)

theorem mergeProving (source target : Nat) : Within P E (Routine.mergeProving source target) := by
  refine ht.within fun r => ?_
  simp only [Ends, Routine.mergeProving]
  split <;> rename_i heq <;> split at heq <;> cases heq
  · exact .of_eq rfl rfl rfl
  · exact ⟨trivial, rfl⟩

end Tolerates

end Run

/-! ## Searching for proofs -/

namespace Search

variable {task : DeletionTask} {row : RowIndex} {t : Triple} (ht : Run.Tolerates Run.Idle P E)

include ht

theorem record_within : Within P E (record c t) := by
  refine .bind (ht.rowOf t) fun row => .bind (Routine.reads_within _) fun examined => ?_
  refine .ite (fun _ => ?_) fun _ => ?_
  · refine .bind (ht.addLevelFlags row _) fun isNew => ?_
    exact .ite (fun _ => .bind (ht.enqueueProved row) fun _ => .pure _) fun _ => .pure _
  · exact .bind (ht.addLevelFlags row _) fun _ => .pure _

theorem report_within (recorded : Recorded) : Within P E (report c t recorded) := by
  unfold report
  split
  · exact ht.announce rfl
  · exact ht.announce rfl
  · exact .pure ()

theorem proveNormal_within : Within P E (proveNormal c t) :=
  .bind (Routine.reads_within _) fun _ => .bind (record_within ht) fun _ =>
    report_within ht _

theorem renormalize_within : Within P E (renormalize c row) := by
  refine .bind (Routine.reads_within _) fun _ => .ite (fun _ => ?_) fun _ => .pure ()
  refine .bind (ht.factOf row) fun t => .bind (Routine.reads_within _) fun normal => ?_
  refine .ite (fun _ => ?_) fun _ => .pure ()
  refine .bind (ht.addLevelFlags row _) fun _ => .ite (fun _ => ?_) fun _ => .pure ()
  exact .bind (record_within ht) fun _ => report_within ht _

theorem absorb_within (source : Nat) : Within P E (absorb c task source) := by
  refine .bind ?_ fun _ => .bind (Routine.reads_within _) fun rules => ?_
  · exact .forM fun p _ => .bind (Routine.reads_within _) fun rows =>
      .forM fun row _ => renormalize_within ht
  · exact .forM fun rule _ => RuleIndex.evaluateRule_within ht.breaks rfl fun _ _ =>
      RuleIndex.acceptsHeads_of_within fun _ _ => proveNormal_within ht

theorem unite_within (first second : Nat) : Within P E (unite c task first second) := by
  refine .bind (ht.mergeProving _ _) fun merged => .ite
    (fun _ => .bind (ht.announce rfl) fun _ => .bind (absorb_within ht _) fun _ => ?_) fun _ => ?_
  all_goals
    refine .ite (fun _ => .bind (ht.announce rfl) fun _ => ?_) fun _ => .pure _
    exact .bind (Routine.reads_within _) fun _ => proveNormal_within ht

theorem prove_within : Within P E (prove c task t) := by
  refine .bind (Routine.reads_within _) fun normal => .ite (fun _ => ?_) fun _ => .pure _
  refine .bind (record_within ht) fun recorded => .bind (report_within ht recorded) fun _ => ?_
  exact .ite (fun _ => unite_within ht _ _) fun _ => .pure _

theorem allProved_within : Within P E (allProved c row t) := by
  refine .bind (Routine.reads_within _) fun classes => ?_
  cases classes with
  | none => exact Routine.reads_within _
  | some classes =>
    refine .bind (Routine.reads_within _) fun flags => .ite (fun _ => .pure _) fun _ => ?_
    refine .ite (fun _ => .pure _) fun _ => .bind (Routine.reads_within _) fun proved => ?_
    exact .ite (fun _ => .bind (.discard (ht.addFinding row (.inr rfl))) fun _ => .pure _) fun _ => .pure _

theorem noneProved_within : Within P E (noneProved c row) := by
  refine .bind (Routine.reads_within _) fun classes => ?_
  cases classes with
  | none => exact Routine.reads_within _
  | some classes =>
    refine .bind (Routine.reads_within _) fun flags => .ite (fun _ => .pure _) fun _ => ?_
    exact .bind (ht.factOf row) fun t => Routine.reads_within _

theorem queueProved_within {fromAsserted fromDelayed fromRule : Bool} :
    Within P E (queueProved c row t fromAsserted fromDelayed fromRule) :=
  .bind (ht.addLevelFlags row _) fun _ => .ite
    (fun _ => .bind (ht.enqueueProved row) fun _ => ht.announce rfl) fun _ => .pure _

theorem queueIfProved_within {byRule : Routine Bool} {proved : Routine (RowIndex × Triple)}
    (hr : Within P E byRule) (hp : Within P E proved) :
    Within P E (queueIfProved c row byRule proved) := by
  refine .bind (Routine.reads_within _) fun _ => .bind (Routine.reads_within _) fun _ => ?_
  refine .ite (fun _ => .bind (.pure _) fun _ => ?_) fun _ => .bind hr fun _ => ?_
  all_goals exact .ite (fun _ => .bind hp fun _ => queueProved_within ht) fun _ => .pure ()

theorem queueReflexive_within (classes : Classes) (id : Nat) :
    Within P E (queueReflexive c classes id) := by
  refine .forM fun member _ => .bind (Routine.reads_within _) fun _ => .ite (fun _ => ?_) fun _ => .pure _
  exact .bind (Routine.reads_within _) fun t => .bind (ht.rowOf t) fun _ => queueProved_within ht

theorem queueCombination_within : Within P E (queueCombination c task row t) := by
  refine queueIfProved_within ht (.pure _) (.bind (Routine.reads_within _) fun normal => ?_)
  exact .ite (fun _ => .pure _) fun _ => .bind (ht.rowOf normal) fun _ => .pure _

theorem queueObvious_within : Within P E (queueObvious c task row t) := by
  refine .bind (Routine.reads_within _) fun classes => ?_
  cases classes with
  | none =>
    exact queueIfProved_within ht (RuleIndex.provedNonrecursively_within ht.breaks rfl t task.scope)
      (.pure _)
  | some classes =>
    refine .ite (fun _ => .bind (queueReflexive_within ht classes _) fun _ => ?_) fun _ => ?_
    all_goals
      refine .forM fun (u, i) _ => .ite (fun _ => .bind (.pure _) fun found => ?_)
        fun _ => .bind (Routine.reads_within _) fun found => ?_
      all_goals
        cases found with
        | none => exact .pure ()
        | some row => exact queueCombination_within ht

theorem equate_within : Within P E (equate c task row t) := by
  refine .bind (Routine.reads_within _) fun normal => .ite (fun _ => ?_) fun _ => .ite (fun _ => ?_)
    fun _ => ?_
  · exact .bind (.discard (ht.addLevelFlags row _)) fun _ =>
      .bind (.discard (record_within ht)) fun _ => .pure _
  · exact .bind (unite_within ht _ _) fun _ => .pure _
  · refine .bind (.forM fun id _ => .bind (ht.checkReflexivity id 1) fun _ => ?_) fun _ => .pure _
    exact .ite (fun _ => .discard (record_within ht)) fun _ => .pure _

theorem forward_within : Within P E (forward c task row) := by
  refine .bind (Routine.reads_within _) fun fresh => .ite (fun _ => ?_) fun _ => .pure _
  refine .bind (.discard (ht.addLevelFlags row _)) fun _ => .bind (ht.factOf row) fun t => ?_
  refine .ite (fun _ => .bind (equate_within ht) fun _ => ?_) fun _ => .bind (.pure _) fun _ => ?_
  all_goals
    refine .ite (fun _ => ?_) fun _ => .pure _
    exact RuleIndex.applyToPositive_within ht.breaks rfl fun _ _ _ =>
      RuleIndex.acceptsHeads_of_within fun _ _ => prove_within ht

theorem saturate_within : Within P E (saturate c task row t) := by
  refine .bind (queueObvious_within ht) fun _ => .bind (Routine.reads_within _) fun _ => ?_
  refine .ite (fun _ => .pure _) fun _ => .bind ?_ fun _ => ?_
  · exact ht.drain (ht.whileRunning (ht.dequeue _)) (fun _ _ => forward_within ht) _ _
  · exact .ite (fun _ => allProved_within ht) fun _ => .pure _

theorem follow_within (lead : Lead) : Within P E (follow t lead) := by
  cases lead with
  | mention row =>
    refine .bind (Routine.reads_within _) fun _ => .ite (fun _ => ?_) fun _ => .pure _
    exact .bind (ht.factOf row) fun _ => .pure _
  | replacement id =>
    refine .bind (Routine.reads_within _) fun _ => .ite (fun _ => .pure _) fun _ => ?_
    refine .bind (ht.checkReflexivity id 2) fun _ => .ite (fun _ => .pure _) fun _ => ?_
    refine .bind (ht.rowOf _) fun row => .bind (Routine.reads_within _) fun _ => ?_
    exact .ite (fun _ => .pure _) fun _ => .pure _
  | premise row u => exact .pure _

theorem premises_within (h : HeadRef) : Within P E (premises c t h) :=
  .bind (ht.announce rfl) fun _ => .bind (RuleIndex.supportingInstances_within ht.breaks rfl h t) fun _ => .pure _

theorem takeUp_within : Within P E (takeUp row) :=
  .bind (Routine.reads_within _) fun _ => .ite (fun _ => .pure _) fun _ => ht.addLevelFlags row _

theorem skip_within : Within P E (skip c t) :=
  .bind (ht.announce rfl) fun _ => ht.announce rfl

theorem begin_within : Within P E (begin c task row t) :=
  .bind (ht.announce rfl) fun _ => .bind (ht.change (fun _ => rfl) (fun _ => rfl) fun _ => rfl) fun _ =>
    .bind (saturate_within ht) fun _ => ht.change (fun _ => rfl) (fun _ => rfl) fun _ => rfl

theorem keep_within (e : Examination) : Within P E (keep e) :=
  ht.change (fun _ => rfl) (fun _ => rfl) fun _ => rfl

theorem explore_within (e : Examination) : Within P E (explore c task e) := by
  fun_induction explore c task e with
  | case1 row t proved lead leads heads sources ih =>
    refine .bind (keep_within ht _) fun _ => .bind (follow_within ht lead) fun found => ?_
    cases found with
    | none => exact ih
    | some found =>
      refine .bind (takeUp_within ht) fun _ => .ite (fun _ => .pure _) fun _ => ?_
      refine .bind (skip_within ht) fun _ => .bind (allProved_within ht) fun _ => ?_
      exact .ite (fun _ => .pure _) fun _ => ih
  | case2 row t proved head heads sources ih =>
    exact .bind (keep_within ht _) fun _ => .bind (premises_within ht head) fun leads => ih leads
  | case3 row t proved source sources ih =>
    exact .bind (Routine.reads_within _) fun (heads, leads) => ih heads leads
  | case4 => exact .pure _

theorem resume_within : Within P E (resume c) := by
  refine .bind (Routine.reads_within _) fun examinations => ?_
  cases examinations with
  | nil => exact .pure ()
  | cons e outer =>
    exact .bind (allProved_within ht) fun _ => .ite (fun _ => keep_within ht _) fun _ => .pure _

theorem conclude_within (fuel : Nat) (proved : Bool) : Within P E (conclude c task fuel proved) := by
  induction fuel generalizing proved with
  | zero => exact ht.throw trivial
  | succ fuel ih =>
    refine .bind (Routine.reads_within _) fun examinations => ?_
    cases examinations with
    | nil => exact .pure _
    | cons e outer =>
      refine .ite (fun _ => .bind (.pure _) fun turn => ?_) fun _ =>
        .bind (explore_within ht e) fun turn => ?_
      all_goals
        cases turn with
        | descend row t => exact .bind (begin_within ht) fun _ => ih proved
        | close proved =>
          exact .bind (ht.change (fun _ => rfl) (fun _ => rfl) fun _ => rfl) fun _ =>
            .bind (ht.announce rfl) fun _ => .bind (resume_within ht) fun _ => ih proved

theorem markDisproved_within : Within P E (markDisproved c) := by
  refine .bind (Routine.reads_within _) fun checked => .bind ?_ fun _ =>
    ht.change (fun _ => rfl) (fun _ => rfl) fun _ => rfl
  refine .forM fun row _ => .bind (noneProved_within ht) fun _ => .ite (fun _ => ?_) fun _ => .pure _
  exact .bind (ht.addFinding row (.inl rfl)) fun _ => .ite (fun _ => ht.announceRow fun _ => rfl)
    fun _ => .pure _

/-- The search for a proof of a fact is idle. -/
theorem check_within : Within P E (check c task row t) := by
  refine .bind (ht.change (fun _ => rfl) (fun _ => rfl) fun _ => rfl) fun _ => .bind (takeUp_within ht) fun _ =>
    .ite (fun _ => .bind (begin_within ht) fun _ => .bind (.pure _) fun known => ?_)
    fun _ => .bind (skip_within ht) fun _ => .bind (Routine.reads_within _) fun _ => .ite
      (fun _ => .bind (.pure _) fun known => ?_) fun _ => .bind (allProved_within ht) fun known => ?_
  -- whichever way it is known whether the fact is proved
  all_goals
    exact .bind (Routine.reads_within _) fun _ => .bind (conclude_within ht _ known) fun _ =>
      .bind (markDisproved_within ht) fun _ => .pure _

end Search

end Entail
