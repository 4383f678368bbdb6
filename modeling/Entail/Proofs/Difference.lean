import Entail.Proofs.Calls
import Entail.Proofs.Maintenance.Settling
import Entail.Proofs.WorkLists

/-!
# What an update reports

Without equality the statistics of an update are the sizes of the two differences between the materialization
before and after, and of each fact by which they differ it is announced once that it left or entered
(`applyChanges_reports_difference`). That is so for both strategies, whatever the rules are, and also if the
update was stopped, before or while its outcome was written.
-/

namespace Entail

/-! ## Facts that are given up -/

theorem Table.Unmerged.updateStatus {T : Table} (h : T.Unmerged) (row : RowIndex) {cleared set : Status}
    (hset : set.any Status.merged = false) : (T.updateStatus row cleared set).2.Unmerged := by
  intro other
  cases hf : T.fact? row with
  | none =>
    rw [updateStatus_of_unchanged (changed_updateStatus_of_none hf)]
    exact h other
  | some t =>
    rw [(updateStatus_sets hf cleared set).status_eq]
    split
    · rw [Bits.any_update Bits.isBit_merged, h row, hset, Bool.false_and, Bool.or_false]
    · exact h other

theorem Table.Unmerged.add {T : Table} (h : T.Unmerged) (t : Triple) : (T.add t Status.asserted).2.Unmerged := by
  obtain ⟨row, T', hadd, hT⟩ := add_stores Bits.isBit_asserted T t
  rw [hadd]
  intro other
  rw [hT.status other Status.merged rfl, h other, Bool.false_or]
  exact Bool.and_false _

namespace Engine

open Changes (Side Settles)

variable {mode : Mode} {e e' : Engine} {stats : Stats} {retractions assertions : List Triple} {monitored : Bool}
  {stop : StopPoint}

/-- The engines with the given mode that calls lead to from one without rules and facts. -/
inductive Arises (mode : Mode) : Engine → Prop
  | start (strategy : Strategy) (workers : Nat) (dictionary : Dictionary) :
    Arises mode { strategy, mode, workers, dictionary }
  | call {e : Engine} (c : Call) (h : Arises mode e) : Arises mode (afterwards c.action e)

theorem Arises.reachable (h : Arises mode e) : Reachable e := by
  induction h with
  | start => exact .start rfl
  | call c _ ih => exact .call c ih

theorem Arises.preserves (c : Call) : Preserves (Arises mode) c.action := by
  intro e h _ e' he
  have hcall := h.call c
  rwa [afterwards, he] at hcall

section plain

variable (hoff : mode.equality = .off)

include hoff

theorem unsettled_eq_zero {c : Context} (hc : c.mode = mode) : c.unsettled = 0 := by
  rw [Context.unsettled, hc, hoff]
  rfl

theorem compute_unmerged {c : Context} (hc : c.mode = mode) :
    Within (fun r => r.table.Unmerged) (fun _ r => r.table.Unmerged) (do
      Routine.note .materializing
      clearMaterialization
      Materialization.materialize c) := by
  refine compute_within (.ofTable fun r r' hcalm h row =>
    (hcalm.status row _ Bits.isBit_merged rfl ?_).trans (h row))
    fun row r h => Ends.modifyGet_iff.mpr (h.updateStatus row rfl)
  rw [unsettled_eq_zero hoff hc]
  rfl

/-- Without equality no fact is ever given up for a normal form. -/
theorem Arises.unmerged (h : Arises mode e) : With mode (fun r => r.table.Unmerged) e := by
  induction h with
  | start strategy workers dictionary =>
    exact ⟨rfl, (keeps_initial (x := default) (M := id) (U := ∅) workers dictionary).stored.unmerged⟩
  | call call _ ih =>
    refine call.always_with (fun c => compute_unmerged hoff) (fun c hc => ?_) (fun _ _ => id) _ ih
    have hcalm : ∀ {free : Status} {r r' : Run}, free = 0 → r.Calm free r' → r.table.Unmerged →
        r'.table.Unmerged := fun hfree hcalm h row =>
      (hcalm.status row _ Bits.isBit_merged rfl (hfree ▸ rfl)).trans (h row)
    refine .ofTable (fun _ _ => hcalm (unsettled_eq_zero hoff hc)) (.ofTable (fun _ _ hi => hcalm rfl hi.calm)
      (fun T row h => h.updateStatus row rfl) (fun T row h => h.updateStatus row rfl) fun he => ?_)
      (fun _ _ T row _ h => h.updateStatus row rfl) fun t _ T h => h.add t
    rw [hc, hoff] at he
    cases he

end plain

/-- The engine with a materialization that is up to date: it is computed unless it is known to be. -/
def current (e : Engine) : Engine := if e.materialized then e else afterwards materialize e

/-- Computing the materialization announces no outcome. -/
theorem always_materialize_outcomes (outcomes : List Event) :
    Always (With mode fun r => r.outcomes = outcomes) materialize :=
  always_materialize fun _ _ => compute_within
    ⟨fun _ _ h hc => hc.outcomes.trans h, fun _ _ h _ => h, fun _ _ h => h⟩ fun _ _ h => Ends.modifyGet_iff.mpr h

/-- The facts that are in the materialization of one engine and not in that of the other. -/
def difference (e e' : Engine) : Side → Finset Triple
  | .deletion => e.facts.toFinset \ e'.facts.toFinset
  | .addition => e'.facts.toFinset \ e.facts.toFinset

/-- What moved is by what two materializations differ. -/
theorem toFinset_eq_difference {s : Side} {l : List Triple} {k : Nat} (h : s.Moved monitored e.run l k e'.run) :
    l.toFinset = difference e e' s := by
  ext t
  rw [List.mem_toFinset, h.mem_iff]
  cases s with
  | deletion =>
    rw [difference, Finset.mem_sdiff, List.mem_toFinset, List.mem_toFinset, mem_facts, mem_facts]
    rfl
  | addition =>
    rw [difference, Finset.mem_sdiff, List.mem_toFinset, List.mem_toFinset, mem_facts, mem_facts, and_comm]
    exact and_congr not_not Iff.rfl

section settles

variable (hoff : mode.equality = .off)

include hoff

theorem maintain_settles (h : With mode (fun r => r.table.Unmerged) e) :
    WLP (maintain retractions assertions monitored stop) e fun stats e' =>
      Settles monitored e.run ⟨stats.deleted, stats.added⟩ e'.run := by
  refine maintain_run_wlp (Q := fun stats r => Settles monitored e.run ⟨stats.deleted, stats.added⟩ r)
    (ensureIndex_same.mono ?_)
  rintro x e₁ ⟨hmode, hrun⟩
  rw [hrun]
  have hstart : Maintenance.Undisturbed e.run { e.run with stopped := false } :=
    ⟨h.2, fun _ => Iff.rfl, fun _ => rfl⟩
  have hoff' : (e₁.context x monitored stop).mode.equality.enabled = false := by
    rw [context, hmode, h.1, hoff]
    rfl
  exact (Maintenance.update_settles hoff' e₁.strategy hstart.unmerged).mono fun _ _ h₁ => hstart.settles h₁

/-- An update starts from a materialization that is up to date; computing that announced nothing. -/
theorem applyChanges_settles (harises : Arises mode e)
    (h : applyChanges retractions assertions monitored stop e = .ok stats e') :
    Settles monitored e.current.run ⟨stats.deleted, stats.added⟩ e'.run ∧
      e.current.run.outcomes = e.run.outcomes := by
  have hunmerged := harises.unmerged hoff
  refine applyChanges_wlp (Q := fun stats e' =>
    Settles monitored e.current.run ⟨stats.deleted, stats.added⟩ e'.run ∧
    e.current.run.outcomes = e.run.outcomes) (fun n e₁ hm h₁ => ?_) (fun hm => ?_) stats e' h
  · have hcurrent : e.current = e₁ := by rw [current, hm, afterwards, h₁]; rfl
    rw [hcurrent]
    have ho := ((always_materialize_outcomes e.run.outcomes).of_eq_ok ⟨hunmerged.1, rfl⟩ h₁).2
    have hu := (always_materialize fun _ => compute_unmerged hoff).of_eq_ok hunmerged h₁
    exact (maintain_settles hoff hu).mono fun _ _ hs => ⟨hs, ho⟩
  · have hcurrent : e.current = e := by rw [current, hm]; rfl
    rw [hcurrent]
    exact (maintain_settles hoff hunmerged).mono fun _ _ hs => ⟨hs, rfl⟩

/-- The statistics of an update count by which facts the materialization differs from what it was when it was
up to date before, and the events announce each of them once, whether or not the update was stopped. -/
theorem applyChanges_reports_difference (harises : Arises mode e)
    (h : applyChanges retractions assertions monitored stop e = .ok stats e') :
    stats.deleted = (e.current.facts.toFinset \ e'.facts.toFinset).card ∧
    stats.added = (e'.facts.toFinset \ e.current.facts.toFinset).card ∧
    (∃ left : List Triple, left.Nodup ∧ left.toFinset = e.current.facts.toFinset \ e'.facts.toFinset ∧
      e'.run.announced Event.left? = e.run.announced Event.left? ++ if monitored then left else []) ∧
    ∃ entered : List Triple, entered.Nodup ∧ entered.toFinset = e'.facts.toFinset \ e.current.facts.toFinset ∧
      e'.run.announced Event.entered? = e.run.announced Event.entered? ++ if monitored then entered else [] := by
  obtain ⟨⟨moved, hs⟩, ho⟩ := applyChanges_settles hoff harises h
  have hreport : ∀ s : Side, s.count ⟨stats.deleted, stats.added⟩ = (difference e.current e' s).card ∧
      ∃ l : List Triple, l.Nodup ∧ l.toFinset = difference e.current e' s ∧
        e'.run.announced s.moved? = e.run.announced s.moved? ++ if monitored then l else [] := fun s => by
    have hl := toFinset_eq_difference (hs.side s)
    refine ⟨?_, moved s, (hs.side s).nodup, hl, ?_⟩
    · rw [← hl, List.toFinset_card_of_nodup (hs.side s).nodup, (hs.side s).count_eq]
    · rw [(hs.side s).announced_eq, Run.announced_eq s.outcome_moved ho]
  exact ⟨(hreport .deletion).1, (hreport .addition).1, (hreport .deletion).2, (hreport .addition).2⟩

end settles

theorem arises_parted : Arises {} parted :=
  .call (.addFact ⟨8, 6, 7⟩) (.call (.addFact ⟨7, 6, 9⟩) (.call (.addFact ⟨8, 4, 9⟩) (.call (.addFact ⟨7, 4, 8⟩)
    (.call (.addRule apart[1]) (.call (.addRule apart[0]) (.start .dred 1 .vocabulary))))))

/-- A link over steps is lost, and another one appears. -/
theorem applyChanges_reports_difference_parted : ({} : Mode).equality = .off ∧ Arises {} parted ∧ ∃ stats e',
    applyChanges [⟨8, 4, 9⟩] [⟨8, 4, 7⟩] true .never parted = .ok stats e' ∧
      stats.deleted = (parted.current.facts.toFinset \ e'.facts.toFinset).card ∧
      stats.added = (e'.facts.toFinset \ parted.current.facts.toFinset).card ∧
      (∃ left : List Triple, left.Nodup ∧ left.toFinset = parted.current.facts.toFinset \ e'.facts.toFinset ∧
        e'.run.announced Event.left? = parted.run.announced Event.left? ++ left) ∧
      ∃ entered : List Triple, entered.Nodup ∧
        entered.toFinset = e'.facts.toFinset \ parted.current.facts.toFinset ∧
        e'.run.announced Event.entered? = parted.run.announced Event.entered? ++ entered := by
  obtain ⟨stats, e', he, -⟩ := exists_applyChanges_parted
  exact ⟨rfl, arises_parted, stats, e', he, applyChanges_reports_difference rfl arises_parted he⟩

end Engine

end Entail
