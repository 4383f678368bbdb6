import Entail.Proofs.Maintenance.Update

/-!
# Which facts are found to be deleted

The facts flagged as deleted are those of which an update announces that it found them to be, if it announces
anything (`Confirmed`). Without levels a search deletes only facts that do not follow any more from the base
facts that were there and still are, whereas deleting first deletes all of these (`deleteLevel_confirms`). So it
is after the whole update, since what comes then deletes nothing (`update_confirms`).
-/

namespace Entail

open Flag.Update

variable {c : Context} {monitored : Bool} {before : List Triple} {D : Set Triple} {r r' : Run} {row : RowIndex}
  {t : Triple}

/-- The facts of `D` are flagged as deleted, and after what was announced `before` it was announced of them that
they are found to be. -/
structure Run.Confirmed (monitored : Bool) (before : List Triple) (D : Set Triple) (r : Run) : Prop where
  mem (row : Nat) (h : (r.flags row).any deleted = true) : ∃ t, r.table.fact? row = some t
  has_iff (t : Triple) : r.Has deleted t ↔ t ∈ D
  announced_eq : ∃ judged, r.announced Event.judged? = before ++ judged ∧
    ∀ t, t ∈ judged ↔ monitored = true ∧ t ∈ D

namespace Run.Confirmed

/-- When an update starts, nothing is flagged. -/
theorem start (h : r.announced Event.judged? = before) (hflags : ∀ row, r.flags row = 0) :
    r.Confirmed monitored before ∅ := by
  have hnone : ∀ row, (r.flags row).any deleted = false := fun row => by rw [hflags, Bits.zero_any]
  refine ⟨fun row hd => ?_, fun t => iff_of_false ?_ (Set.notMem_empty t), [], ?_, fun t => ?_⟩
  · rw [hnone] at hd
    cases hd
  · rintro ⟨row, -, hd⟩
    cases (hnone row).symm.trans hd
  · rw [h, List.append_nil]
  · exact iff_of_false List.not_mem_nil fun hh => hh.2

theorem keeps (h : r.Confirmed monitored before D)
    (hf : ∀ row t, r.table.fact? row = some t → r'.table.fact? row = some t)
    (hd : ∀ row, (r'.flags row).any deleted = (r.flags row).any deleted)
    (ha : r'.announced Event.judged? = r.announced Event.judged?) : r'.Confirmed monitored before D := by
  refine ⟨fun row hrow => ?_, fun t => Iff.trans ⟨?_, ?_⟩ (h.has_iff t), ha ▸ h.announced_eq⟩
  · obtain ⟨t, ht⟩ := h.mem row ((hd row).symm.trans hrow)
    exact ⟨t, hf row t ht⟩
  · rintro ⟨row, ht, hrow⟩
    have hrow := (hd row).symm.trans hrow
    -- the row had a fact before, so it is the same
    obtain ⟨u, hu⟩ := h.mem row hrow
    obtain rfl : t = u := Option.some.inj (ht.symm.trans (hf row u hu))
    exact ⟨row, hu, hrow⟩
  · rintro ⟨row, ht, hrow⟩
    exact ⟨row, hf row t ht, (hd row).trans hrow⟩

theorem tolerates (free : Status) :
    Run.Tolerates (Run.Calm free) (Run.Confirmed monitored before D) fun _ _ => True :=
  ⟨fun _ _ h hc => h.keeps hc.fact? hc.deleted (Run.announced_eq Event.outcome_judged hc.outcomes),
    fun _ _ _ _ => trivial, fun _ _ _ => trivial⟩

/-- What is announced of facts that leave and enter the materialization is something else. -/
theorem settles : Changes.Withstands c (Run.Confirmed monitored before D) fun _ _ => True := by
  have hupdate : ∀ {row cleared set}, Within (Run.Confirmed monitored before D) (fun _ _ => True)
      (Routine.updateStatus row cleared set) := fun r h => Ends.modifyGet_iff.mpr <|
    h.keeps (fun _ _ hf => Table.fact?_updateStatus.trans hf) (fun _ => rfl) rfl
  refine ⟨(tolerates 0).idle, fun _ => hupdate, fun _ => hupdate, fun _ _ => hupdate, fun e t he r h => ?_⟩
  refine Context.announce_ends fun r' ht hu hevents => h.keeps (fun _ _ hf => by rwa [ht]) (fun row => ?_) ?_
  · rw [Run.flags, hu]
    rfl
  · rw [Run.announced_append hevents]
    rcases he with rfl | rfl <;> cases c.monitored <;> exact List.append_nil _

end Run.Confirmed

namespace Maintenance

/-- While levels are worked off, what is announced and what is flagged is the same. -/
theorem withstands_confirmed (before : List Triple) :
    Withstands c (fun r => ∃ D, r.Confirmed c.monitored before D) fun _ _ => True where
  calm := ⟨fun r r' ⟨D, h⟩ hc => ⟨D, (Run.Confirmed.tolerates _).keeps r r' h hc⟩, fun _ _ _ _ => trivial,
    fun _ _ _ => trivial⟩
  judged row t r := by
    rintro ⟨D, h⟩ hf
    refine Ends.bind_iff.mpr (Ends.discard_iff.mpr (Routine.addFlags_ends (fun m hm => ?_) fun _ _ => trivial))
    refine Ends.bind_iff.mpr (Context.announce_ends fun r₁ ht₁ hu₁ he₁ =>
      Context.announce_ends fun r₂ ht₂ hu₂ he₂ => ?_)
    have htable : r₂.table = r.table := ht₂.trans ht₁
    have hflags : ∀ other, r₂.flags other = m.flags other := fun other => by rw [Run.flags, hu₂, hu₁]
    refine ⟨D ∪ {t}, fun other ho => ?_, fun u => ?_, ?_⟩
    · rw [hflags, hm.any, Bool.or_eq_true, Bool.and_eq_true, beq_iff_eq] at ho
      rw [htable]
      rcases ho with ho | ⟨rfl, -⟩
      · exact h.mem other ho
      · exact ⟨t, hf⟩
    · have hhas : r₂.Has deleted u ↔ r.Has deleted u ∨ (deleted.any deleted = true ∧ u = t) := by
        show r₂.table.Holds (fun row => (r₂.flags row).any deleted) u ↔
          r.table.Holds (fun row => (r.flags row).any deleted) u ∨ _
        simp only [htable, hflags]
        exact hm.holds_iff hf
      rw [hhas, h.has_iff]
      exact or_congr_right (and_iff_right rfl)
    · obtain ⟨judged, ha, hmem⟩ := h.announced_eq
      refine ⟨judged ++ if c.monitored then [t] else [], ?_, fun u => ?_⟩
      · rw [← List.append_assoc, ← ha, Run.announced_append he₂, Run.announced_append he₁]
        cases c.monitored <;> simp [Event.judged?, Run.announced, Run.events]
      · rw [List.mem_append, hmem]
        cases c.monitored <;> simp [or_comm]

/-- Before the first level nothing is found to be deleted. -/
theorem seed_confirms (monitored : Bool) (strategy : Strategy) (retractions assertions : List Triple) :
    WLP (seed c strategy retractions assertions) r fun _ r' =>
      r'.Confirmed monitored (r.announced Event.judged?) ∅ := by
  have ht : Run.Tolerates (Run.Calm 0) (Run.Confirmed monitored (r.announced Event.judged?) ∅) fun _ _ => True :=
    Run.Confirmed.tolerates 0
  refine WLP.bind_iff.mpr (WLP.modify_iff.mpr (WLP.bind_iff.mpr ?_))
  refine (startUpdate_ends (E := fun _ _ => True) (fun u hu => ?_) trivial).wlp
  have hstart : Run.Confirmed monitored (r.announced Event.judged?) ∅
      { r with journal := r.journal.push (.note (.applyingChanges strategy.name)), update := u } := by
    refine .start (congrArg (List.filterMap Event.judged?) Run.events_push_note) fun row => ?_
    rw [Update.start] at hu
    split at hu <;> cases hu
    exact Marks.flags_clear _ row
  refine Ends.wlp (E := fun _ _ => True)
    ((?_ : Within (Run.Confirmed monitored (r.announced Event.judged?) ∅) (fun _ _ => True) _) _ hstart)
  refine .bind (ht.adjust (fun _ => rfl) (fun _ => rfl) fun _ => rfl) fun _ => .bind
    (Materialization.levels_within ht.idle) fun _ => .bind (Changes.retract_within ht fun t _ r row h _ => ?_)
      fun _ => .bind (Changes.assert_within ht fun t _ r h => ?_) fun _ => .pure _
  · exact h.keeps (fun _ _ hf => Table.fact?_updateStatus.trans hf) (fun _ => rfl) rfl
  · obtain ⟨row, T, hadd, hT⟩ := Table.add_stores Bits.isBit_asserted r.table t
    rw [hadd]
    exact h.keeps hT.keeps (fun _ => rfl) rfl

/-! ## What a strategy finds -/

/-- The facts of a materialization that do not follow from those of it which are asserted now. -/
def unsupported (rules : List Rule) (before new : Set Triple) : Set Triple :=
  {t | t ∈ before ∧ t ∉ leastModel rules {u | u ∈ before ∧ u ∈ new}}

variable {v : Revision c} {stats : Stats}

/-- How what is found to be deleted is related to `S`: a search finds only facts of it, deleting first all of
them. -/
def Bounds (S D : Set Triple) : Strategy → Prop
  | .fbf => D ⊆ S
  | .dred => S ⊆ D

section level

variable (hu : c.mode.usesLevels = false)

include hu

theorem levelAt_eq_none (k : Nat) : c.levelAt k = none := by
  rw [Context.levelAt, hu]
  rfl

variable (h : Reached v 0 r)

include h

/-- What a search deletes has no support any more. -/
theorem search_deletes (hv : v.strategy = .fbf) (hproved : r.update.proved = .empty)
    (hflags : ∀ row, r.levelFlags row = 0) : WLP (Search.delete c (c.levelAt 0)) r fun _ r' =>
      ∀ t, r'.Has deleted t → t ∈ unsupported v.rules v.before v.new := by
  have hb := v.basic.builds
  rw [hu] at hb
  let s : Search.Scene c := h.scene Context.levelCount_pos hv (owns_of_not_usesLevels hu)
  refine (Search.delete_wp (s := s) rfl (h.deletionReady Context.levelCount_pos) hproved hflags).wlp.mono ?_
  rintro checks r₁ ⟨task, -, -, hs, hsince⟩ t hd
  have hbefore : r₁.Before t := hs.deleting.before t (hs.deleting.queued t hd).1
  refine ⟨(h.before_iff t).mp (hsince.before_iff.mp hbefore), fun ht => ?_⟩
  rcases hs.judged.dropped t hd with hd | ⟨-, hdrop, -⟩
  · exact Context.not_done_zero (h.deleted t hd).2
  · -- what is asserted and was there has a proof
    refine hdrop (show Search.HasProof c (c.levelAt 0) r t from ?_)
    rw [levelAt_eq_none hu, Search.hasProof_iff_provable hb (v.basic.definite hu)]
    refine leastModel_mono (fun u hu => ?_) ht
    exact ⟨(h.before_iff u).mpr hu.1, .inl ((h.asserted_iff u).mpr hu.2)⟩

/-- Deleting first deletes whatever has no support any more. -/
theorem deletion_deletes : WLP (Rederivation.delete c (c.levelAt 0)) r fun _ r' =>
    ∀ t ∈ unsupported v.rules v.before v.new, r'.Has deleted t := by
  have hk : 0 < c.levelCount := Context.levelCount_pos
  have hb := v.basic.builds
  rw [hu] at hb
  refine (Rederivation.delete_wp v.basic Context.isSome_levelAt (h.deletionReady hk)).wlp.mono ?_
  rintro _ r₁ ⟨task, hlevel, -, hs⟩ t ⟨ht, hno⟩
  by_contra hd
  have hkept : r₁.Kept t := by
    refine ⟨?_, fun hg => hd hg.1⟩
    rw [Run.Before, hs.judged.table_eq]
    exact (h.before_iff t).mpr ht
  refine hno (survives h hk hs hlevel (K := leastModel v.rules {u | u ∈ v.before ∧ u ∈ v.new})
    (fun a ha u hu => a.closes hb (fun _ hs => closes_leastModel hs) ha.premises hu) (fun _ => False.elim)
    (fun u _ hd => absurd hd Context.not_done_zero) (fun u ho hn _ => ?_) hkept ?_)
  · exact .base ⟨v.models_before.base_subset ho, hn⟩
  · rw [levelAt_eq_none hu]
    exact .inr RuleIndex.at_none

variable (hstats : stats.strategy = v.strategy) {before : List Triple} (hc : r.Confirmed c.monitored before ∅)

include hstats hc

theorem deleteLevel_confirms (hproved : r.update.proved = .empty) (hflags : ∀ row, r.levelFlags row = 0) :
    WLP (deleteLevel c (c.levelAt 0) stats) r fun _ r' => ∃ D, r'.Confirmed c.monitored before D ∧
      Bounds (unsupported v.rules v.before v.new) D v.strategy := by
  have hw := withstands_confirmed (c := c) before
  rw [deleteLevel, hstats]
  cases hv : v.strategy with
  | dred =>
    refine WLP.bind_iff.mpr ((WLP.and (deletion_deletes hu h)
      (Rederivation.delete_within hw _ r ⟨∅, hc⟩).wlp).mono ?_)
    rintro _ r₁ ⟨hdeleted, D, hD⟩
    -- what is put back stays flagged as deleted
    refine WLP.bind_iff.mpr ((Rederivation.rederive_within (Run.Confirmed.tolerates 0) _ r₁ hD).wlp.mono
      fun _ r₂ h₂ => WLP.pure_iff.mpr ⟨D, h₂, fun t ht => (hD.has_iff t).mp (hdeleted t ht)⟩)
  | fbf =>
    refine WLP.bind_iff.mpr ((WLP.and (search_deletes hu h hv hproved hflags)
      (Search.delete_within hw _ r ⟨∅, hc⟩).wlp).mono ?_)
    rintro _ r₁ ⟨hdeleted, D, hD⟩
    rw [v.basic.equality, if_neg Bool.false_ne_true]
    exact WLP.pure_iff.mpr ⟨D, hD, fun t ht => hdeleted t ((hD.has_iff t).mpr ht)⟩

theorem updateLevel_confirms :
    WLP (updateLevel c (c.levelAt 0) stats) r fun _ r' => ∃ D, r'.Confirmed c.monitored before D ∧
      Bounds (unsupported v.rules v.before v.new) D v.strategy := by
  have ht : ∀ {D}, Run.Tolerates (Run.Calm c.unsettled) (Run.Confirmed c.monitored before D) fun _ _ => True :=
    Run.Confirmed.tolerates _
  refine WLP.bind_iff.mpr (WLP.modify_iff.mpr (WLP.bind_iff.mpr ?_))
  have hstart : Run.Confirmed c.monitored before ∅ { r with update := r.update.startLevel } :=
    hc.keeps (fun _ _ => id) (fun _ => rfl) rfl
  refine (WLP.and (Context.announce_wp (Q := fun _ r' => ∃ journal, r' = { r with
    journal, update := r.update.startLevel }) v.basic.stop fun journal => ⟨journal, rfl⟩).wlp
    (ht.idle.announce rfl _ hstart).wlp).mono ?_
  rintro _ _ ⟨⟨journal, rfl⟩, hc₁⟩
  refine WLP.bind_iff.mpr ((deleteLevel_confirms hu (h.start.journal journal) hstats hc₁ rfl
    fun row => Marks.flags_clear _ row).mono ?_)
  rintro stats₁ r₁ ⟨D, hD, hbounds⟩
  -- nothing is deleted after that
  refine WLP.mono (Q := fun _ => Run.Confirmed c.monitored before D)
    (Within.preserves (E := fun _ _ => True) ?_ r₁ hD) fun _ _ h₂ => ⟨D, h₂, hbounds⟩
  exact .bind (insert_within ht _) fun _ => .bind (.bind (ht.idle.demand _) fun _ =>
    ht.adjust (fun _ => rfl) (fun _ => rfl) fun _ => rfl) fun _ => .bind (ht.idle.note _) fun _ =>
      .bind (ht.idle.announce rfl) fun _ => .pure _

theorem updateLevels_confirms :
    WLP (updateLevels c [c.levelAt 0] stats) r fun _ r' => ∃ D, r'.Confirmed c.monitored before D ∧
      Bounds (unsupported v.rules v.before v.new) D v.strategy := by
  refine WLP.bind_iff.mpr ?_
  refine (WLP.and (Context.isRunning_wp (Q := fun running r' => running = true ∧ ∃ polls, r' = { r with polls })
    v.basic.stop h.plain.running fun polls => ⟨rfl, polls, rfl⟩).wlp
    ((Run.Confirmed.tolerates 0).idle.isRunning r hc).wlp).mono ?_
  rintro _ _ ⟨⟨rfl, polls, rfl⟩, hc₁⟩
  rw [if_pos rfl]
  exact WLP.bind_iff.mpr ((updateLevel_confirms hu (h.polls polls) hstats hc₁).mono fun _ _ hD =>
    WLP.pure_iff.mpr hD)

end level

/-- What an update without levels flags as deleted is what it announces, and it is bounded as the strategy has
it. -/
theorem update_confirms (hu : c.mode.usesLevels = false) {retractions assertions : List Triple}
    (hnew : v.new = revised v.old retractions assertions) (hall : ∀ t ∈ assertions, t ∈ v.all)
    (h : r.Stored v.all v.old) (hbefore : ∀ t, r.Before t ↔ t ∈ v.before) (hrunning : r.stopped = false) :
    WLP (update c v.strategy retractions assertions) r fun _ r' => ∃ D,
      r'.Confirmed c.monitored (r.announced Event.judged?) D ∧
      Bounds (unsupported v.rules v.before v.new) D v.strategy := by
  have hfit : LevelsFit c := fun hh => by
    rw [hu] at hh
    cases hh
  have hcount : c.levelCount = 1 := by
    rw [Context.levelCount, hu]
    rfl
  rw [update_eq, prepare, bind_assoc]
  refine WLP.bind_iff.mpr ((WLP.and (seed_wp hfit hnew hall h hbefore hrunning).wlp
    (seed_confirms c.monitored v.strategy retractions assertions)).mono ?_)
  rintro ⟨levels, stats⟩ r₁ ⟨⟨hlevels, hstrategy, -, h₁⟩, hc₁⟩
  rw [hcount] at hlevels
  obtain rfl : levels = [c.levelAt 0] := hlevels
  refine WLP.bind_iff.mpr ((updateLevels_confirms hu h₁ hstrategy hc₁).mono ?_)
  rintro stats₂ r₂ ⟨D, hD, hbounds⟩
  exact (finish_within Run.Confirmed.settles stats₂ r₂ hD).wlp.mono fun _ _ h₃ => ⟨D, h₃, hbounds⟩

end Maintenance

end Entail
