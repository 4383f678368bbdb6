import Entail.Proofs.Maintenance.Changes

/-!
# The outcome of an update

In the end the rows of the work lists get the standing that the flags of the update say. The part of
each level is worked off in turn, and after the last one the materialization is what is there after
the update (`propagate_wp`).
-/

namespace Entail.Changes

open Flag.Update

variable {c : Context} {rules : List Rule} {r r' : Run} {t : Triple}

/-- What is done in the end with a row of a side. -/
def Side.propagate (c : Context) : Side → RowIndex → Propagated → Routine Propagated
  | deletion => propagateDeleted c
  | addition => propagateAdded c

/-- `r'` is `r` with the outcome of the update written to the rows of some facts: a fact that is gone
leaves the materialization, and one that is added and was not deleted enters it. -/
structure Writes (r r' : Run) : Prop where
  eq : ∃ table journal polls deleted added proved,
    r' = { r with table, journal, polls, update := { r.update with deleted, added, proved } }
  plain : r'.Plain
  fact?_eq (row : Nat) : r'.table.fact? row = r.table.fact? row
  listed (w : WorkList) (h : w ≠ .proved) : r'.listed w = r.listed w
  asserted_iff (t : Triple) : r'.Asserted t ↔ r.Asserted t
  entered (t : Triple) (h : r'.Before t) : r.Before t ∨ r.Has added t ∧ ¬ r.Has deleted t
  kept (t : Triple) (h : r.Before t) (hg : ¬ r.Gone t) : r'.Before t

namespace Writes

theorem has_iff (h : Writes r r') {b : Flags} : r'.Has b t ↔ r.Has b t := by
  show r'.table.Holds (fun row => (r'.flags row).any b) t ↔ _
  simp only [Table.Holds, h.fact?_eq]
  obtain ⟨_, _, _, _, _, _, rfl⟩ := h.eq
  rfl

theorem refl (hp : r.Plain) : Writes r r :=
  ⟨⟨_, _, _, _, _, _, rfl⟩, hp, fun _ => rfl, fun _ _ => rfl, fun _ => Iff.rfl, fun _ => .inl,
    fun _ hb _ => hb⟩

theorem journal (h : Writes r r') (journal : Array Entry) : Writes r { r' with journal } := by
  refine { h with plain := { h.plain with }, eq := ?_ }
  obtain ⟨_, _, _, _, _, _, rfl⟩ := h.eq
  exact ⟨_, _, _, _, _, _, rfl⟩

theorem moved (h : Writes r r') (w : WorkList) (cursor polls : Nat) :
    Writes r (r'.moved w cursor polls) := by
  have hplain := h.plain
  have hlisted := h.listed
  refine ⟨?_, ?_, h.fact?_eq, fun w' hw' => ?_, h.asserted_iff, h.entered, h.kept⟩
  · obtain ⟨_, _, _, _, _, _, rfl⟩ := h.eq
    cases w <;> exact ⟨_, _, _, _, _, _, rfl⟩
  · cases w <;> exact { hplain with }
  · rw [← hlisted w' hw']
    cases w <;> cases w' <;> rfl

/-- The status of a row changes as it should. -/
theorem set {row : Nat} {status : Status} {T : Table} (h : Writes r r')
    (hT : r'.table.Sets row status T) (hf : r'.table.fact? row = some t)
    (hm : status.any Status.merged = false)
    (ha : status.any Status.asserted = (r'.table.status row).any Status.asserted)
    (hb : Standing.before status = true → r.Has added t ∧ ¬ r.Has deleted t)
    (hb' : Standing.before status = false → r.Gone t) : Writes r { r' with table := T } := by
  have hbefore : ∀ u, Run.Before { r' with table := T } u ↔
      if u = t then Standing.before status = true else r'.Before u := fun u =>
    hT.holds_status_iff hf (p := Standing.before)
  refine ⟨?_, h.plain.withStatus hT hm, fun other => (hT.fact?_eq other).trans (h.fact?_eq other),
    h.listed, fun u => ?_, fun u hu => ?_, fun u hu hg => ?_⟩
  · obtain ⟨_, _, _, _, _, _, rfl⟩ := h.eq
    exact ⟨_, _, _, _, _, _, rfl⟩
  · refine (hT.holds_status_iff hf (p := fun st => st.any Status.asserted)).trans ?_
    rw [← h.asserted_iff u]
    split
    · rename_i hu
      rw [hu, Run.asserted_iff hf, ha]
    · exact Iff.rfl
  · have hu := (hbefore u).mp hu
    split at hu
    · rename_i he
      exact .inr (he ▸ hb hu)
    · exact h.entered u hu
  · rw [hbefore]
    split
    · rename_i he
      cases hs : Standing.before status with
      | true => rfl
      | false => exact absurd (hb' hs) (he ▸ hg)
    · exact h.kept u hu hg

end Writes

/-- The outcome for a fact of a side is written. -/
def Done (r r' : Run) (t : Triple) : Side → Prop
  | .deletion => r.Gone t → ¬ r'.Before t
  | .addition => r.Has added t → ¬ r.Has deleted t → r'.Before t

theorem Done.congr {r'' : Run} {s : Side} (h : ∀ t, r''.Before t ↔ r'.Before t)
    (hd : Done r r' t s) : Done r r'' t s := by
  cases s with
  | deletion => exact fun hg hb => hd hg ((h t).mp hb)
  | addition => exact fun ha hn => (h t).mpr (hd ha hn)

/-- Writing the outcome for one fact does not undo it for others. -/
theorem Done.set {row : Nat} {status : Status} {T : Table} {u : Triple} {s : Side}
    (hT : r'.table.Sets row status T) (hf : r'.table.fact? row = some t)
    (hb : Standing.before status = true → r.Has added t ∧ ¬ r.Has deleted t)
    (hb' : Standing.before status = false → r.Gone t) (hd : u ≠ t → Done r r' u s)
    (journal : Array Entry) : Done r { r' with table := T, journal } u s := by
  have hbefore : Run.Before { r' with table := T, journal } u ↔
      if u = t then Standing.before status = true else r'.Before u :=
    hT.holds_status_iff hf (p := Standing.before)
  by_cases hu : u = t
  · subst hu
    rw [if_pos rfl] at hbefore
    cases s with
    | deletion => exact fun hg hh => (hb (hbefore.mp hh)).2 hg.1
    | addition =>
      intro _ hn
      rw [hbefore]
      by_contra hno
      exact hn (hb' (by simpa using hno)).1
  · rw [if_neg hu] at hbefore
    cases s with
    | deletion => exact fun hg hh => hd hu hg (hbefore.mp hh)
    | addition => exact fun ha hn => hbefore.mpr (hd hu ha hn)

section propagate

variable (hc : c.Basic rules) {row : Nat} (h : Writes r r') (hf : r.table.fact? row = some t)
  (n : Propagated)

include hc h hf

/-- A fact that is gone leaves the materialization. -/
theorem propagateDeleted_wp :
    WP (propagateDeleted c row n) r' fun _ r'' => Writes r r'' ∧
      (∃ table journal, r'' = { r' with table, journal }) ∧ Done r r'' t .deletion ∧
      ∀ s u, Done r r' u s → Done r r'' u s := by
  have hf' : r'.table.fact? row = some t := (h.fact?_eq row).trans hf
  have hgone : (r'.flags row).only (deleted ||| added) deleted = true ↔ r.Gone t := by
    rw [Run.Gone, ← h.has_iff, ← h.has_iff, Run.has_iff hf', Run.has_iff hf',
      show deleted ||| added = added ||| deleted from rfl, Standing.only_deleted]
    simp
  rw [propagateDeleted, WP.bind_iff]
  refine Routine.reads_wp ?_
  by_cases hg : r.Gone t
  · rw [if_pos (hgone.mpr hg), WP.bind_iff]
    refine Routine.updateStatus_wp hf' fun T hT => ?_
    have hout := Standing.before_cleared (r'.table.status row)
    have hb : ∀ {P : Prop}, Standing.before
        ((r'.table.status row).update (Status.derived ||| Status.merged) 0) = true → P :=
      fun hh => absurd (hout.symm.trans hh) Bool.false_ne_true
    have hw := h.set hT hf'
      (by rw [Bits.any_update Bits.isBit_merged, h.plain.unmerged]; rfl)
      (by rw [Bits.any_update Bits.isBit_asserted,
            show (Status.derived ||| Status.merged).any Status.asserted = false from rfl,
            Bits.zero_any]
          simp) hb fun _ => hg
    have hdone : ∀ journal, Writes r { r' with table := T, journal } ∧
        (∃ table journal', ({ r' with table := T, journal } : Run) =
          { r' with table, journal := journal' }) ∧
        Done r { r' with table := T, journal } t .deletion ∧
        ∀ s u, Done r r' u s → Done r { r' with table := T, journal } u s := fun journal =>
      ⟨hw.journal journal, ⟨_, _, rfl⟩, .set hT hf' hb (fun _ => hg) (absurd rfl) journal,
        fun _ _ hd => .set hT hf' hb (fun _ => hg) (fun _ => hd) journal⟩
    split
    · rw [WP.bind_iff, factOrNone]
      refine Routine.reads_wp ?_
      rw [WP.bind_iff]
      exact Context.announce_wp hc.stop fun journal => WP.pure_iff.mpr (hdone journal)
    · exact WP.pure_iff.mpr (hdone r'.journal)
  · rw [if_neg (mt hgone.mp hg), renormalize, WP.bind_iff]
    refine Routine.reads_wp ?_
    rw [WP.bind_iff]
    refine Routine.reads_wp ?_
    rw [hc.steady_eq]
    exact WP.pure_iff.mpr ⟨h, ⟨_, _, rfl⟩, fun hh => absurd hh hg, fun _ _ => id⟩

/-- A fact that is added and was not deleted enters the materialization. -/
theorem propagateAdded_wp :
    WP (propagateAdded c row n) r' fun _ r'' => Writes r r'' ∧
      (∃ table journal, r'' = { r' with table, journal }) ∧ Done r r'' t .addition ∧
      ∀ s u, Done r r' u s → Done r r'' u s := by
  have hf' : r'.table.fact? row = some t := (h.fact?_eq row).trans hf
  have hflags : (r'.flags row).only (deleted ||| added ||| addedMerged) added = true ↔
      r.Has added t ∧ ¬ r.Has deleted t := by
    rw [← h.has_iff, ← h.has_iff, Run.has_iff hf', Run.has_iff hf',
      show deleted ||| added ||| addedMerged = added ||| addedMerged ||| deleted from rfl,
      Standing.only_added_of_deleted, h.plain.addedMerged]
    simp
  rw [propagateAdded, WP.bind_iff]
  refine Routine.reads_wp ?_
  by_cases ha : r.Has added t ∧ ¬ r.Has deleted t
  · rw [if_pos (hflags.mpr ha), WP.bind_iff, enter]
    refine Routine.updateStatus_wp hf' fun T hT => ?_
    have hin := Standing.before_entered (r'.table.status row)
    have hb : ∀ {P : Prop}, Standing.before
        ((r'.table.status row).update Status.merged Status.derived) = false → P :=
      fun hh => absurd (hh.symm.trans hin) Bool.false_ne_true
    have hw := h.set hT hf'
      (by rw [Bits.any_update Bits.isBit_merged, h.plain.unmerged]; rfl)
      (by rw [Bits.any_update Bits.isBit_asserted,
            show Status.merged.any Status.asserted = false from rfl,
            show Status.derived.any Status.asserted = false from rfl]
          simp) (fun _ => ha) hb
    have hdone : ∀ journal, Writes r { r' with table := T, journal } ∧
        (∃ table journal', ({ r' with table := T, journal } : Run) =
          { r' with table, journal := journal' }) ∧
        Done r { r' with table := T, journal } t .addition ∧
        ∀ s u, Done r r' u s → Done r { r' with table := T, journal } u s := fun journal =>
      ⟨hw.journal journal, ⟨_, _, rfl⟩, .set hT hf' (fun _ => ha) hb (absurd rfl) journal,
        fun _ _ hd => .set hT hf' (fun _ => ha) hb (fun _ => hd) journal⟩
    rw [WP.bind_iff, factOrNone]
    refine Routine.reads_wp ?_
    rw [countAdded]
    split
    · rw [WP.bind_iff]
      exact Context.announce_wp hc.stop fun journal => WP.pure_iff.mpr (hdone journal)
    · exact WP.pure_iff.mpr (hdone r'.journal)
  · rw [if_neg (mt hflags.mp ha)]
    exact WP.pure_iff.mpr ⟨h, ⟨_, _, rfl⟩, fun h₁ h₂ => absurd ⟨h₁, h₂⟩ ha, fun _ _ => id⟩

theorem propagate_side_wp (s : Side) :
    WP (s.propagate c row n) r' fun _ r'' => Writes r r'' ∧
      (∃ table journal, r'' = { r' with table, journal }) ∧ Done r r'' t s ∧
      ∀ s u, Done r r' u s → Done r r'' u s := by
  cases s with
  | deletion => exact propagateDeleted_wp hc h hf n
  | addition => exact propagateAdded_wp hc h hf n

end propagate

/-- The outcome is written for the facts of a side up to a place in its work list. -/
def Reached (r r' : Run) (s : Side) (place : Nat) : Prop :=
  ∀ (p row : Nat) t, p < place → (r.listed s.work)[p]? = some row → r.table.fact? row = some t →
    Done r r' t s

/-- The outcome is written for all facts before the cursors of the work lists. -/
structure Writing (r r' : Run) : Prop extends Writes r r' where
  reached (s : Side) : Reached r r' s (r'.update.queue s.work).cursor

/-- The outcome is written for the facts of a side up to the cursor or a place behind it. -/
theorem Writing.reach {r'' : Run} {s : Side} {place : Nat} (h : Writing r r') (hw : Writes r r'')
    (hd : ∀ s u, Done r r' u s → Done r r'' u s)
    (hcursor : ∀ s', s' ≠ s → (r''.update.queue s'.work).cursor = (r'.update.queue s'.work).cursor)
    (hplace : ∀ p row t, (r'.update.queue s.work).cursor ≤ p → p < place →
      (r.listed s.work)[p]? = some row → r.table.fact? row = some t → Done r r'' t s)
    (hlt : ∀ p, (r'.update.queue s.work).cursor ≤ p → p < (r''.update.queue s.work).cursor →
      p < place) : Writing r r'' ∧ Reached r r'' s place := by
  have hreached : ∀ p row t, (p < (r'.update.queue s.work).cursor ∨ p < place) →
      (r.listed s.work)[p]? = some row → r.table.fact? row = some t → Done r r'' t s := by
    intro p row t hp hrow hf
    by_cases hlt : p < (r'.update.queue s.work).cursor
    · exact hd s t (h.reached s p row t hlt hrow hf)
    · exact hplace p row t (Nat.le_of_not_lt hlt) (hp.resolve_left hlt) hrow hf
  refine ⟨⟨hw, fun s' p row t hp hrow hf => ?_⟩, fun p row t hp => hreached p row t (.inr hp)⟩
  by_cases hs : s' = s
  · subst hs
    exact hreached p row t ((Nat.lt_or_ge p _).imp_right fun hge => hlt p hge hp) hrow hf
  · exact hd s' t (h.reached s' p row t (by rwa [← hcursor s' hs]) hrow hf)

section levels

variable (hc : c.Basic rules) {budget : Nat} (hbudget : r.table.size < budget)
  {S : Side → Triple → Prop} (hlists : ∀ s, Lists r.table (S s) (r.listed s.work))

include hc hbudget hlists

/-- The outcome is written for the facts of a side up to a place. -/
theorem propagateUpto_wp (h : Writing r r') (s : Side) (place : Nat) (n : Propagated) :
    WP (Routine.drain (c.whileRunning (Routine.dequeueBefore s.work place)) (s.propagate c) budget n)
      r' fun _ r'' => Writing r r'' ∧ Reached r r'' s place ∧
        ∀ s u, Done r r' u s → Done r r'' u s := by
  have hne : s.work ≠ .proved := by cases s <;> exact WorkList.noConfusion
  refine (Routine.workOff_wp (w := s.work) (· < place) (N := r.table.size)
    ((r'.update.queue s.work).cursor)
    ((Routine.takes_dequeueBefore place).whileRunning hc.stop)
    (fun _ r'' => Writes r r'' ∧ (∀ s u, Done r r' u s → Done r r'' u s) ∧
      ∃ table journal polls q, r'' = { r' with
        table, journal, polls, update := r'.update.withQueue s.work q })
    (fun row r'' => ∀ t, r.table.fact? row = some t → Done r r'' t s)
    (fun _ r₁ hr₁ => hr₁.1.plain.running) (fun _ r₁ hr₁ => ?_) (fun _ r₁ cursor polls hr₁ => ?_)
    (fun n r₁ p row hr₁ _ _ hrow => ?_) (fun _ _ h₁ h₂ => h₂.trans h₁) budget hbudget
    ⟨h.toWrites, fun _ _ => id, _, _, _, _, by rw [Update.withQueue_queue]⟩ rfl).mono ?_
  · rw [hr₁.1.listed _ hne]
    exact ⟨(hlists s).length_le, fun row hrow => (hlists s).pos hrow⟩
  · obtain ⟨hw, hd, table, journal, _, q, rfl⟩ := hr₁
    refine ⟨⟨hw.moved _ _ _, fun s' u hu => ?_, table, journal, polls, q.seek cursor, ?_⟩,
      fun row hj t hf => ?_⟩
    · exact (hd s' u hu).congr fun _ => Iff.rfl
    · cases s <;> rfl
    · exact (hj t hf).congr fun _ => Iff.rfl
  · obtain ⟨hw, hd, _, _, _, _, hr₁⟩ := hr₁
    rw [hw.listed _ hne] at hrow
    obtain ⟨t, hf, -⟩ := ((hlists s).mem_iff row).mp (List.mem_of_getElem? hrow)
    refine (propagate_side_wp hc hw hf n s).mono ?_
    rintro _ r₂ ⟨hw₂, ⟨_, _, hr₂⟩, hdone, hd₂⟩
    refine ⟨⟨hw₂, fun s u hu => hd₂ s u (hd s u hu), ?_⟩, by rw [hr₂], ?_, fun t' ht' => ?_,
      fun other _ hj t' ht' => hd₂ s t' (hj t' ht')⟩
    · subst hr₁ hr₂
      exact ⟨_, _, _, _, rfl⟩
    · rw [hr₂]
      exact List.prefix_refl _
    · rw [hf] at ht'
      cases ht'
      exact hdone
  · rintro _ r₁ ⟨⟨hw, hd, _, _, _, q, hr₁⟩, hj, -, hle, hlive⟩
    have hcursor : ∀ s', s' ≠ s →
        (r₁.update.queue s'.work).cursor = (r'.update.queue s'.work).cursor := fun s' hs => by
      rw [hr₁]
      cases s <;> cases s' <;> first | rfl | exact absurd rfl hs
    obtain ⟨hwriting, hreached⟩ : Writing r r₁ ∧ Reached r r₁ s place := h.reach hw hd hcursor
      (fun p row t h₁ h₂ hrow hf => hj p row h₁ h₂ (by rwa [hw.listed _ hne]) t hf)
      fun p h₁ h₂ => (hlive p h₁ h₂).1
    exact ⟨hwriting, hreached, hd⟩

/-- The outcome of a level is written. -/
theorem propagateLevel_wp (h : Writing r r') {level : Nat}
    (hlevel : ∀ s : Side, level < (s.ends r.update).size) (n : Propagated) :
    WP (propagateLevel c budget n level) r' fun _ r'' => Writing r r'' ∧
      (∀ (s : Side) place, (s.ends r.update)[level]? = some place → Reached r r'' s place) ∧
      ∀ s u, Done r r' u s → Done r r'' u s := by
  have hends : ∀ r₁, Writing r r₁ → ∀ s : Side, s.ends r₁.update = s.ends r.update := fun r₁ h₁ s => by
    obtain ⟨_, _, _, _, _, _, hr₁⟩ := h₁.eq
    rw [hr₁]
    cases s <;> rfl
  have hget : ∀ s : Side, ∃ place, (s.ends r.update)[level]? = some place := fun s =>
    ⟨_, Array.getElem?_eq_getElem (hlevel s)⟩
  obtain ⟨d, hd⟩ := hget .deletion
  obtain ⟨a, ha⟩ := hget .addition
  rw [propagateLevel, WP.bind_iff]
  refine Routine.demand_wp ((congrArg (·[level]?) (hends r' h .deletion)).trans hd) ?_
  rw [WP.bind_iff]
  refine (propagateUpto_wp hc hbudget hlists h .deletion d n).mono ?_
  rintro n₁ r₁ ⟨h₁, hd₁, hkeep₁⟩
  rw [hc.equality]
  simp only [Bool.false_eq_true, if_false, pure_bind]
  rw [WP.bind_iff]
  refine Routine.demand_wp ((congrArg (·[level]?) (hends r₁ h₁ .addition)).trans ha) ?_
  refine (propagateUpto_wp hc hbudget hlists h₁ .addition a n₁).mono ?_
  rintro n₂ r₂ ⟨h₂, ha₂, hkeep₂⟩
  refine ⟨h₂, fun s place hplace => ?_, fun s u hu =>
    hkeep₂ s u (hkeep₁ s u hu)⟩
  cases s with
  | deletion =>
    rw [hd] at hplace
    cases hplace
    exact fun p row t hp hrow hf => hkeep₂ _ t (hd₁ p row t hp hrow hf)
  | addition =>
    rw [ha] at hplace
    cases hplace
    exact ha₂

omit hbudget in
/-- The outcome of the update is written: the materialization is what is there after the update. -/
theorem propagate_wp (hp : r.Plain) {levels : Nat} (hsize : r.update.levels = levels)
    (hends : ∀ s : Side, (s.ends r.update).size = levels)
    (hlast : ∃ level < levels, ∀ s : Side,
      (s.ends r.update)[level]? = some (r.listed s.work).length)
    (hdeleted : ∀ t, r.Has deleted t → r.Before t ∧ S .deletion t)
    (hadded : ∀ t, r.Has added t → S .addition t) :
    WP (propagate c) r fun _ r' => r'.Plain ∧ (∀ row, r'.table.fact? row = r.table.fact? row) ∧
      (∀ t, r'.Asserted t ↔ r.Asserted t) ∧ ∀ t, r'.Before t ↔ r.After t := by
  obtain ⟨last, hlt, hlast⟩ := hlast
  rw [propagate, WP.bind_iff]
  refine Routine.reads_wp ?_
  simp only [Routine.seek, WP.bind_iff, WP.modify_iff]
  refine Context.announce_wp hc.stop fun journal => Routine.reads_wp ?_
  have hstart : ∀ polls, Writing r { r with
      journal, polls
      update := (((r.update.withQueue .deleted ((r.update.queue .deleted).seek 0)).withQueue .proved
        ((r.update.queue .proved).seek 0)).withQueue .added ((r.update.queue .added).seek 0)) } :=
    fun polls => ⟨(((((Writes.refl hp).moved .deleted 0 polls).moved .proved 0 polls).moved .added 0
      polls).journal journal), fun s p row t hlt => by cases s <;> cases hlt⟩
  rw [hsize]
  refine (WP.foldlM (l := List.range levels) (fun _ r' => Writing r r')
    (fun level r' => ∀ (s : Side) place, (s.ends r.update)[level]? = some place →
      Reached r r' s place) (fun level hlevel n r₁ h₁ => ?_) (hstart r.polls)).mono ?_
  · have hlevel := List.mem_range.mp hlevel
    refine (propagateLevel_wp hc (Context.size_lt_budget rfl)
      hlists h₁ (fun s => by rwa [hends s]) n).mono ?_
    rintro _ r₂ ⟨h₂, hd, hkeep⟩
    exact ⟨h₂, hd, fun other _ hj s place hplace p row t hp hrow hf =>
      hkeep s t (hj s place hplace p row t hp hrow hf)⟩
  · rintro n r₁ ⟨h₁, hdone⟩
    have hall : ∀ s b t, r.Has b t → S s t → Done r r₁ t s := fun s b t hb ht => by
      obtain ⟨row, hf⟩ := hb.mem
      obtain ⟨place, hplace⟩ := List.mem_iff_getElem?.mp (((hlists s).mem_iff row).mpr ⟨t, hf, ht⟩)
      exact hdone last (List.mem_range.mpr hlt) s _ (hlast s) place row t
        (List.getElem?_eq_some_iff.mp hplace).1 hplace hf
    refine Routine.note_wp fun journal₁ => ?_
    refine Context.announce_wp hc.stop fun journal₂ => WP.pure_iff.mpr
      ⟨{ h₁.plain with }, h₁.fact?_eq, h₁.asserted_iff, fun t => ?_⟩
    show r₁.Before t ↔ r.After t
    constructor
    · intro hb
      rcases h₁.entered t hb with hbefore | ⟨ha, -⟩
      · by_cases hd : r.Has deleted t
        · -- what is gone is not there any more
          have hdone := hall .deletion _ t hd (hdeleted t hd).2
          exact .inr (by_contra fun ha => hdone ⟨hd, ha⟩ hb)
        · exact .inl ⟨hbefore, hd⟩
      · exact .inr ha
    · rintro (⟨hb, hd⟩ | ha)
      · exact h₁.kept t hb fun hg => hd hg.1
      · by_cases hd : r.Has deleted t
        · exact h₁.kept t (hdeleted t hd).1 fun hg => hg.2 ha
        · exact hall .addition _ t ha (hadded t ha) ha hd

end levels

end Entail.Changes
