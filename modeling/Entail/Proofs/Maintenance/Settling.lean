import Entail.Proofs.Maintenance.Calm

/-!
# What is counted and announced when an update ends

Without equality, a fact leaves the materialization at most once while the outcome of an update is written,
and then it does not enter it any more: the one is flagged as deleted, the other is not. So the facts counted
and announced so far are those by which the materialization differs from the one before (`Changes.Settling`),
whether or not the run is stopped in between (`Changes.propagate_settles`).
-/

namespace Entail

/-- No fact is given up for a normal form. -/
def Table.Unmerged (T : Table) : Prop := ∀ row, (T.status row).any Status.merged = false

namespace Changes

open Flag.Update

variable {c : Context} {monitored : Bool} {r₀ r r' : Run} {moved : Side → List Triple} {n : Propagated}
  {row : RowIndex} {t : Triple} {s : Side}

/-! ## The two ways in which a fact moves -/

namespace Side

/-- Where a fact is that may move. -/
def Inside (r : Run) (t : Triple) : Side → Prop
  | deletion => r.Before t
  | addition => ¬ r.Before t

/-- Whether a fact that moves is flagged as deleted. -/
def flagged : Side → Bool
  | deletion => true
  | addition => false

/-- What is announced of a fact that moves. -/
def outcome (t : Triple) : Side → Event
  | deletion => .deleted t
  | addition => .added t

/-- The fact of which an event says that it moved. -/
def moved? : Side → Event → Option Triple
  | deletion => Event.left?
  | addition => Event.entered?

/-- How many facts moved. -/
def count (n : Propagated) : Side → Nat
  | deletion => n.deleted
  | addition => n.added

/-- One more fact moved. -/
def tally (n : Propagated) : Side → Propagated
  | deletion => { n with deleted := n.deleted + 1 }
  | addition => { n with added := n.added + 1 }

theorem outcome_moved (s : Side) : Event.Outcome s.moved? := by
  cases s
  · exact Event.outcome_left
  · exact Event.outcome_entered

theorem count_tally (s : Side) (n : Propagated) : s.count (s.tally n) = s.count n + 1 := by
  cases s <;> rfl

variable {s' : Side} (h : s' ≠ s)

include h

/-- What may not move to one side may move to the other. -/
theorem inside_of_ne : s'.Inside r t ↔ ¬ s.Inside r t := by
  cases s <;> cases s' <;> first | exact absurd rfl h | rfl | exact not_not.symm

theorem flagged_of_ne : s'.flagged ≠ s.flagged := by
  cases s <;> cases s' <;> first | exact absurd rfl h | exact Bool.noConfusion

theorem count_of_ne : s'.count (s.tally n) = s'.count n := by
  cases s <;> cases s' <;> first | exact absurd rfl h | rfl

theorem moved?_of_ne : s'.moved? (s.outcome t) = none := by
  cases s <;> cases s' <;> first | exact absurd rfl h | rfl

end Side

/-! ## What moved so far -/

/-- Since `r₀` the facts of `l` moved, once each, and that was announced; `k` of them are counted. -/
structure Side.Moved (s : Side) (monitored : Bool) (r₀ : Run) (l : List Triple) (k : Nat) (r : Run) : Prop where
  nodup : l.Nodup
  mem_iff (t : Triple) : t ∈ l ↔ s.Inside r₀ t ∧ ¬ s.Inside r t
  flagged (t : Triple) (h : t ∈ l) : ∃ row, r.table.fact? row = some t ∧ (r.flags row).any deleted = s.flagged
  count_eq : k = l.length
  announced_eq : r.announced s.moved? = r₀.announced s.moved? ++ if monitored then l else []

/-- Since `r₀` the facts of `moved` left the materialization or entered it, once each, and they are counted
and announced. -/
structure Settling (monitored : Bool) (r₀ : Run) (moved : Side → List Triple) (n : Propagated) (r : Run) :
    Prop where
  unmerged : r.table.Unmerged
  side (s : Side) : s.Moved monitored r₀ (moved s) (s.count n) r

/-- The facts counted and announced since `r₀` are those by which the materialization differs. -/
def Settles (monitored : Bool) (r₀ : Run) (n : Propagated) (r : Run) : Prop :=
  ∃ moved, Settling monitored r₀ moved n r

theorem Settles.start (h : r.table.Unmerged) : Settles monitored r ⟨0, 0⟩ r := by
  refine ⟨fun _ => [], h, fun s => ⟨List.nodup_nil, fun t => ?_, fun t ht => ?_, ?_, ?_⟩⟩
  · exact iff_of_false List.not_mem_nil fun hb => hb.2 hb.1
  · cases ht
  · cases s <;> rfl
  · cases monitored <;> exact (List.append_nil _).symm

theorem Settling.idle (h : Settling monitored r₀ moved n r) (hi : r.Idle r') :
    Settling monitored r₀ moved n r' := by
  have hc : r.Calm 0 r' := hi.calm
  have hmerged : ∀ row, (r'.table.status row).any Status.merged = (r.table.status row).any Status.merged :=
    fun row => hc.status row _ Bits.isBit_merged rfl rfl
  have hbefore : ∀ t, r'.Before t ↔ r.Before t := fun t =>
    Table.holds_status_of_keeps (p := Standing.before) rfl hc.fact? fun row => by
      rw [Standing.before_iff, Standing.before_iff, hmerged, hc.status row _ Bits.isBit_derived rfl rfl]
  refine ⟨fun row => (hmerged row).trans (h.unmerged row), fun s => { h.side s with
    mem_iff := fun t => ?_
    flagged := fun t ht => ?_
    announced_eq := (Run.announced_eq s.outcome_moved hi.outcomes).trans (h.side s).announced_eq }⟩
  · rw [(h.side s).mem_iff]
    cases s <;> simp only [Side.Inside, hbefore]
  · obtain ⟨row, hf, hd⟩ := (h.side s).flagged t ht
    exact ⟨row, hc.fact? row t hf, (hc.deleted row).trans hd⟩

/-- From `r` to `r'` the fact of a row moves, and that is announced. -/
structure Side.Moves (s : Side) (monitored : Bool) (row : RowIndex) (t : Triple) (r r' : Run) : Prop where
  fact_eq : r.table.fact? row = some t
  flagged : (r.flags row).any deleted = s.flagged
  before : s.Inside r t
  after : ¬ s.Inside r' t
  sets : ∃ status : Status, status.any Status.merged = false ∧ r.table.Sets row status r'.table
  update_eq : r'.update = r.update
  events_eq : r'.events = r.events ++ if monitored then [s.outcome t] else []

namespace Side.Moves

variable (h : s.Moves monitored row t r r')

include h

theorem fact?_eq (other : RowIndex) : r'.table.fact? other = r.table.fact? other := by
  obtain ⟨_, -, hT⟩ := h.sets
  exact hT.fact?_eq other

theorem flags_eq (other : RowIndex) : r'.flags other = r.flags other := by
  rw [Run.flags, h.update_eq]
  rfl

/-- No other fact moves. -/
theorem inside_iff {u : Triple} (hu : u ≠ t) (s' : Side) : s'.Inside r' u ↔ s'.Inside r u := by
  obtain ⟨_, -, hT⟩ := h.sets
  have hbefore : r'.Before u ↔ r.Before u :=
    (hT.holds_status_iff h.fact_eq (p := Standing.before)).trans (by rw [if_neg hu]; rfl)
  cases s' <;> simp only [Side.Inside, hbefore]

theorem unmerged (hr : r.table.Unmerged) : r'.table.Unmerged := by
  obtain ⟨_, hm, hT⟩ := h.sets
  intro other
  rw [hT.status_eq]
  split
  · exact hm
  · exact hr other

end Side.Moves

namespace Side.Moved

variable {s' : Side} {l : List Triple} {k : Nat} (hm : s.Moves monitored row t r r') (hfirst : s.Inside r₀ t)

include hm hfirst

/-- A fact that moves did not move before. -/
theorem move (h : s.Moved monitored r₀ l k r) : s.Moved monitored r₀ (l ++ [t]) (k + 1) r' where
  nodup := by
    refine List.nodup_append.mpr ⟨h.nodup, List.nodup_singleton t, fun u hu v hv => ?_⟩
    rw [List.mem_singleton.mp hv]
    rintro rfl
    exact ((h.mem_iff u).mp hu).2 hm.before
  mem_iff u := by
    rw [List.mem_append, List.mem_singleton, h.mem_iff]
    by_cases hu : u = t
    · exact iff_of_true (.inr hu) (hu ▸ ⟨hfirst, hm.after⟩)
    · rw [or_iff_left hu, hm.inside_iff hu]
  flagged u hu := by
    simp only [hm.fact?_eq, hm.flags_eq]
    rcases List.mem_append.mp hu with hu | hu
    · exact h.flagged u hu
    · exact ⟨row, (List.mem_singleton.mp hu) ▸ hm.fact_eq, hm.flagged⟩
  count_eq := by rw [List.length_append, h.count_eq, List.length_singleton]
  announced_eq := by
    have hself : s.moved? (s.outcome t) = some t := by cases s <;> rfl
    rw [Run.announced_append hm.events_eq, h.announced_eq, List.append_assoc]
    cases monitored <;> simp [hself]

/-- What moved the other way is not touched by that. -/
theorem other (hne : s' ≠ s) (h : s'.Moved monitored r₀ l k r) : s'.Moved monitored r₀ l k r' where
  nodup := h.nodup
  mem_iff u := by
    rw [h.mem_iff]
    by_cases hu : u = t
    · exact hu ▸ iff_of_false (fun hh => (inside_of_ne hne).mp hh.1 hfirst)
        fun hh => (inside_of_ne hne).mp hh.1 hfirst
    · rw [hm.inside_iff hu]
  flagged u hu := by
    simp only [hm.fact?_eq, hm.flags_eq]
    exact h.flagged u hu
  count_eq := h.count_eq
  announced_eq := by
    rw [Run.announced_append hm.events_eq, h.announced_eq]
    cases monitored <;> simp [moved?_of_ne hne]

end Side.Moved

/-- A fact that is about to move is where it was: it did not move the other way, since its flag says so. -/
theorem Settling.inside (h : Settling monitored r₀ moved n r) (hm : s.Moves monitored row t r r') :
    s.Inside r₀ t := by
  by_contra hno
  obtain ⟨s', hne⟩ : ∃ s', s' ≠ s := by
    cases s with
    | deletion => exact ⟨.addition, Side.noConfusion⟩
    | addition => exact ⟨.deletion, Side.noConfusion⟩
  have hmoved : t ∈ moved s' := ((h.side s').mem_iff t).mpr
    ⟨(Side.inside_of_ne hne).mpr hno, fun hin => (Side.inside_of_ne hne).mp hin hm.before⟩
  obtain ⟨row', hf, hd⟩ := (h.side s').flagged t hmoved
  rw [Table.row_unique hf hm.fact_eq, hm.flagged] at hd
  exact Side.flagged_of_ne hne hd.symm

theorem Settling.move (h : Settling monitored r₀ moved n r) (hm : s.Moves monitored row t r r') :
    Settles monitored r₀ (s.tally n) r' := by
  classical
  refine ⟨Function.update moved s (moved s ++ [t]), hm.unmerged h.unmerged, fun s' => ?_⟩
  by_cases hs : s' = s
  · subst hs
    rw [Function.update_self, Side.count_tally]
    exact (h.side s').move hm (h.inside hm)
  · rw [Function.update_of_ne hs, Side.count_of_ne hs]
    exact (h.side s').other hm (h.inside hm) hs

/-! ## Writing the outcome -/

theorem Settles.tolerates : Run.Tolerates Run.Idle (Settles monitored r₀ n) fun _ _ => True :=
  ⟨fun _ _ ⟨moved, h⟩ hi => ⟨moved, h.idle hi⟩, fun _ _ _ _ => trivial, fun _ _ _ => trivial⟩

/-- How the status of a fact changes that moves: what is cleared and what is set. -/
def Side.change : Side → Status × Status
  | deletion => (Status.derived ||| Status.merged, 0)
  | addition => (Status.merged, Status.derived)

/-- The status of a row changes if its fact moves, and then that is still to be announced. -/
theorem updateStatus_settles (s : Side) (h : Settles c.monitored r₀ n r)
    (hd : (r.flags row).any deleted = s.flagged) :
    WLP (Routine.updateStatus row s.change.1 s.change.2) r fun changed r' =>
      if changed then ∃ t, r'.table.fact? row = some t ∧ ∀ r'', r''.table = r'.table →
        r''.update = r'.update → r''.events = r'.events ++ (if c.monitored then [s.outcome t] else []) →
          Settles c.monitored r₀ (s.tally n) r''
      else Settles c.monitored r₀ n r' := by
  refine Routine.updateStatus_wlp ((if_neg Bool.false_ne_true).mpr h) fun t T hf hT hchanged => (if_pos rfl).mpr ?_
  obtain ⟨moved, h⟩ := h
  rw [← bne_iff_ne] at hchanged
  refine ⟨t, (hT.fact?_eq row).trans hf, fun r' ht hu he => ?_⟩
  have hafter : r'.Before t ↔ Standing.before ((r.table.status row).update s.change.1 s.change.2) = true := by
    rw [Run.Before, ht]
    exact (hT.holds_status_iff hf (p := Standing.before)).trans (by rw [if_pos rfl])
  have hm : ((r.table.status row).update s.change.1 s.change.2).any Status.merged = false := by
    rw [Bits.any_update Bits.isBit_merged, h.unmerged]
    cases s <;> rfl
  have hsets : ∃ status : Status, status.any Status.merged = false ∧ r.table.Sets row status r'.table :=
    ⟨_, hm, ht ▸ hT⟩
  cases s with
  | deletion =>
    have hin : r.Before t := (Run.before_iff hf).mpr ((Standing.cleared_bne (h.unmerged row)).symm.trans hchanged)
    rw [Side.change, Standing.before_cleared] at hafter
    exact h.move ⟨hf, hd, hin, fun hb => Bool.false_ne_true (hafter.mp hb), hsets, hu, he⟩
  | addition =>
    have hin : ¬ r.Before t := by
      rw [Run.before_iff hf, Bool.not_eq_true, ← Bool.not_eq_true', ← Standing.entered_bne]
      exact hchanged
    rw [Side.change, Standing.before_entered] at hafter
    exact h.move ⟨hf, hd, hin, not_not.mpr (hafter.mpr rfl), hsets, hu, he⟩

theorem propagateAdded_settles (h : Settles c.monitored r₀ n r) :
    WLP (propagateAdded c row n) r (Settles c.monitored r₀) := by
  refine WLP.bind_iff.mpr (Routine.reads_wlp (WLP.ite (fun hflags => ?_) fun _ => WLP.pure_iff.mpr h))
  have hd : (r.flags row).any deleted = false := by
    rw [show deleted ||| added ||| addedMerged = added ||| addedMerged ||| deleted from rfl,
      Standing.only_added_of_deleted, Bool.and_eq_true, Bool.not_eq_true'] at hflags
    exact hflags.2
  refine WLP.bind_iff.mpr ((updateStatus_settles .addition h hd).mono fun changed r' h' =>
    WLP.bind_iff.mpr (Routine.reads_wlp (WLP.ite (fun hc => ?_) fun hc => WLP.pure_iff.mpr ?_)))
  · rw [if_pos hc] at h'
    obtain ⟨t, hf, h'⟩ := h'
    refine WLP.bind_iff.mpr ?_
    rw [hf]
    exact (Context.announce_ends (E := fun _ _ => True) fun r'' ht hu he =>
      WLP.pure_iff.mpr (h' r'' ht hu he)).wlp
  · rwa [if_neg hc] at h'

section propagate

variable (hoff : c.mode.equality.enabled = false)

include hoff

theorem propagateDeleted_settles (h : Settles c.monitored r₀ n r) :
    WLP (propagateDeleted c row n) r (Settles c.monitored r₀) := by
  refine WLP.bind_iff.mpr (Routine.reads_wlp (WLP.ite (fun hflags => ?_) fun _ => ?_))
  · have hd : (r.flags row).any deleted = true := by
      rw [UInt8.or_comm, Standing.only_deleted, Bool.and_eq_true] at hflags
      exact hflags.1
    refine WLP.bind_iff.mpr ((updateStatus_settles .deletion h hd).mono fun changed r' h' => WLP.ite (fun hc => ?_)
      fun hc => WLP.pure_iff.mpr (by rwa [if_neg hc] at h'))
    rw [if_pos hc] at h'
    obtain ⟨t, hf, h'⟩ := h'
    refine WLP.bind_iff.mpr (Routine.reads_wlp (WLP.bind_iff.mpr ?_))
    rw [hf]
    exact (Context.announce_ends (E := fun _ _ => True) fun r'' ht hu he =>
      WLP.pure_iff.mpr (h' r'' ht hu he)).wlp
  · -- a fact that is kept has no other normal form
    have hsteady : c.steady? r = none := by rw [Context.steady?, hoff]; rfl
    refine WLP.bind_iff.mpr (Routine.reads_wlp ?_)
    rw [hsteady]
    exact WLP.bind_iff.mpr (Routine.reads_wlp (WLP.pure_iff.mpr h))

theorem propagateLevel_settles (budget level : Nat) (h : Settles c.monitored r₀ n r) :
    WLP (propagateLevel c budget n level) r (Settles c.monitored r₀) := by
  have hnext : ∀ w limit n r, Settles c.monitored r₀ n r → WLP (c.whileRunning (Routine.dequeueBefore w limit)) r
      fun row r' => Settles c.monitored r₀ n r' ∧ (row ≠ 0 → True) := fun w limit n r hr =>
    (Settles.tolerates.whileRunning (Settles.tolerates.dequeueBefore w limit) r hr).wlp.mono fun _ _ hr' =>
      ⟨hr', fun _ => trivial⟩
  refine WLP.bind_iff.mpr (Routine.demand_wlp fun deletedEnd _ => WLP.bind_iff.mpr ?_)
  refine (Routine.drain_wlp (Settles c.monitored r₀) (fun _ _ => True) (hnext _ _)
    (fun _ _ _ hr _ => propagateDeleted_settles hoff hr) _ _ h).mono fun n₁ r₁ h₁ => ?_
  refine WLP.ite (fun he => ?_) fun _ => WLP.bind_iff.mpr (WLP.pure_iff.mpr ?_)
  · rw [hoff] at he
    cases he
  · refine WLP.bind_iff.mpr (Routine.demand_wlp fun addedEnd _ => ?_)
    exact Routine.drain_wlp (Settles c.monitored r₀) (fun _ _ => True) (hnext _ _)
      (fun _ _ _ hr _ => propagateAdded_settles hr) _ _ h₁

/-- When the outcome of an update is written, also if that is stopped, what is counted and announced is what
moved. -/
theorem propagate_settles (h : r.table.Unmerged) :
    WLP (propagate c) r (Settles c.monitored r) := by
  have hstart : Settles c.monitored r ⟨0, 0⟩ r := .start h
  have hidle : ∀ {α n} {x : Routine α} {f : α → Routine Propagated} {r'},
      (∀ {P}, Run.Tolerates Run.Idle P (fun _ _ => True) → Within P (fun _ _ => True) x) →
      Settles c.monitored r n r' →
      (∀ a r'', Settles c.monitored r n r'' → WLP (f a) r'' (Settles c.monitored r)) →
      WLP (x >>= f) r' (Settles c.monitored r) :=
    fun hx hr hf => WLP.bind_iff.mpr ((hx Settles.tolerates _ hr).wlp.mono hf)
  refine WLP.bind_iff.mpr (Routine.reads_wlp (hidle (·.seek _ _) hstart fun _ r₁ h₁ => ?_))
  refine hidle (·.seek _ _) h₁ fun _ r₂ h₂ => hidle (·.seek _ _) h₂ fun _ r₃ h₃ => ?_
  refine hidle (fun ht => ht.announce rfl) h₃ fun _ r₄ h₄ => WLP.bind_iff.mpr (Routine.reads_wlp ?_)
  refine WLP.bind_iff.mpr ((WLP.foldlM (fun _ n r' => Settles c.monitored r n r')
    (fun _ level n r' hr' => propagateLevel_settles hoff _ level hr') h₄).mono fun n r₅ h₅ => ?_)
  exact hidle (·.note _) h₅ fun _ r₆ h₆ => hidle (fun ht => ht.announce rfl) h₆ fun _ r₇ h₇ =>
    WLP.pure_iff.mpr h₇

end propagate

end Changes

/-! ## Whole updates -/

namespace Maintenance

open Changes (Side Settles)

/-- Since `r₀` nothing that is materialized changed, and no outcome was announced. -/
structure Undisturbed (r₀ r : Run) : Prop where
  unmerged : r.table.Unmerged
  before_iff (t : Triple) : r.Before t ↔ r₀.Before t
  announced_eq (s : Side) : r.announced s.moved? = r₀.announced s.moved?

variable {c : Context} {r₀ r r' : Run} {retractions assertions : List Triple}

theorem Undisturbed.keeps (h : Undisturbed r₀ r)
    (hf : ∀ row t, r.table.fact? row = some t → r'.table.fact? row = some t)
    (hs : ∀ row, (r'.table.status row).any Status.derived = (r.table.status row).any Status.derived ∧
      (r'.table.status row).any Status.merged = (r.table.status row).any Status.merged)
    (ha : ∀ s : Side, r'.announced s.moved? = r.announced s.moved?) : Undisturbed r₀ r' := by
  refine ⟨fun row => (hs row).2.trans (h.unmerged row), fun t => ?_, fun s => (ha s).trans (h.announced_eq s)⟩
  refine (Table.holds_status_of_keeps (p := Standing.before) rfl hf fun row => ?_).trans (h.before_iff t)
  rw [Standing.before_iff, Standing.before_iff, (hs row).1, (hs row).2]

/-- What moved since then moved since `r₀`. -/
theorem Undisturbed.settles {monitored : Bool} {n : Propagated} (h : Undisturbed r₀ r)
    (hs : Settles monitored r n r') : Settles monitored r₀ n r' := by
  obtain ⟨moved, hs⟩ := hs
  refine ⟨moved, hs.unmerged, fun s => { hs.side s with mem_iff := fun t => ?_, announced_eq := ?_ }⟩
  · rw [(hs.side s).mem_iff]
    cases s <;> simp only [Side.Inside, h.before_iff]
  · rw [(hs.side s).announced_eq, h.announced_eq]

theorem seed_uncounted (strategy : Strategy) :
    WLP (seed c strategy retractions assertions) r fun p _ => p.2.deleted = 0 ∧ p.2.added = 0 := by
  refine WLP.bind_iff.mpr fun _ _ _ => WLP.bind_iff.mpr fun _ _ _ => WLP.bind_iff.mpr fun _ _ _ => ?_
  refine WLP.bind_iff.mpr fun levels _ _ => WLP.bind_iff.mpr fun _ _ _ => WLP.bind_iff.mpr fun _ _ _ => ?_
  exact WLP.pure_iff.mpr ⟨rfl, rfl⟩

/-- The outcome of an update is not written before its end. -/
theorem prepare_uncounted (strategy : Strategy) :
    WLP (prepare c strategy retractions assertions) r fun stats _ => stats.deleted = 0 ∧ stats.added = 0 :=
  WLP.bind_iff.mpr ((seed_uncounted strategy).mono fun p _ hp =>
    (updateLevels_sameCounts p.1 p.2).mono fun _ _ h => ⟨h.deleted.trans hp.1, h.added.trans hp.2⟩)

section update

variable (hoff : c.mode.equality.enabled = false)

include hoff

/-- Before its outcome is written, an update changes nothing that is materialized and announces no outcome. -/
theorem bears_undisturbed (r₀ : Run) (retractions assertions : List Triple) :
    Bears c retractions assertions (Undisturbed r₀) fun _ _ => True where
  calm := ⟨fun r r' h hc => h.keeps hc.fact?
    (fun row => ⟨hc.status row _ Bits.isBit_derived rfl (by rw [Context.unsettled, hoff]; rfl),
      hc.status row _ Bits.isBit_merged rfl (by rw [Context.unsettled, hoff]; rfl)⟩)
    fun s => Run.announced_eq s.outcome_moved hc.outcomes, fun _ _ _ _ => trivial, fun _ _ _ => trivial⟩
  judged row t r h hf := by
    refine Ends.bind_iff.mpr (Ends.discard_iff.mpr (Routine.addFlags_ends (fun m _ => ?_) fun _ _ => trivial))
    refine Ends.bind_iff.mpr (Context.announce_ends fun r₁ ht₁ _ he₁ =>
      Context.announce_ends fun r₂ ht₂ _ he₂ => ?_)
    have hT : r₂.table = r.table := ht₂.trans ht₁
    refine h.keeps (fun _ _ hf => by rwa [hT]) (fun row => by rw [hT]; exact ⟨rfl, rfl⟩) fun s => ?_
    rw [Run.announced_append he₂, Run.announced_append he₁]
    cases s <;> cases c.monitored <;>
      simp [Run.announced, Run.events, Changes.Side.moved?, Event.left?, Event.entered?]
  begins r u _ h _ := h.keeps (fun _ _ => id) (fun _ => ⟨rfl, rfl⟩) fun _ => rfl
  retracted t _ r row h _ := h.keeps (fun _ _ hf => Table.fact?_updateStatus.trans hf)
    (fun _ => ⟨Table.any_updateStatus Bits.isBit_derived rfl rfl,
      Table.any_updateStatus Bits.isBit_merged rfl rfl⟩)
    fun _ => rfl
  asserted t _ r h := by
    obtain ⟨row, T, hadd, hT⟩ := Table.add_stores Bits.isBit_asserted r.table t
    rw [hadd]
    refine h.keeps hT.keeps (fun row =>
      ⟨(hT.status row _ rfl).trans ?_, (hT.status row _ rfl).trans ?_⟩) fun _ => rfl
    all_goals rw [show (Status.asserted).any _ = false from rfl, Bool.and_false, Bool.or_false]

/-- Whether or not an update is stopped, what it counts and announces is what moved. -/
theorem update_settles (strategy : Strategy) (h : r.table.Unmerged) :
    WLP (update c strategy retractions assertions) r fun stats r' =>
      Settles c.monitored r ⟨stats.deleted, stats.added⟩ r' := by
  rw [update_eq]
  have hstart : Undisturbed r r := ⟨h, fun _ => Iff.rfl, fun _ => rfl⟩
  refine WLP.bind_iff.mpr ((WLP.and (prepare_uncounted strategy)
    (prepare_within (bears_undisturbed hoff r _ _) strategy r hstart).wlp).mono ?_)
  rintro stats r₁ ⟨⟨hd, ha⟩, h₁⟩
  have hidle := (bears_undisturbed hoff r retractions assertions).calm.idle
  refine WLP.bind_iff.mpr ((hidle.isRunning r₁ h₁).wlp.mono fun running r₂ h₂ => WLP.ite (fun _ => ?_) fun _ => ?_)
  · refine WLP.bind_iff.mpr ((Changes.propagate_settles hoff h₂.unmerged).mono fun n r₃ h₃ => ?_)
    exact WLP.bind_iff.mpr ((Settles.tolerates.note _ r₃ (h₂.settles h₃)).wlp.mono fun _ _ h₄ =>
      WLP.pure_iff.mpr h₄)
  · refine WLP.bind_iff.mpr ((hidle.note _ r₂ h₂).wlp.mono fun _ r₃ h₃ => WLP.pure_iff.mpr ?_)
    rw [hd, ha]
    exact h₃.settles (.start h₃.unmerged)

end update

end Maintenance

end Entail
