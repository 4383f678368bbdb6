import Entail.Proofs.Maintenance.Budget
import Entail.Proofs.Maintenance.Queue
import Entail.Proofs.Maintenance.View

/-!
# Deletion

While a level is worked off (`DeletionTask.Deleting`), every fact that may have lost its support is
queued: if an instance held before the update, but not in what is kept and added, then its conclusions
are queued (`DeletionTask.Covers`). `replay_wp` establishes this for changes below the level, and
`judge_wp` keeps it when a queued fact is deleted. In the end every queued fact of the level is deleted
or was found to be kept (`run_wp`).
-/

namespace Entail

namespace DeletionTask

open Flag.Update

variable {c : Context} {rules : List Rule} {task : DeletionTask} {r r' r'' : Run} {t : Triple}

/-- What holds while the facts of a level are deleted. -/
structure Deleting (c : Context) (task : DeletionTask) (r : Run) : Prop where
  plain : r.Plain
  closed (a : c.rules.Instance task.level) (h : a.Holds r.Before r.Before) (t : Triple)
    (ht : a.Concludes t) : r.Before t
  sorted : Sorted r.table c.rules (r.Has deletedNew) task.level task.lowerEnd (r.listed .deleted)
  later : Later r.table c.rules r.update.initiallyDeleted (r.Has deletedNew) task.level
  lowerEnd : task.lowerEnd ≤ (r.listed .deleted).length
  before (t : Triple) (h : r.Has deletedNew t) : r.Before t
  queued (t : Triple) (h : r.Has deleted t) : r.Has deletedNew t ∧ c.rules.Upto task.level t
  fresh (t : Triple) (h : r.Has added t) (hb : r.Before t) : r.Has deleted t
  additions : Includes r.table (r.Has added) (r.listed .added)
  added (t : Triple) (h : r.Has added t) : c.rules.Below task.level t

/-- `r'` is `r` but for its journal, its deletions and how far the queues were worked off. -/
structure Touches (r r' : Run) : Prop where
  eq : ∃ journal polls flags deleted added,
    r' = { r with journal, polls, update := { r.update with flags, deleted, added } }
  flags (row : Nat) (b : Flags) (h : deletedNew.any b = false) (h' : deleted.any b = false) :
    (r'.flags row).any b = (r.flags row).any b
  listed_added : r'.listed .added = r.listed .added

namespace Touches

theorem refl (r : Run) : Touches r r := ⟨⟨_, _, _, _, _, rfl⟩, fun _ _ _ _ => rfl, rfl⟩

theorem trans (h : Touches r r') (h' : Touches r' r'') : Touches r r'' := by
  refine ⟨?_, fun row b hb hb' => (h'.flags row b hb hb').trans (h.flags row b hb hb'),
    h'.listed_added.trans h.listed_added⟩
  obtain ⟨_, _, _, _, _, rfl⟩ := h.eq
  obtain ⟨_, _, _, _, _, rfl⟩ := h'.eq
  exact ⟨_, _, _, _, _, rfl⟩

theorem journal (r : Run) (journal : Array Entry) : Touches r { r with journal } :=
  ⟨⟨_, _, _, _, _, rfl⟩, fun _ _ _ _ => rfl, rfl⟩

/-- A fact was deleted. -/
theorem setDeleted {row : Nat} {m : Marks} (h : Touches r r') (ha : r'.update.flags.Adds row deleted m) :
    Touches r { r' with update := { r'.update with flags := m } } := by
  refine ⟨?_, fun other b hb hb' => ?_, h.listed_added⟩
  · obtain ⟨_, _, _, _, _, rfl⟩ := h.eq
    exact ⟨_, _, _, _, _, rfl⟩
  · refine (ha.any b other).trans ?_
    rw [hb', Bool.and_false, Bool.or_false]
    exact h.flags other b hb hb'

/-- A queue was worked off further. -/
theorem moved (r : Run) {w : WorkList} (hw : w ≠ .proved) (cursor polls : Nat) :
    Touches r (r.moved w cursor polls) := by
  cases w with
  | proved => exact absurd rfl hw
  | deleted => exact ⟨⟨_, _, _, _, _, rfl⟩, fun _ _ _ _ => rfl, rfl⟩
  | added => exact ⟨⟨_, _, _, _, _, rfl⟩, fun _ _ _ _ => rfl, rfl⟩

end Touches

/-- `r'` is `r` with more facts queued for deletion. -/
structure Queues (r r' : Run) : Prop extends Touches r r' where
  deleted_eq (row : Nat) : (r'.flags row).any deleted = (r.flags row).any deleted
  has (t : Triple) (h : r.Has deletedNew t) : r'.Has deletedNew t
  listed : r.listed .deleted <+: r'.listed .deleted

namespace Queues

theorem refl (r : Run) : Queues r r :=
  ⟨.refl r, fun _ => rfl, fun _ => id, List.prefix_refl _⟩

theorem trans (h : Queues r r') (h' : Queues r' r'') : Queues r r'' :=
  ⟨h.toTouches.trans h'.toTouches, fun row => (h'.deleted_eq row).trans (h.deleted_eq row),
    fun t ht => h'.has t (h.has t ht), h.listed.trans h'.listed⟩

theorem journal (r : Run) (journal : Array Entry) : Queues r { r with journal } :=
  ⟨.journal r journal, fun _ => rfl, fun _ => id, List.prefix_refl _⟩

theorem moved (r : Run) {w : WorkList} (hw : w ≠ .proved) (cursor polls : Nat) :
    Queues r (r.moved w cursor polls) := by
  have ht := Touches.moved r hw cursor polls
  cases w with
  | proved => exact absurd rfl hw
  | deleted => exact ⟨ht, fun _ => rfl, fun _ => id, List.prefix_refl _⟩
  | added => exact ⟨ht, fun _ => rfl, fun _ => id, List.prefix_refl _⟩

theorem listed_prefix (h : Queues r r') {w : WorkList} (hw : w ≠ .proved) :
    r.listed w <+: r'.listed w := by
  cases w with
  | proved => exact absurd rfl hw
  | deleted => exact h.listed
  | added => exact h.listed_added ▸ List.prefix_refl _

theorem table_eq (h : Queues r r') : r'.table = r.table := by
  obtain ⟨_, _, _, _, _, rfl⟩ := h.eq
  rfl

theorem alike (h : Queues r r') : r.Alike r' where
  before_iff := Run.before_congr h.table_eq
  deleted_iff := Run.has_congr h.table_eq h.deleted_eq
  added_iff := Run.has_congr h.table_eq fun row => h.flags row added rfl rfl

/-- What is queued does not matter to an evaluation. -/
theorem snapshot_eq (hc : c.Basic rules) (h : Queues r r')
    {f : Run → Role → Occurrence → RowIndex → Status → Bool}
    (hf : ∀ role o row status, f r' role o row status = f r role o row status) :
    (c.view f).snapshot r' = (c.view f).snapshot r := by
  have ht := h.table_eq
  refine View.snapshot_congr (c.view f) ?_ ?_ (fun role o row _ => ?_)
    fun role o row t hrow hlt => ?_
  · show c.steady? r' = c.steady? r
    rw [hc.steady_eq, hc.steady_eq]
  · show r.table.Extends r'.table
    rw [ht]
    exact .refl _
  · show f r' role o row (r'.table.status row) = f r role o row (r.table.status row)
    rw [ht, hf]
  · have hb := (Table.fact?_bounds (show r'.table.fact? row = some t from hrow)).2
    have hlt : r.table.size < row := hlt
    rw [ht] at hb
    omega

theorem kept_eq (h : Queues r r') (row : Nat) (status : Status) :
    (r'.standing row status).kept = (r.standing row status).kept :=
  Standing.kept_congr rfl (h.deleted_eq row) (h.flags row added rfl rfl)

theorem withAdded_eq (h : Queues r r') (row : Nat) (status : Status) :
    (r'.standing row status).withAdded = (r.standing row status).withAdded :=
  Standing.withAdded_congr rfl (h.flags row added rfl rfl) (h.flags row addedMerged rfl rfl)

theorem after_eq (h : Queues r r') (row : Nat) (status : Status) :
    (r'.standing row status).after = (r.standing row status).after :=
  Standing.after_congr rfl (h.deleted_eq row) (h.flags row added rfl rfl)
    (h.flags row addedMerged rfl rfl)

end Queues

theorem Deleting.mark {row : Nat} (h : Deleting c task r) (hf : r.table.fact? row = some t)
    (ht : r.Before t) (hat : c.rules.At task.level t)
    (hm : Routine.Marked .update .deleted deletedNew row t r r') : Deleting c task r' := by
  have hbefore : r'.Before = r.Before := funext fun _ => propext (Run.before_congr hm.table_eq)
  have hadded : ∀ s, r'.Has Flag.Update.added s ↔ r.Has Flag.Update.added s := fun s =>
    hm.has_of_ne rfl
  have hsorted := hm.sorted Bits.isBit_deletedNew hf hat h.lowerEnd []
    (by simpa using h.sorted)
  refine ⟨hm.plain, by simpa only [hbefore] using h.closed, by simpa using hsorted, ?_,
    h.lowerEnd.trans hm.listed.length_le, fun s hs => ?_, fun s hs => ?_, fun s hs hb => ?_, ?_,
    fun s hs => h.added s ((hadded s).mp hs)⟩
  · have hlater := hm.later Bits.isBit_deletedNew hat h.later
    obtain ⟨_, _, rfl⟩ := hm.eq
    exact hlater
  · rw [hbefore]
    rcases (hm.has_self Bits.isBit_deletedNew).mp hs with hs | rfl
    · exact h.before s hs
    · exact ht
  · obtain ⟨h₁, h₂⟩ := h.queued s ((hm.has_of_ne rfl).mp hs)
    exact ⟨(hm.has_self Bits.isBit_deletedNew).mpr (.inl h₁), h₂⟩
  · exact (hm.has_of_ne rfl).mpr (h.fresh s ((hadded s).mp hs) (hbefore ▸ hb))
  · have hlisted : r'.listed .added = r.listed .added := hm.listed_of_ne (by decide)
    rw [hm.table_eq, hlisted]
    exact h.additions.congr fun s => (hadded s).mp

theorem Deleting.journal (h : Deleting c task r) (journal : Array Entry) :
    Deleting c task { r with journal } :=
  { h with plain := { h.plain with } }

theorem Deleting.moved (h : Deleting c task r) {w : WorkList} (hw : w ≠ .proved)
    (cursor polls : Nat) : Deleting c task (r.moved w cursor polls) := by
  cases w with
  | proved => exact absurd rfl hw
  | deleted => exact { h with plain := { h.plain with } }
  | added => exact { h with plain := { h.plain with } }

theorem Deleting.exists_lists (h : Deleting c task r) {w : WorkList} (hw : w ≠ .proved) :
    ∃ S, Lists r.table S (r.listed w) := by
  cases w with
  | proved => exact absurd rfl hw
  | deleted => exact ⟨_, h.sorted.lists⟩
  | added => exact ⟨_, h.additions.lists⟩

/-- A queued fact of the level is deleted. -/
theorem Deleting.setDeleted {row : Nat} {m : Marks} (h : Deleting c task r)
    (hf : r.table.fact? row = some t) (hnew : r.Has deletedNew t) (hat : c.rules.At task.level t)
    (ha : r.update.flags.Adds row deleted m) :
    Deleting c task { r with update := { r.update with flags := m } } := by
  have hother : ∀ {b s}, deleted.any b = false →
      (Run.Has { r with update := { r.update with flags := m } } b s ↔ r.Has b s) :=
    Run.has_withFlags_of_ne hf ha
  refine { h with
    plain := h.plain.withMarks (l := .update) hf ha rfl
    sorted := h.sorted.congr fun s => hother rfl
    later := h.later.congr fun s _ => hother rfl
    before := fun s hs => h.before s ((hother rfl).mp hs)
    queued := fun s hs => ?_
    added := fun s hs => h.added s ((hother rfl).mp hs)
    fresh := fun s hs hb => (Run.has_withFlags hf ha).mpr (.inl (h.fresh s ((hother rfl).mp hs) hb))
    additions := h.additions.congr fun s => (hother rfl).mp }
  rcases (Run.has_withFlags hf ha).mp hs with hs | ⟨-, rfl⟩
  · exact ⟨(hother rfl).mpr (h.queued s hs).1, (h.queued s hs).2⟩
  · exact ⟨(hother rfl).mpr hnew, .inr hat⟩

/-- A fact of the level that may have lost its support gets queued. -/
theorem delete_wp (hc : c.Basic rules) (h : Deleting c task r) (ht : r.Before t)
    (hat : c.rules.At task.level t) :
    WP (delete c t) r fun _ r' => Deleting c task r' ∧ Queues r r' ∧ r.SameCursors r' ∧
      r'.Has deletedNew t := by
  obtain ⟨row, hf⟩ := ht.mem
  rw [delete, WP.bind_iff]
  refine Routine.reads_wp ?_
  rw [Table.index?_eq_some_iff.mpr hf]
  refine Routine.mark_wp (l := .update) Bits.isBit_deletedNew rfl h.plain hf fun isNew r₁ _ hm => ?_
  refine Context.announce_wp hc.stop fun journal => ⟨(h.mark hf ht hat hm).journal journal, ?_,
    hm.sameCursors, (hm.has_self Bits.isBit_deletedNew).mpr (.inr rfl)⟩
  refine ⟨⟨?_, fun row b hb _ => hm.flags row b hb, hm.listed_of_ne (by decide)⟩,
    fun row => hm.flags row deleted rfl,
    fun s hs => (hm.has_self Bits.isBit_deletedNew).mpr (.inl hs), hm.listed⟩
  obtain ⟨_, _, rfl⟩ := hm.eq
  exact ⟨_, _, _, _, _, rfl⟩

section level

variable (hc : c.Basic rules) (hl : task.level.isSome = c.mode.usesLevels)

include hc hl

/-- What the rules of the level derive from a fact gets queued. -/
theorem apply_wp (h : Deleting c task r) {f : Run → Role → Occurrence → RowIndex → Status → Bool}
    (hf : ∀ r', Queues r r' → ∀ role o row status, f r' role o row status = f r role o row status)
    (hconf : RuleIndex.Confines ((c.view f).snapshot r) r.Before r.Before) {p : RuleIndex.Polarity}
    (ht : p.Allows r.Before r.Before t) (row : RowIndex) :
    WP (p.apply c.rules (c.view f) row t task.scope fun _ head => delete c head) r
      fun _ r' => Deleting c task r' ∧ Queues r r' ∧ r.SameCursors r' ∧
        ∀ head, c.rules.Emits ((c.view f).snapshot r) (.ofLevel task.level) p t head →
          r'.Has deletedNew head := by
  have hhandles := RuleIndex.apply_handles (c.view f) (n := (c.view f).snapshot r)
    (fun r' => Deleting c task r' ∧ Queues r r' ∧ r.SameCursors r')
    (fun head r' => r'.Has deletedNew head) row (.ofLevel task.level) (fun _ head => delete c head)
    hc.simple rfl (fun r' hr' => hr'.2.1.snapshot_eq hc (hf r' hr'.2.1)) p (t := t) ?_
  · refine (hhandles r ⟨h, .refl r, fun _ => rfl⟩).mono ?_
    rintro _ r' ⟨⟨h', hq, hcur⟩, hd, _⟩
    exact ⟨h', hq, hcur, hd⟩
  · rintro rule head hemits r₁ ⟨h₁, hq₁, hcur₁⟩
    obtain ⟨a, ha, hhead⟩ := hemits.exists_holds (hc.steady_eq r) hconf ht
    have hbh := h.closed a ha head hhead
    refine (delete_wp hc h₁ (hq₁.alike.before_iff.mpr hbh) (a.at_of_concludes hc.builds hl hhead)).mono ?_
    rintro _ r₂ ⟨h₂, hq₂, hcur₂, hnew⟩
    refine ⟨⟨h₂, hq₁.trans hq₂, fun w => (hcur₂ w).trans (hcur₁ w)⟩, ?_, fun u => hq₂.has u⟩
    rintro _ rfl
    exact hnew

/-! ### Changes at lower levels -/

/-- If an instance held before the update, but not in what is kept and added, then its conclusions are
queued. -/
def Covers (c : Context) (level : Option Nat) (r : Run) : Prop :=
  ∀ a : c.rules.Instance level, a.Holds r.Before r.Before → ¬ a.Holds r.Kept r.WithAdded →
    ∀ head, a.Concludes head → r.Has deletedNew head

omit hc hl in
theorem Covers.alike {level : Option Nat} (h : Covers c level r) (hr : r.Alike r')
    (hnew : ∀ t, r.Has deletedNew t → r'.Has deletedNew t) : Covers c level r' := by
  intro a ha hno head hhead
  refine hnew head (h a (ha.mono (fun _ _ _ => hr.before_iff.mp) fun _ _ _ => hr.before_iff.mpr)
    (fun hh => hno ?_) head hhead)
  exact hh.mono (fun _ _ _ => hr.kept_iff.mpr) fun _ _ _ => hr.withAdded_iff.mp

omit hc hl in
/-- A fact is deleted after what was derived from it is queued. -/
theorem Covers.of_setDeleted {level : Option Nat} {row : Nat} {m : Marks} (hq : Queues r r')
    (hf : r'.table.fact? row = some t) (ha : r'.update.flags.Adds row deleted m)
    (hcov : ∀ a : c.rules.Instance level, a.Holds r.Before r.Before →
      ¬ a.Holds (fun u => r.Kept u ∧ u ≠ t) r.WithAdded → ∀ head, a.Concludes head →
        r'.Has deletedNew head) :
    Covers c level { r' with update := { r'.update with flags := m } } := by
  have hother : ∀ {b s}, deleted.any b = false →
      (Run.Has { r' with update := { r'.update with flags := m } } b s ↔ r'.Has b s) :=
    Run.has_withFlags_of_ne hf ha
  intro a hbefore hno head hhead
  refine (hother rfl).mpr (hcov a (hbefore.mono (fun _ _ _ => hq.alike.before_iff.mp)
    fun _ _ _ => hq.alike.before_iff.mpr) (fun hh => hno (hh.mono (fun _ u _ hu => ?_)
      fun _ u _ hu => ?_)) head hhead)
  · -- what is not kept any more was not kept before or is the fact
    obtain ⟨⟨hb, hg⟩, hne⟩ := hu
    refine ⟨hq.alike.before_iff.mpr hb, fun ⟨hdel, hadd⟩ => hg (hq.alike.gone_iff.mp ⟨?_, ?_⟩)⟩
    · exact ((Run.has_withFlags hf ha).mp hdel).resolve_right fun hh => hne hh.2
    · exact mt (hother rfl).mpr hadd
  · exact hq.alike.withAdded_iff.mp (hu.imp_right (hother rfl).mp)

omit hl in
theorem replays_deleted (r : Run) :
    RuleIndex.Replays ((c.view replayDeleted).snapshot r) r.Kept r.WithAdded r.Before where
  classes_eq := hc.steady_eq r
  before_iff _ _ := View.present_iff.trans Run.holds_kept_iff
  after_iff _ _ := View.present_iff
  absent_iff _ _ := View.present_iff
  absentBefore _ _ h := by exact View.present_iff.mpr h
  withAdded _ _ h := .inl (View.present_iff.mp h)

omit hl in
theorem replays_added (hp : r.Plain) :
    RuleIndex.Replays ((c.view replayAdded).snapshot r) r.Kept r.WithAdded r.Before where
  classes_eq := hc.steady_eq r
  before_iff _ _ := View.present_iff.trans Run.holds_kept_iff
  after_iff _ _ := View.present_iff
  absent_iff _ _ := View.present_iff
  absentBefore _ _ h := View.present_iff.mpr (hp.holds_withAdded_iff.mpr (.inl h))
  withAdded _ _ h := hp.holds_withAdded_iff.mp (View.present_iff.mp h)

omit hc hl in
theorem replayDeleted_eq (h : Queues r r') (role : Role) (o : Occurrence) (row : RowIndex)
    (status : Status) : replayDeleted r' role o row status = replayDeleted r role o row status := by
  cases role <;> first | rfl | exact h.kept_eq row status

omit hc hl in
theorem replayAdded_eq (h : Queues r r') (role : Role) (o : Occurrence) (row : RowIndex)
    (status : Status) : replayAdded r' role o row status = replayAdded r role o row status := by
  cases role <;> first
    | rfl | exact h.kept_eq row status | exact h.withAdded_eq row status | exact h.after_eq row status

/-- An instance of the level concludes `head`, but has lost the premise `t`, which is gone. -/
def LostWith (c : Context) (level : Option Nat) (r : Run) (t head : Triple) : Prop :=
  r.Gone t ∧ c.rules.Emits ((c.view replayDeleted).snapshot r) (.ofLevel level) .positive t head

/-- An instance of the level concludes `head`, but is blocked by `t`, which was added. -/
def BlockedBy (c : Context) (level : Option Nat) (r : Run) (t head : Triple) : Prop :=
  (r.Has added t ∧ ¬ r.Has deleted t) ∧
    c.rules.Emits ((c.view replayAdded).snapshot r) (.ofLevel level) .negative t head

omit hl in
theorem lostWith_iff {level : Option Nat} {head : Triple} (hq : Queues r r') :
    LostWith c level r' t head ↔ LostWith c level r t head := by
  rw [LostWith, LostWith, hq.alike.gone_iff, hq.snapshot_eq hc (replayDeleted_eq hq)]

omit hl in
theorem blockedBy_iff {level : Option Nat} {head : Triple} (hq : Queues r r') :
    BlockedBy c level r' t head ↔ BlockedBy c level r t head := by
  rw [BlockedBy, BlockedBy, hq.alike.added_iff, hq.alike.deleted_iff,
    hq.snapshot_eq hc (replayAdded_eq hq)]

omit hl in
/-- What comes of instances that do not hold any more is queued if what lost a premise and what is
blocked is. -/
theorem Covers.of_replayed (h : Deleting c task r)
    (hlost : ∀ t head, LostWith c task.level r t head → r.Has deletedNew head)
    (hblocked : ∀ (a : c.rules.Instance task.level) k t head, a.Blocker k t →
      BlockedBy c task.level r t head → r.Has deletedNew head) : Covers c task.level r := by
  intro a ha hno head hhead
  rcases a.exists_emits (replays_deleted hc r) (replays_added hc h.plain) ha hno hhead with
    ⟨k, u, _, hb, hk, hemits⟩ | ⟨k, u, hu, hb, hw, hemits⟩
  · exact hlost u head ⟨by_contra fun hg => hk ⟨hb, hg⟩, hemits⟩
  · exact hblocked a k u head hu ⟨⟨hw.resolve_left hb, fun hd => hb (h.before u (h.queued u hd).1)⟩,
      hemits⟩

/-- What the rules of the level derive from a fact that is gone gets queued. -/
theorem replayDeletion_wp {row : Nat} (h : Deleting c task r) (hf : r.table.fact? row = some t) :
    WP (task.replayDeletion c row) r fun _ r' => Deleting c task r' ∧ Queues r r' ∧
      r.SameCursors r' ∧ ∀ head, LostWith c task.level r t head → r'.Has deletedNew head := by
  have hgone : (r.flags row).only (added ||| deleted) deleted = true ↔ r.Gone t := by
    rw [Standing.only_deleted, Run.Gone, Run.has_iff hf, Run.has_iff hf]
    simp
  rw [replayDeletion, WP.bind_iff]
  refine Routine.reads_wp ?_
  by_cases hg : r.Gone t
  · rw [if_pos (hgone.mpr hg), WP.bind_iff]
    refine Routine.factOf_wp hf ?_
    refine (apply_wp hc hl h (fun r' => replayDeleted_eq)
      ((replays_deleted hc r).confines fun _ => And.left) (p := .positive)
      (h.before t (h.queued t hg.1).1) row).mono ?_
    rintro _ r' ⟨h', hq, hcur, hd⟩
    exact ⟨h', hq, hcur, fun head hh => hd head hh.2⟩
  · rw [if_neg (mt hgone.mp hg)]
    exact WP.pure_iff.mpr ⟨h, .refl r, fun _ => rfl, fun _ hh => absurd hh.1 hg⟩

/-- What the rules of the level derive because an added fact was absent gets queued. -/
theorem replayAddition_wp {row : Nat} (h : Deleting c task r) (hf : r.table.fact? row = some t) :
    WP (task.replayAddition c row) r fun _ r' => Deleting c task r' ∧ Queues r r' ∧
      r.SameCursors r' ∧ ∀ head, BlockedBy c task.level r t head → r'.Has deletedNew head := by
  have hadded : (r.flags row).only (added ||| deleted) added = true ↔
      r.Has added t ∧ ¬ r.Has deleted t := by
    rw [Standing.only_added_not_deleted, Run.has_iff hf, Run.has_iff hf]
    simp
  rw [replayAddition, WP.bind_iff]
  refine Routine.reads_wp ?_
  by_cases ha : r.Has added t ∧ ¬ r.Has deleted t
  · rw [if_pos (hadded.mpr ha), WP.bind_iff]
    refine Routine.factOf_wp hf ?_
    refine (apply_wp hc hl h (fun r' => replayAdded_eq)
      ((replays_added hc h.plain).confines fun _ => And.left) (p := .negative)
      (fun hb => ha.2 (h.fresh t ha.1 hb)) row).mono ?_
    rintro _ r' ⟨h', hq, hcur, hd⟩
    exact ⟨h', hq, hcur, fun head hh => hd head hh.2⟩
  · rw [if_neg (mt hadded.mp ha)]
    exact WP.pure_iff.mpr ⟨h, .refl r, fun _ => rfl, fun _ hh => absurd hh.1 ha⟩

omit hc hl in
/-- A queue is gone through: what is due for each of its facts is queued. -/
theorem drain_wp {w : WorkList} (hw : w ≠ .proved) {live : Nat → Prop} {next : Routine RowIndex}
    (hnext : Routine.Takes w live next)
    (hlive : ∀ place place', live place' → place < place' → live place)
    {handle : RowIndex → Routine Unit} (Due : Triple → Triple → Prop) {fuel : Nat}
    (hhandle : ∀ r' (row : Nat) t, Deleting c task r' → Queues r r' →
      r'.table.fact? row = some t → WP (handle row) r' fun _ r'' => Deleting c task r'' ∧
        Queues r' r'' ∧ r'.SameCursors r'' ∧ ∀ head, Due t head → r''.Has deletedNew head)
    (h : Deleting c task r) (hfuel : r.table.size < fuel) (hstart : (r.update.queue w).cursor = 0) :
    WP (Routine.drain next (fun row _ => handle row) fuel ()) r fun _ r' => Deleting c task r' ∧
      Queues r r' ∧
      (∀ w', w' ≠ w → (r'.update.queue w').cursor = (r.update.queue w').cursor) ∧
      (live (r'.update.queue w).cursor → (r'.listed w).length ≤ (r'.update.queue w).cursor) ∧
      (∀ place, place < (r'.update.queue w).cursor → live place) ∧
      ∀ (place row : Nat) t, live place → (r'.listed w)[place]? = some row →
        r.table.fact? row = some t → ∀ head, Due t head → r'.Has deletedNew head := by
  refine (Routine.workOff_wp live (N := r.table.size) 0 hnext
    (fun _ r' => Deleting c task r' ∧ Queues r r' ∧
      ∀ w', w' ≠ w → (r'.update.queue w').cursor = (r.update.queue w').cursor)
    (fun row r' => ∀ t, r.table.fact? row = some t → ∀ head, Due t head → r'.Has deletedNew head)
    (fun _ r' hr' => hr'.1.plain.running) (fun _ r' hr' => ?_) (fun _ r' cursor polls hr' => ?_)
    (fun _ r' place row hr' _ _ hrow => ?_) hlive fuel hfuel ⟨h, .refl r, fun _ _ => rfl⟩
    hstart).mono ?_
  · obtain ⟨S, hlists⟩ := hr'.1.exists_lists hw
    exact ⟨hr'.2.1.table_eq ▸ hlists.length_le, fun row hrow => hlists.pos hrow⟩
  · have hq := Queues.moved r' hw cursor polls
    refine ⟨⟨hr'.1.moved hw cursor polls, hr'.2.1.trans hq, fun w' hw' => ?_⟩,
      fun row hj t hf head hd => hq.has head (hj t hf head hd)⟩
    rw [Run.queue_moved_of_ne hw']
    exact hr'.2.2 w' hw'
  · obtain ⟨h', hq, hcur⟩ := hr'
    obtain ⟨S, hlists⟩ := h'.exists_lists hw
    obtain ⟨t, hf, -⟩ := (hlists.mem_iff row).mp (List.mem_of_getElem? hrow)
    refine (hhandle r' row t h' hq hf).mono ?_
    rintro _ r'' ⟨h'', hq', hcur', hd⟩
    refine ⟨⟨h'', hq.trans hq', fun w' hw' => (hcur' w').trans (hcur w' hw')⟩, hcur' w,
      hq'.listed_prefix hw, fun s hs head hdue => ?_,
      fun other _ hj s hs head hdue => hq'.has head (hj s hs head hdue)⟩
    rw [hq.table_eq, hs] at hf
    cases hf
    exact hd head hdue
  · rintro _ r' ⟨⟨h', hq, hcur⟩, hj, hend, -, hlive'⟩
    exact ⟨h', hq, hcur, hend, fun place hlt => (hlive' place (Nat.zero_le _) hlt).1,
      fun place row t hl hrow hf => hj place row (Nat.zero_le _) hl hrow t hf⟩

/-- What lost a premise at a lower level is queued. -/
theorem replayDeletions_wp (h : Deleting c task r) (hbudget : r.table.size < task.budget)
    (hstart : r.update.deleted.cursor = 0) (hlower : ∀ t, r.Gone t → c.rules.Below task.level t) :
    WP (Routine.drain (Routine.dequeueBefore .deleted task.lowerEnd)
      (fun row _ => task.replayDeletion c row) task.budget ()) r fun _ r' => Deleting c task r' ∧
        Queues r r' ∧ r'.update.deleted.cursor = task.lowerEnd ∧
        r'.update.added.cursor = r.update.added.cursor ∧
        ∀ t head, LostWith c task.level r t head → r'.Has deletedNew head := by
  refine (drain_wp (w := .deleted) (by decide) (Routine.takes_dequeueBefore task.lowerEnd)
    (fun place place' h₁ h₂ => h₂.trans h₁) (LostWith c task.level r) (fun r' row t h' hq hf => ?_)
    h hbudget hstart).mono ?_
  · refine (replayDeletion_wp hc hl h' hf).mono ?_
    rintro _ r'' ⟨h'', hq', hcur, hd⟩
    exact ⟨h'', hq', hcur, fun head hdue => hd head ((lostWith_iff hc hq).mpr hdue)⟩
  · rintro _ r' ⟨h', hq, hcur, hend, hlive, hdue⟩
    refine ⟨h', hq, ?_, hcur .added (by decide), fun t head hlost => ?_⟩
    · have hle := h'.lowerEnd
      have hplace := hlive task.lowerEnd
      dsimp only [Run.listed, Update.queue] at hle hend hplace
      omega
    · -- a fact that is gone was queued by a lower level
      obtain ⟨row, hf⟩ := hlost.1.1.mem
      obtain ⟨place, hlt, hplace⟩ := h'.sorted.exists_below
        (h'.queued t (hq.alike.deleted_iff.mpr hlost.1.1)).1 (hlower t hlost.1) (by rwa [hq.table_eq])
      exact hdue place row t hlt hplace hf head hlost

/-- What is blocked by an addition at a lower level is queued. -/
theorem replayAdditions_wp (h : Deleting c task r) (hbudget : r.table.size < task.budget)
    (hstart : r.update.added.cursor = 0) :
    WP (Routine.drain (Routine.dequeue .added) (fun row _ => task.replayAddition c row) task.budget ()) r
      fun _ r' => Deleting c task r' ∧ Queues r r' ∧
        r'.update.deleted.cursor = r.update.deleted.cursor ∧
        ∀ t head, BlockedBy c task.level r t head → r'.Has deletedNew head := by
  refine (drain_wp (w := .added) (by decide) Routine.takes_dequeue (fun _ _ _ _ => trivial)
    (BlockedBy c task.level r) (fun r' row t h' hq hf => ?_) h hbudget hstart).mono ?_
  · refine (replayAddition_wp hc hl h' hf).mono ?_
    rintro _ r'' ⟨h'', hq', hcur, hd⟩
    exact ⟨h'', hq', hcur, fun head hdue => hd head ((blockedBy_iff hc hq).mpr hdue)⟩
  · rintro _ r' ⟨h', hq, hcur, -, -, hdue⟩
    refine ⟨h', hq, hcur .deleted (by decide), fun t head hblocked => ?_⟩
    have ha := hq.alike.added_iff.mpr hblocked.1.1
    obtain ⟨row, hf⟩ := ha.mem
    obtain ⟨place, hplace⟩ := List.mem_iff_getElem?.mp (h'.additions.mem row t hf ha)
    exact hdue place row t trivial hplace (by rwa [hq.table_eq] at hf) head hblocked

/-- The consequences of changes at lower levels are queued. -/
theorem replay_wp (h : Deleting c task r) (hbudget : r.table.size < task.budget)
    (hstart : r.update.deleted.cursor = 0)
    (hadded : c.rules.hasNegation task.scope = true → r.update.added.cursor = 0)
    (hlower : ∀ t, r.Gone t → c.rules.Below task.level t) :
    WP (task.replay c) r fun _ r' => Deleting c task r' ∧ Queues r r' ∧
      r'.update.deleted.cursor = task.lowerEnd ∧ Covers c task.level r' := by
  rw [replay, WP.bind_iff]
  refine Context.announce_wp hc.stop fun journal => ?_
  rw [WP.bind_iff]
  refine (replayDeletions_wp hc hl (h.journal journal) hbudget hstart hlower).mono ?_
  rintro _ r₁ ⟨h₁, hq₁, hcursor, hcur₁, hlost⟩
  have hq : Queues r r₁ := (Queues.journal r journal).trans hq₁
  cases hneg : c.rules.hasNegation task.scope with
  | false =>
    refine WP.pure_iff.mpr ⟨h₁, hq, hcursor, .of_replayed hc h₁
      (fun t head ht => hlost t head ((lostWith_iff hc hq₁).mp ht)) fun a k t head hk _ => ?_⟩
    have := a.hasNegation_of_blocker hk
    rw [show c.rules.hasNegation (.ofLevel task.level) = false from hneg] at this
    cases this
  | true =>
    simp only [if_true]
    refine (replayAdditions_wp hc hl h₁ (by rwa [hq.table_eq]) (hcur₁.trans (hadded hneg))).mono ?_
    rintro _ r₂ ⟨h₂, hq₂, hcur₂, hblocked⟩
    refine ⟨h₂, hq.trans hq₂, hcur₂.trans hcursor, .of_replayed hc h₂ (fun t head ht => ?_)
      fun a k t head _ ht => hblocked t head ((blockedBy_iff hc hq₂).mp ht)⟩
    exact hq₂.has head (hlost t head ((lostWith_iff hc (hq₁.trans hq₂)).mp ht))

end level

/-! ### Judging queued facts -/

/-- `r'` is `r` but for its journal and what a check of a fact finds out. -/
structure Checks (r r' : Run) : Prop where
  eq : ∃ journal polls examinations checked checks flags levelFlags proved,
    r' = { r with
      journal, polls, examinations, checked, checks
      update := { r.update with flags, levelFlags, proved } }
  plain : r'.Plain
  flags (row : Nat) (b : Flags) (h : disproved.any b = false) :
    (r'.flags row).any b = (r.flags row).any b

namespace Checks

theorem table_eq (h : Checks r r') : r'.table = r.table := by
  obtain ⟨_, _, _, _, _, _, _, _, rfl⟩ := h.eq
  rfl

theorem has_iff (h : Checks r r') {b : Flags} (hb : disproved.any b = false) :
    r'.Has b t ↔ r.Has b t :=
  Run.has_congr h.table_eq fun row => h.flags row b hb

theorem alike (h : Checks r r') : r.Alike r' :=
  ⟨Run.before_congr h.table_eq, h.has_iff rfl, h.has_iff rfl⟩

theorem listed_eq (h : Checks r r') (w : WorkList) (hw : w ≠ .proved) :
    r'.listed w = r.listed w := by
  obtain ⟨_, _, _, _, _, _, _, _, rfl⟩ := h.eq
  cases w <;> first | rfl | exact absurd rfl hw

theorem cursor_eq (h : Checks r r') : r'.update.deleted.cursor = r.update.deleted.cursor := by
  obtain ⟨_, _, _, _, _, _, _, _, rfl⟩ := h.eq
  rfl

end Checks

theorem Deleting.check (h : Deleting c task r) (hr : Checks r r') : Deleting c task r' := by
  have hbefore : r'.Before = r.Before := funext fun _ => propext (Run.before_congr hr.table_eq)
  have hhas : ∀ {b : Flags} (s : Triple), disproved.any b = false → (r'.Has b s ↔ r.Has b s) :=
    fun s hb => hr.has_iff hb
  refine ⟨hr.plain, by simpa only [hbefore] using h.closed, ?_, ?_, ?_, fun s hs => ?_,
    fun s hs => ?_, fun s hs hb => ?_, ?_, fun s hs => h.added s ((hhas s rfl).mp hs)⟩
  · rw [hr.table_eq, hr.listed_eq .deleted (by decide)]
    exact h.sorted.congr fun s => hhas s rfl
  · have hnew : ∀ s, r'.Has deletedNew s ↔ r.Has deletedNew s := fun s => hhas s rfl
    obtain ⟨_, _, _, _, _, _, _, _, rfl⟩ := hr.eq
    exact h.later.congr fun s _ => hnew s
  · rw [hr.listed_eq .deleted (by decide)]
    exact h.lowerEnd
  · exact hbefore ▸ h.before s ((hhas s rfl).mp hs)
  · obtain ⟨h₁, h₂⟩ := h.queued s ((hhas s rfl).mp hs)
    exact ⟨(hhas s rfl).mpr h₁, h₂⟩
  · exact (hhas s rfl).mpr (h.fresh s ((hhas s rfl).mp hs) (hbefore ▸ hb))
  · rw [hr.table_eq, hr.listed_eq .added (by decide)]
    exact h.additions.congr fun s => (hhas s rfl).mp

/-- A check is right if it finds a fact to be kept only if `Keep` holds of it, and not to be kept
only if `Drop` does. `J` is what the checks need from one to the next. -/
structure Judges (c : Context) (task : DeletionTask)
    (check : RowIndex → Triple → Routine Bool) (J : Run → Prop) (Keep : Triple → Prop)
    (Drop : Run → Triple → Prop) : Prop where
  check_wp (r : Run) (row : Nat) (t : Triple) (h : Deleting c task r) (hJ : J r)
    (hf : r.table.fact? row = some t) (hb : r.Before t) (hat : c.rules.At task.level t) :
    WP (check row t) r fun kept r' => Checks r r' ∧ J r' ∧
      (if kept then Keep t else Drop r' t) ∧ ∀ u, Drop r u → Drop r' u
  keeps (r r' : Run) (h : Touches r r') (hp : r'.Plain) (hJ : J r) :
    J r' ∧ ∀ u, Drop r u → Drop r' u

/-- `r'` is `r` with some facts of the level judged. -/
structure Judged (c : Context) (task : DeletionTask) (Drop : Run → Triple → Prop) (r r' : Run) :
    Prop where
  eq : ∃ reflexivity journal polls examinations checked checks flags levelFlags deleted added proved,
    r' = { r with
      reflexivity, journal, polls, examinations, checked, checks
      update := { r.update with flags, levelFlags, deleted, added, proved } }
  flags (row : Nat) (b : Flags) (h : b = addedNew ∨ b = added ∨ b = addedMerged) :
    (r'.flags row).any b = (r.flags row).any b
  has (t : Triple) (h : r.Has deletedNew t) : r'.Has deletedNew t
  kept (t : Triple) (h : r.Has deleted t) : r'.Has deleted t
  listed : r.listed .deleted <+: r'.listed .deleted
  listed_added : r'.listed .added = r.listed .added
  dropped (t : Triple) (h : r'.Has deleted t) :
    r.Has deleted t ∨ c.rules.At task.level t ∧ Drop r' t
  drop (t : Triple) (h : Drop r t) : Drop r' t

namespace Judged

variable {Drop : Run → Triple → Prop}

/-- Only what was queued and judged in passing has changed. -/
theorem of_touches (h : Touches r r') (hnew : ∀ t, r.Has deletedNew t → r'.Has deletedNew t)
    (hkept : ∀ t, r.Has deleted t → r'.Has deleted t)
    (hdropped : ∀ t, r'.Has deleted t → r.Has deleted t ∨ c.rules.At task.level t ∧ Drop r' t)
    (hlisted : r.listed .deleted <+: r'.listed .deleted) (hdrop : ∀ t, Drop r t → Drop r' t) :
    Judged c task Drop r r' := by
  refine ⟨?_, fun row b hb => ?_, hnew, hkept, hlisted, h.listed_added, hdropped, hdrop⟩
  · obtain ⟨_, _, _, _, _, h⟩ := h.eq
    exact ⟨_, _, _, _, _, _, _, _, _, _, _, h⟩
  · rcases hb with rfl | rfl | rfl <;> exact h.flags row _ rfl rfl

/-- A fact was checked. -/
theorem of_checks (h : Checks r r') (hdrop : ∀ t, Drop r t → Drop r' t) :
    Judged c task Drop r r' := by
  refine ⟨?_, fun row b hb => h.flags row b ?_, fun t => (h.has_iff rfl).mpr,
    fun t => (h.has_iff rfl).mpr, ?_, h.listed_eq .added (by decide),
    fun t ht => .inl ((h.has_iff rfl).mp ht), hdrop⟩
  · obtain ⟨_, _, _, _, _, _, _, _, h⟩ := h.eq
    exact ⟨_, _, _, _, _, _, _, _, _, _, _, h⟩
  · rcases hb with rfl | rfl | rfl <;> rfl
  · rw [h.listed_eq .deleted (by decide)]

theorem trans (h : Judged c task Drop r r') (h' : Judged c task Drop r' r'') :
    Judged c task Drop r r'' := by
  refine ⟨?_, fun row b hb => (h'.flags row b hb).trans (h.flags row b hb),
    fun t ht => h'.has t (h.has t ht), fun t ht => h'.kept t (h.kept t ht),
    h.listed.trans h'.listed, h'.listed_added.trans h.listed_added, fun t ht => ?_,
    fun t ht => h'.drop t (h.drop t ht)⟩
  · obtain ⟨_, _, _, _, _, _, _, _, _, _, _, rfl⟩ := h.eq
    obtain ⟨_, _, _, _, _, _, _, _, _, _, _, rfl⟩ := h'.eq
    exact ⟨_, _, _, _, _, _, _, _, _, _, _, rfl⟩
  · rcases h'.dropped t ht with ht | ht
    · rcases h.dropped t ht with ht | ⟨hat, ht⟩
      · exact .inl ht
      · exact .inr ⟨hat, h'.drop t ht⟩
    · exact .inr ht

theorem table_eq (h : Judged c task Drop r r') : r'.table = r.table := by
  obtain ⟨_, _, _, _, _, _, _, _, _, _, _, rfl⟩ := h.eq
  rfl

theorem has_iff (h : Judged c task Drop r r') {b : Flags}
    (hb : b = addedNew ∨ b = added ∨ b = addedMerged) : r'.Has b t ↔ r.Has b t :=
  Run.has_congr h.table_eq fun row => h.flags row b hb

theorem sameQueues (h : Judged c task Drop r r') : r.SameQueues r' := by
  obtain ⟨_, _, _, _, _, _, _, _, _, _, _, rfl⟩ := h.eq
  exact ⟨rfl, rfl, rfl, rfl⟩

theorem journal (r : Run) (journal : Array Entry)
    (hdrop : ∀ t, Drop r t → Drop { r with journal } t) :
    Judged c task Drop r { r with journal } :=
  of_touches (.journal r journal) (fun _ => id) (fun _ => id) (fun _ => .inl) (List.prefix_refl _) hdrop

end Judged

variable {check : RowIndex → Triple → Routine Bool} {J : Run → Prop} {Keep : Triple → Prop}
  {Drop : Run → Triple → Prop}

theorem Judges.moved (hcheck : Judges c task check J Keep Drop) (hp : r.Plain) (hJ : J r)
    (cursor polls : Nat) :
    J (r.moved .deleted cursor polls) ∧ Judged c task Drop r (r.moved .deleted cursor polls) := by
  have ht := Touches.moved r (w := .deleted) (by decide) cursor polls
  have hk := hcheck.keeps r _ ht { hp with } hJ
  exact ⟨hk.1, .of_touches ht (fun _ => id) (fun _ => id) (fun _ => .inl) (List.prefix_refl _) hk.2⟩

theorem Judges.queues (hcheck : Judges c task check J Keep Drop) (hp : r'.Plain) (hJ : J r)
    (hq : Queues r r') : J r' ∧ Judged c task Drop r r' := by
  have hk := hcheck.keeps r r' hq.toTouches hp hJ
  exact ⟨hk.1, .of_touches hq.toTouches hq.has (fun _ => hq.alike.deleted_iff.mpr)
    (fun _ ht => .inl (hq.alike.deleted_iff.mp ht)) hq.listed hk.2⟩

section level

variable (hc : c.Basic rules) (hl : task.level.isSome = c.mode.usesLevels)

include hc hl

omit hc hl in
/-- While a fact is propagated, only facts from before the update are read. -/
theorem confines_propagation (hp : r.Plain) (row : RowIndex) :
    RuleIndex.Confines ((c.view (propagationFilter row)).snapshot r) r.Before r.Before := by
  refine ⟨fun hu => ?_, fun hu => (Run.holds_kept_iff.mp (View.present_iff.mp hu)).1,
    fun o u hu => ?_, fun o u hu => ?_⟩
  · obtain ⟨other, ho, hk⟩ := View.present_iff.mp hu
    exact ((Run.kept_iff ho).mp (Bool.and_eq_true _ _ ▸ hk).2).1
  · exact View.present_iff.mpr (hp.holds_withAdded_iff.mpr (.inl hu))
  · exact View.present_iff.mpr (hp.holds_withAdded_iff.mpr (.inl hu))

omit hl in
/-- An instance that holds in what is kept and has a fact as a premise is found from this fact. -/
theorem emits_of_premise {level : Option Nat} {a : c.rules.Instance level} {k row : Nat} {head : Triple}
    (hp : r.Plain) (hf : r.table.fact? row = some t) (hholds : a.Holds r.Kept r.WithAdded)
    (hk : a.Premise k t) (hhead : a.Concludes head) :
    c.rules.Emits ((c.view (propagationFilter row)).snapshot r) (.ofLevel level) .positive t head := by
  refine a.emits_of_premise (P := fun _ => True) (hc.steady_eq r) hk trivial (fun i w hw hne => ?_)
    (fun i w hw => ?_) (fun i w hw hpres => ?_) hhead
  · have hkept := hholds.premises i w hw
    obtain ⟨other, ho⟩ := hkept.1.mem
    exact View.present_iff.mpr ⟨other, ho, Bool.and_eq_true_iff.mpr
      ⟨bne_iff_ne.mpr (Table.row_ne hf ho fun he => hne ⟨trivial, he⟩), (Run.kept_iff ho).mpr hkept⟩⟩
  · exact View.present_iff.mpr (Run.holds_kept_iff.mpr (hholds.premises i w hw))
  · exact hholds.blockers i w hw (hp.holds_withAdded_iff.mp (View.present_iff.mp hpres))

/-- What was derived from a fact of the level gets queued, before the fact is deleted. -/
theorem propagate_wp {row : Nat} (h : Deleting c task r) (hf : r.table.fact? row = some t)
    (ht : r.Before t) (hat : c.rules.At task.level t) (hcov : Covers c task.level r) :
    WP (task.propagate c row t) r fun _ r' => Deleting c task r' ∧ Queues r r' ∧ r.SameCursors r' ∧
      ∀ a : c.rules.Instance task.level, a.Holds r.Before r.Before →
        ¬ a.Holds (fun u => r.Kept u ∧ u ≠ t) r.WithAdded → ∀ head, a.Concludes head →
          r'.Has deletedNew head := by
  -- an instance that still holds has the fact as a premise
  have hpremise : ∀ a : c.rules.Instance task.level, a.Holds r.Kept r.WithAdded →
      ¬ a.Holds (fun u => r.Kept u ∧ u ≠ t) r.WithAdded → ∃ k, a.Premise k t := by
    intro a ha hno
    by_contra hnone
    refine hno ⟨fun k u hk => ⟨ha.premises k u hk, ?_⟩, ha.blockers⟩
    rintro rfl
    exact hnone ⟨k, hk⟩
  rw [propagate, propagateEquality, WP.bind_iff, WP.bind_iff]
  refine Routine.reads_wp ?_
  rw [hc.steady_eq]
  refine WP.pure_iff.mpr ?_
  cases hrec : c.rules.hasRecursive task.scope with
  | false =>
    refine WP.pure_iff.mpr ⟨h, .refl r, fun _ => rfl, fun a ha hno head hhead => ?_⟩
    refine hcov a ha (fun hholds => ?_) head hhead
    obtain ⟨k, hk⟩ := hpremise a hholds hno
    have := a.hasRecursive_of_at hc.builds hl hk hat
    rw [DeletionTask.scope] at hrec
    rw [hrec] at this
    cases this
  | true =>
    refine (apply_wp hc hl h (f := propagationFilter row) (fun r' hq role o other status => ?_)
      (confines_propagation h.plain row) (p := .positive) ht row).mono ?_
    · cases role <;> simp only [propagationFilter, hq.kept_eq, hq.withAdded_eq]
    · rintro _ r' ⟨h', hq, hcur, hd⟩
      refine ⟨h', hq, hcur, fun a ha hno head hhead => ?_⟩
      by_cases hholds : a.Holds r.Kept r.WithAdded
      · obtain ⟨k, hk⟩ := hpremise a hholds hno
        exact hd head (emits_of_premise hc h.plain hf hholds hk hhead)
      · exact hq.has head (hcov a ha hholds head hhead)

/-- A queued fact that is not to be kept is deleted, after everything that it may have led to is
queued. -/
theorem drop_wp (hcheck : Judges c task check J Keep Drop) {row : Nat} (h : Deleting c task r)
    (hJ : J r) (hcov : Covers c task.level r) (hf : r.table.fact? row = some t)
    (hnew : r.Has deletedNew t) (hat : c.rules.At task.level t) (hdrop : Drop r t) :
    WP (do
      c.announce (.deletionPropagationStarted t)
      task.propagate c row t
      discard <| Routine.addFlags row deleted
      c.announce .deletionPropagationFinished
      c.announce (.deletionJudged t true)) r fun _ r' => Deleting c task r' ∧ J r' ∧
        Covers c task.level r' ∧ Judged c task Drop r r' ∧
        r'.update.deleted.cursor = r.update.deleted.cursor ∧ r'.Has deleted t := by
  rw [WP.bind_iff]
  refine Context.announce_wp hc.stop fun journal => ?_
  rw [WP.bind_iff]
  refine (propagate_wp hc hl (h.journal journal) hf (h.before t hnew) hat
    (show Covers c task.level { r with journal } from hcov)).mono ?_
  rintro _ r₁ ⟨h₁, hq, hcur, hcov₁⟩
  have hf₁ : r₁.table.fact? row = some t := by rw [hq.table_eq]; exact hf
  rw [WP.bind_iff, WP.discard_iff]
  refine Routine.addFlags_wp Bits.isBit_deleted (h₁.plain.row_lt hf₁) fun m ha => ?_
  rw [WP.bind_iff]
  refine Context.announce_wp hc.stop fun journal₁ => ?_
  refine Context.announce_wp hc.stop fun journal₂ => ?_
  let r₂ : Run := { r₁ with journal := journal₂, update := { r₁.update with flags := m } }
  have htouch : Touches r r₂ := (((Touches.journal r journal).trans hq.toTouches).setDeleted
    ha).trans (.journal _ journal₂)
  have h₂ : Deleting c task r₂ := (h₁.setDeleted hf₁ (hq.has t hnew) hat ha).journal journal₂
  have hhas : ∀ {b s}, r₂.Has b s ↔ r₁.Has b s ∨ (deleted.any b = true ∧ s = t) :=
    Run.has_withFlags hf₁ ha
  have hcov₂ : Covers c task.level { r₁ with update := { r₁.update with flags := m } } :=
    .of_setDeleted hq hf₁ ha hcov₁
  obtain ⟨hJ₂, hdrop₂⟩ := hcheck.keeps r r₂ htouch h₂.plain hJ
  refine ⟨h₂, hJ₂, hcov₂, .of_touches htouch (fun s hs => hhas.mpr (.inl (hq.has s hs)))
    (fun s hs => hhas.mpr (.inl (hq.alike.deleted_iff.mpr hs))) (fun s hs => ?_) hq.listed hdrop₂,
    hcur .deleted, hhas.mpr (.inr ⟨rfl, rfl⟩)⟩
  rcases hhas.mp hs with hs | ⟨-, rfl⟩
  · exact .inl (hq.alike.deleted_iff.mp hs)
  · exact .inr ⟨hat, hdrop₂ s hdrop⟩

/-- A queued fact of the level is deleted, unless it is found to be kept. -/
theorem judge_wp (hcheck : Judges c task check J Keep Drop) {row : Nat} (h : Deleting c task r)
    (hJ : J r) (hcov : Covers c task.level r) (hf : r.table.fact? row = some t)
    (hnew : r.Has deletedNew t) (hat : c.rules.At task.level t) :
    WP (task.judge c check row) r fun _ r' => Deleting c task r' ∧ J r' ∧
      Covers c task.level r' ∧ Judged c task Drop r r' ∧
      r'.update.deleted.cursor = r.update.deleted.cursor ∧ (Keep t ∨ r'.Has deleted t) := by
  rw [judge, WP.bind_iff]
  refine Routine.factOf_wp hf ?_
  rw [WP.bind_iff]
  refine Context.announce_wp hc.stop fun journal => ?_
  have hj₀ := hcheck.keeps r { r with journal } (.journal r journal) (h.journal journal).plain hJ
  rw [WP.bind_iff]
  refine (hcheck.check_wp { r with journal } row t (h.journal journal) hj₀.1 hf (h.before t hnew)
    hat).mono ?_
  rintro kept r₁ ⟨hr₁, hJ₁, hkept, hdrop₁⟩
  have h₁ : Deleting c task r₁ := (h.journal journal).check hr₁
  have hcov₁ : Covers c task.level r₁ :=
    Covers.alike (r := { r with journal }) hcov hr₁.alike fun _ => (hr₁.has_iff rfl).mpr
  have hjudged₁ : Judged c task Drop r r₁ := (Judged.journal r journal hj₀.2).trans (.of_checks hr₁ hdrop₁)
  cases kept with
  | true =>
    simp only [Bool.not_true, Bool.false_eq_true, if_false]
    refine Context.announce_wp hc.stop fun journal₁ => ?_
    have hk := hcheck.keeps r₁ { r₁ with journal := journal₁ } (.journal r₁ journal₁)
      (h₁.journal journal₁).plain hJ₁
    exact ⟨h₁.journal _, hk.1, hcov₁, hjudged₁.trans (.journal r₁ journal₁ hk.2), hr₁.cursor_eq,
      .inl hkept⟩
  | false =>
    simp only [Bool.not_false, if_true]
    have hf₁ : r₁.table.fact? row = some t := by rwa [hr₁.table_eq]
    refine (drop_wp hc hl hcheck h₁ hJ₁ hcov₁ hf₁ ((hr₁.has_iff rfl).mpr hnew) hat hkept).mono ?_
    rintro _ r₂ ⟨h₂, hJ₂, hcov₂, hjudged₂, hcur₂, hdel⟩
    exact ⟨h₂, hJ₂, hcov₂, hjudged₁.trans hjudged₂, hcur₂.trans hr₁.cursor_eq, .inr hdel⟩

/-- Every queued fact of the level is judged. -/
theorem judgeAll_wp (hcheck : Judges c task check J Keep Drop)
    (h : Deleting c task r) (hJ : J r) (hcov : Covers c task.level r)
    (hbudget : r.table.size < task.budget) (hstart : r.update.deleted.cursor = task.lowerEnd) :
    WP (task.judgeAll c check) r fun _ r' => Deleting c task r' ∧ J r' ∧
      Covers c task.level r' ∧ Judged c task Drop r r' ∧
      ∀ t, c.rules.At task.level t → r'.Has deletedNew t → Keep t ∨ r'.Has deleted t := by
  rw [judgeAll, WP.bind_iff]
  refine Context.announce_wp hc.stop fun journal => ?_
  have hj₀ := hcheck.queues (h.journal journal).plain hJ (.journal r journal)
  rw [WP.bind_iff]
  refine (Routine.workOff_wp (w := .deleted) (fun _ => True) (N := r.table.size)
    task.lowerEnd (Routine.takes_dequeue.whileRunning hc.stop)
    (fun _ r' => Deleting c task r' ∧ J r' ∧ Covers c task.level r' ∧
      Judged c task Drop r r')
    (fun row r' => ∀ t, r.table.fact? row = some t → Keep t ∨ r'.Has deleted t)
    (fun _ r' hr' => hr'.1.plain.running) (fun _ r' hr' => ?_) (fun _ r' cursor polls hr' => ?_)
    (fun _ r' place row hr' hplace _ hrow => ?_) (fun _ _ _ _ => trivial) task.budget hbudget
    ⟨h.journal journal, hj₀.1, hcov, hj₀.2⟩ hstart).mono ?_
  · refine ⟨?_, fun row hrow => hr'.1.sorted.lists.pos hrow⟩
    rw [← hr'.2.2.2.table_eq]
    exact hr'.1.sorted.lists.length_le
  · obtain ⟨h', hJ', hcov', hj'⟩ := hr'
    obtain ⟨hJ'', hj''⟩ := hcheck.moved h'.plain hJ' cursor polls
    exact ⟨⟨{ h' with plain := { h'.plain with } }, hJ'', hcov', hj'.trans hj''⟩,
      fun row hrow => hrow⟩
  · obtain ⟨h', hJ', hcov', hj'⟩ := hr'
    obtain ⟨t, hf, hnew, -⟩ := (h'.sorted.lists.mem_iff row).mp (List.mem_of_getElem? hrow)
    have hat := h'.sorted.split place row t hrow hf
    rw [if_neg (by omega)] at hat
    refine (judge_wp hc hl hcheck h' hJ' hcov' hf hnew hat).mono ?_
    rintro _ r'' ⟨h'', hJ'', hcov'', hj'', hcur, hrow'⟩
    refine ⟨⟨h'', hJ'', hcov'', hj'.trans hj''⟩, hcur, hj''.listed, fun s hs => ?_,
      fun other _ ho s hs => (ho s hs).imp_right (hj''.kept s)⟩
    rw [hj'.table_eq, hs] at hf
    cases hf
    exact hrow'
  · rintro _ r' ⟨⟨h', hJ', hcov', hj'⟩, hjudged, -, -, -⟩
    refine Context.announce_wp hc.stop fun journal' => ?_
    have hk := hcheck.queues (h'.journal journal').plain hJ' (.journal r' journal')
    refine ⟨h'.journal _, hk.1, hcov', hj'.trans hk.2, fun t hat hnew => ?_⟩
    have hnew : r'.Has deletedNew t := hnew
    obtain ⟨row, hf⟩ := hnew.mem
    obtain ⟨place, hle, hplace⟩ := h'.sorted.exists_at hnew hat hf
    exact hjudged place row hle trivial hplace t (by rwa [← hj'.table_eq])

/-- The facts of a level are judged: whatever lost a premise is queued, and what is queued of the level
is deleted unless it is found to be kept. -/
structure Swept (c : Context) (task : DeletionTask) (Keep : Triple → Prop)
    (Drop : Run → Triple → Prop) (r r' : Run) : Prop where
  deleting : Deleting c task r'
  covers : Covers c task.level r'
  judged : Judged c task Drop r r'
  complete (t : Triple) (hat : c.rules.At task.level t) (h : r'.Has deletedNew t) :
    Keep t ∨ r'.Has deleted t

omit hc hl in
theorem Swept.after {r₀ : Run} (h : Swept c task Keep Drop r r')
    (hj : Judged c task Drop r₀ r) : Swept c task Keep Drop r₀ r' :=
  ⟨h.deleting, h.covers, hj.trans h.judged, h.complete⟩

omit hc hl in
theorem Swept.journal (h : Swept c task Keep Drop r r') {journal : Array Entry}
    (hdrop : ∀ t, Drop r' t → Drop { r' with journal } t) :
    Swept c task Keep Drop r { r' with journal } := by
  exact ⟨h.deleting.journal journal, h.covers, h.judged.trans (.journal r' journal hdrop),
    h.complete⟩

omit hc hl in
theorem Swept.not_added (h : Swept c task Keep Drop r r') (hat : c.rules.At task.level t) :
    ¬ r'.Has added t := fun ha => hat.not_below (h.deleting.added t ha)

/-- What is neither deleted nor was found to be kept has a reason in what is left, so it is in every set
with the other facts that the instances do not lead out of. -/
theorem Swept.survives (h : Swept c task Keep Drop r r') {base M K : Set Triple}
    (hM : c.rules.Models rules c.mode.usesLevels base M) (hbefore : ∀ t, r'.Before t ↔ t ∈ M)
    (hK : ∀ a : c.rules.Instance task.level, a.Holds (· ∈ K) r'.WithAdded → ∀ t, a.Concludes t → t ∈ K)
    (hkeep : ∀ t, Keep t → t ∈ K) (hbelow : ∀ t, r'.Kept t → c.rules.Below task.level t → t ∈ K)
    (hbase : ∀ t ∈ base, c.rules.At task.level t → r'.Has deletedNew t ∨ t ∈ K)
    (ht : r'.Kept t) (hup : c.rules.Upto task.level t) : t ∈ K := by
  -- a fact of the level that is queued and not gone was found to be kept
  have hqueued : ∀ t, c.rules.At task.level t → ¬ r'.Gone t → r'.Has deletedNew t → t ∈ K :=
    fun t hat hg hnew => (h.complete t hat hnew).elim (hkeep t) fun hd =>
      absurd ⟨hd, h.not_added hat⟩ hg
  refine hM.induct hl (P := fun t => ¬ r'.Gone t → t ∈ K)
    (fun t ht hb hg => hbelow t ⟨(hbefore t).mpr ht, hg⟩ hb) (fun t ht hat hg => ?_)
    (fun a ha t ht hg => ?_) t ((hbefore t).mp ht.1) hup ht.2
  · exact (hbase t ht hat).elim (hqueued t hat hg) id
  · have ha := (a.fires_iff hc.simple).mp ha
    have hat := a.at_of_concludes hc.builds hl ht
    by_cases hholds : a.Holds r'.Kept r'.WithAdded
    · exact hK a (hholds.mono (fun k u hk hu => (ha.premises k u hk).2 hu.2) fun _ _ _ => id) t ht
    · exact hqueued t hat hg (h.covers a (ha.mono (fun _ u _ hu => (hbefore u).mpr hu.1)
        fun _ u _ => (hbefore u).mp) hholds t ht)

/-- What holds when the first row of a level is to be taken. -/
structure Started (c : Context) (task : DeletionTask) (r : Run) : Prop where
  deleting : Deleting c task r
  budget : r.table.size < task.budget
  replays : task.replays = c.readsLower task.level
  cursor : r.update.deleted.cursor = if task.replays then 0 else task.lowerEnd
  additions (h : c.rules.hasNegation task.scope = true) : r.update.added.cursor = 0
  lower (t : Triple) (h : r.Has deleted t) : c.rules.Below task.level t

theorem run_wp (hcheck : Judges c task check J Keep Drop) (h : Started c task r)
    (hJ : J r) : WP (task.run c check) r fun _ r' => J r' ∧ Swept c task Keep Drop r r' := by
  have hcursor := h.cursor
  have hreplays := h.replays
  rw [run]
  cases hr : task.replays with
  | false =>
    rw [hr] at hcursor hreplays
    simp only [Bool.false_eq_true, if_false] at hcursor ⊢
    refine Routine.orStop_wp ((judgeAll_wp hc hl hcheck h.deleting hJ ?_ h.budget hcursor).mono
      fun _ r' ⟨h', hJ', hcov, hj, hdone⟩ => ⟨hJ', h', hcov, hj, hdone⟩)
    -- without a replay no rule reads what has changed
    intro a ha hno
    have hbelow := fun u => Context.not_below_of_readsLower hreplays.symm a (u := u)
    refine absurd ⟨fun k u hk => ⟨ha.premises k u hk, fun hg => hbelow u (h.lower u hg.1)⟩,
      fun k u hk hu => ?_⟩ hno
    exact hbelow u (h.deleting.added u (hu.resolve_left (ha.blockers k u hk)))
  | true =>
    rw [hr] at hcursor
    simp only [if_true] at hcursor ⊢
    rw [WP.bind_iff]
    refine Routine.orStop_wp ((replay_wp hc hl h.deleting h.budget hcursor h.additions fun t ht =>
      h.lower t ht.1).mono fun _ r₁ ⟨h₁, hq₁, hcur₁, hcov₁⟩ => ?_)
    obtain ⟨hJ₁, hj₁⟩ := hcheck.queues h₁.plain hJ hq₁
    refine Routine.orStop_wp ((judgeAll_wp hc hl hcheck h₁ hJ₁ hcov₁ ?_ hcur₁).mono
      fun _ r₂ ⟨h₂, hJ₂, hcov₂, hj₂, hdone⟩ => ⟨hJ₂, h₂, hcov₂, hj₁.trans hj₂, hdone⟩)
    rw [hq₁.table_eq]
    exact h.budget

end level

/-- What holds before the facts of a level are deleted. -/
structure Ready (c : Context) (level : Option Nat) (lowerEnd : Nat) (r : Run) : Prop where
  plain : r.Plain
  closed (a : c.rules.Instance level) (h : a.Holds r.Before r.Before) (t : Triple)
    (ht : a.Concludes t) : r.Before t
  awaits : r.Awaits c.rules .deleted r.update.initiallyDeleted (r.Has deletedNew) level lowerEnd
  lowerEnd_eq : lowerEnd = if level.isSome then (r.listed .deleted).length else 0
  before (t : Triple) (h : r.Has deletedNew t) : r.Before t
  queued (t : Triple) (h : r.Has deleted t) : r.Has deletedNew t ∧ c.rules.Below level t
  fresh (t : Triple) (h : r.Has added t) (hb : r.Before t) : r.Has deleted t
  additions : Includes r.table (r.Has added) (r.listed .added)
  added (t : Triple) (h : r.Has added t) : c.rules.Below level t

theorem Ready.journal {level : Option Nat} {lowerEnd : Nat} (h : Ready c level lowerEnd r)
    (journal : Array Entry) : Ready c level lowerEnd { r with journal } :=
  { h with plain := { h.plain with }, awaits := { h.awaits with } }

/-- `r'` is `r` once a level was started: queues were taken over and set back. -/
structure Starts (r r' : Run) : Prop where
  eq : ∃ reflexivity deleted added,
    r' = { r with reflexivity, update := { r.update with deleted, added } }
  listed : r.listed .deleted <+: r'.listed .deleted
  listed_added : r'.listed .added = r.listed .added

theorem Starts.judged {Drop : Run → Triple → Prop} {journal : Array Entry}
    (h : Starts { r with journal } r') (hdrop : ∀ t, Drop r t → Drop r' t) :
    Judged c task Drop r r' := by
  have hlisted := h.listed
  have hadded := h.listed_added
  obtain ⟨_, _, _, rfl⟩ := h.eq
  exact ⟨⟨_, _, _, _, _, _, _, _, _, _, _, rfl⟩, fun _ _ _ => rfl, fun _ => id, fun _ => id, hlisted,
    hadded, fun _ => .inl, hdrop⟩

/-- A level is started once its queue is behind what lower levels queued and the queues are where it
begins. -/
theorem Ready.started {level : Option Nat} {lowerEnd budget : Nat} (h : Ready c level lowerEnd r)
    (q q' : Queue) (hq : q.values.toList = r.listed .deleted ++ pending r.update.initiallyDeleted level)
    (hcursor : q.cursor = if c.readsLower level then 0 else lowerEnd)
    (hq' : q'.values = r.update.added.values)
    (hcursor' : c.rules.hasNegation (.ofLevel level) = true → q'.cursor = 0)
    (hbudget : r.table.size < budget) (reflexivity : Reflexivity) :
    Started c { level, lowerEnd, replays := c.readsLower level, budget }
        { r with reflexivity, update := { r.update with deleted := q, added := q' } } ∧
      Starts r { r with reflexivity, update := { r.update with deleted := q, added := q' } } := by
  have hprefix : r.listed .deleted <+: q.values.toList := hq ▸ List.prefix_append _ _
  refine ⟨⟨⟨{ h.plain with }, h.closed, ?_, h.awaits.later, h.awaits.lowerEnd_le.trans hprefix.length_le,
    h.before, fun t ht => ⟨(h.queued t ht).1, .inl (h.queued t ht).2⟩, h.fresh, ?_, h.added⟩, hbudget,
    rfl, hcursor, hcursor', fun t ht => (h.queued t ht).2⟩, ⟨_, _, _, rfl⟩, hprefix,
    congrArg Array.toList hq'⟩
  · show Sorted r.table c.rules (r.Has deletedNew) level lowerEnd q.values.toList
    rw [hq]
    exact h.awaits.sorted
  · show Includes r.table (r.Has Flag.Update.added) q'.values.toList
    rw [hq']
    exact h.additions

/-- The work lists are put where the level begins, once the queue of the level is behind the rows
that lower levels queued. -/
theorem startQueued_wp {level : Option Nat} {lowerEnd : Nat} (h : Ready c level lowerEnd r)
    (width : Nat) {q : Queue}
    (hq : q.values.toList = r.listed .deleted ++ pending r.update.initiallyDeleted level) :
    WP (do
      let replays := c.readsLower level
      Routine.seek .deleted (if replays then 0 else lowerEnd)
      if c.rules.hasNegation (.ofLevel level) then Routine.seek .added 0
      modify fun r => { r with reflexivity := .new c.dictionary.size width }
      let budget ← Routine.reads c.budget
      pure ({ level, lowerEnd, replays, budget } : DeletionTask) : Routine DeletionTask)
      { r with update := { r.update with deleted := q } } fun task r' => task.level = level ∧
        task.lowerEnd = lowerEnd ∧ Started c task r' ∧ Starts r r' := by
  let cursor := if c.readsLower level then 0 else lowerEnd
  dsimp only
  rw [WP.bind_iff, Routine.seek, WP.modify_iff]
  cases hneg : c.rules.hasNegation (.ofLevel level) with
  | false =>
    simp only [Bool.false_eq_true, if_false]
    rw [WP.bind_iff, WP.modify_iff, WP.bind_iff]
    refine Routine.reads_wp (WP.pure_iff.mpr ⟨rfl, rfl, h.started (q.seek cursor) r.update.added hq rfl
      rfl (fun hh => ?_) ?_ _⟩)
    · rw [hneg] at hh
      cases hh
    · exact Context.size_lt_budget rfl
  | true =>
    simp only [if_true]
    rw [WP.bind_iff, Routine.seek, WP.modify_iff, WP.bind_iff, WP.modify_iff, WP.bind_iff]
    refine Routine.reads_wp (WP.pure_iff.mpr ⟨rfl, rfl, h.started (q.seek cursor)
      (r.update.added.seek 0) hq rfl rfl (fun _ => rfl) ?_ _⟩)
    exact Context.size_lt_budget rfl

/-- The queue of a level is taken over. -/
theorem start_wp {level : Option Nat} {lowerEnd : Nat} (h : Ready c level lowerEnd r)
    (width : Nat) :
    WP (start c level width) r fun task r' => task.level = level ∧ task.lowerEnd = lowerEnd ∧
      Started c task r' ∧ Starts r r' := by
  have hend := h.lowerEnd_eq
  unfold start
  cases level with
  | none =>
    simp only [Option.isSome_none, Bool.false_eq_true, if_false] at hend
    subst hend
    exact startQueued_wp h width (q := r.update.deleted) (by simp [pending, Run.listed, Update.queue])
  | some l =>
    simp only [Option.isSome_some, if_true] at hend
    obtain ⟨other, hother, hcursor⟩ := h.awaits.seeded l rfl
    have hpending : pending r.update.initiallyDeleted (some l) = other.values.toList := by
      rw [pending, hother]
      rfl
    have hsize : r.update.deleted.size = lowerEnd := by
      rw [hend]
      exact (Array.length_toList ..).symm
    dsimp only
    rw [WP.bind_iff]
    refine Routine.reads_wp ?_
    rw [WP.bind_iff]
    refine Routine.demand_wp hother ?_
    rw [WP.bind_iff]
    refine Routine.append_wp hcursor (fun row hrow => ?_) fun q hq => ?_
    · exact h.awaits.sorted.lists.pos (List.mem_append_right _ (hpending ▸ hrow))
    · rw [pure_bind, hsize]
      exact startQueued_wp h width (hpending ▸ hq)

end DeletionTask

end Entail
