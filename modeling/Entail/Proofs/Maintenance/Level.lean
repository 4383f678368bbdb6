import Entail.Maintenance
import Entail.Proofs.Maintenance.Changes
import Entail.Proofs.Maintenance.Insertion
import Entail.Proofs.Maintenance.Rederivation
import Entail.Proofs.Materialization

/-!
# The levels of an update

A `Revision` is about the base facts before and after an update and what the rules make of them.
Between two levels (`Reached`) the levels worked off are as they will be in the end: of their facts,
those are there that the rules make of the new base facts. Once the facts of the next level that have
lost their support are deleted (`Reduced`), only such facts are left of it, and the conclusions of the
instances that hold in them are there or queued; so the insertion completes the level (`insert_wp`).
-/

namespace Entail.Maintenance

open Flag.Update Changes

/-- What an update is about: the rules, the strategy, the base facts and the materialization before and
after, and a bound on what the rules can make of the facts of the store. -/
structure Revision (c : Context) where
  rules : List Rule
  strategy : Strategy
  old : Set Triple
  new : Set Triple
  before : Set Triple
  after : Set Triple
  all : Set Triple
  bound : Nat
  basic : c.Basic rules
  covers : Universe rules all bound
  room : bound < Marks.room
  models_before : c.rules.Models rules c.mode.usesLevels old before
  models_after : c.rules.Models rules c.mode.usesLevels new after

variable {c : Context} {v : Revision c} {k : Nat} {r r' : Run} {t : Triple}

/-- What holds throughout an update. -/
structure Revising (v : Revision c) (r : Run) : Prop where
  plain : r.Plain
  facts (row : Nat) (t : Triple) (h : r.table.fact? row = some t) : t ∈ v.all
  asserted_iff (t : Triple) : r.Asserted t ↔ t ∈ v.new
  before_iff (t : Triple) : r.Before t ↔ t ∈ v.before
  levels (s : Side) : (s.byLevel r.update).size = c.levelCount
  size (s : Side) : (s.ends r.update).size = c.levelCount
  retracted (t : Triple) (h : t ∈ v.old) (h' : t ∉ v.new) : r.Has deletedNew t
  inserted (t : Triple) (h : t ∈ v.new) (h' : t ∉ v.old) : r.Has addedNew t
  deletions (t : Triple) (h : r.Has deletedNew t) : r.Before t
  additions (t : Triple) (h : r.Has addedNew t) : t ∈ v.after
  fresh (t : Triple) (h : r.Has added t) (hb : r.Before t) : r.Has deleted t
  disproved_iff (h : v.strategy = .fbf) (t : Triple) : r.Has disproved t ↔ r.Has deleted t

/-- The instances do not lead out of the materialization before the update. -/
theorem Revising.closed (h : Revising v r) {level : Option Nat} (hl : level.isSome = c.mode.usesLevels)
    (a : c.rules.Instance level) (ha : a.Holds r.Before r.Before) (ht : a.Concludes t) :
    r.Before t :=
  (h.before_iff t).mpr (v.models_before.closes_of_holds v.basic.simple hl a
    (ha.mono (fun _ u _ => (h.before_iff u).mp) fun _ u _ => (h.before_iff u).mpr) ht)

/-- What holds once the first `k` levels are worked off. -/
structure Reached (v : Revision c) (k : Nat) (r : Run) : Prop extends Revising v r where
  ends (s : Side) (h : 0 < k) : (s.ends r.update)[k - 1]? = some (r.listed s.work).length
  lists (s : Side) : Lists r.table
    (fun t => r.Has s.flag t ∧ (c.mode.usesLevels = true → c.Done k t)) (r.listed s.work)
  seeds (s : Side) (l : Nat) (q : Queue) (hu : c.mode.usesLevels = true) (hl : k ≤ l)
    (hq : (s.byLevel r.update)[l]? = some q) : q.cursor = 0 ∧
      Lists r.table (fun t => r.Has s.flag t ∧ c.rules.componentLevel t = l) q.values.toList
  deleted (t : Triple) (h : r.Has deleted t) : r.Has deletedNew t ∧ c.Done k t
  added (t : Triple) (h : r.Has added t) : r.Has addedNew t ∧ c.Done k t
  settled (t : Triple) (h : c.Done k t) : r.After t ↔ t ∈ v.after
  known (t : Triple) (h : r.Has addedNew t) (hd : c.Done k t) : r.After t

/-- What holds once the facts of level `k` that have lost their support are deleted. -/
structure Reduced (v : Revision c) (k : Nat) (r : Run) : Prop extends Revising v r where
  deletedLists : Lists r.table (fun t => r.Has deletedNew t ∧ c.rules.Upto (c.levelAt k) t)
    (r.listed .deleted)
  deletedLater : Later r.table c.rules r.update.initiallyDeleted (r.Has deletedNew) (c.levelAt k)
  addedEnd : ∃ lowerEnd, Update.endBefore r.update.addedEnds (c.levelAt k) = .ok lowerEnd ∧
    r.Awaits c.rules .added r.update.initiallyAdded (r.Has addedNew) (c.levelAt k) lowerEnd
  deleted (t : Triple) (h : r.Has deleted t) : r.Has deletedNew t ∧ c.rules.Upto (c.levelAt k) t
  added (t : Triple) (h : r.Has added t) : r.Has addedNew t ∧ c.rules.Below (c.levelAt k) t
  settled (t : Triple) (h : c.rules.Below (c.levelAt k) t) : r.After t ↔ t ∈ v.after
  known (t : Triple) (h : r.Has addedNew t) (hb : c.rules.Below (c.levelAt k) t) : r.After t
  surviving (t : Triple) (h : r.Kept t) (hup : c.rules.Upto (c.levelAt k) t) : t ∈ v.after
  supported : InsertionTask.Supported c (c.levelAt k) r
  based (t : Triple) (h : t ∈ v.new) (hat : c.rules.At (c.levelAt k) t) :
    r.After t ∨ r.Has addedNew t

/-! ## The start of a level -/

/-- The end of what lower levels queued. -/
def lowerEnd (c : Context) (s : Side) (r : Run) : Nat :=
  if c.mode.usesLevels then (r.listed s.work).length else 0

namespace Reached

/-- The queues hold what a level has to work off. -/
theorem awaits (h : Reached v k r) (hk : k < c.levelCount) (s : Side) :
    r.Awaits c.rules s.work (s.byLevel r.update) (r.Has s.flag) (c.levelAt k) (lowerEnd c s r) := by
  have hlists := h.lists s
  have hbelow : ∀ t, c.rules.Below (c.levelAt k) t ↔ c.Done k t := fun t =>
    Context.below_levelAt_iff hk
  cases hu : c.mode.usesLevels with
  | false =>
    have hlevel : c.levelAt k = none := by rw [Context.levelAt, hu]; rfl
    have hend : lowerEnd c s r = 0 := by rw [lowerEnd, hu]; rfl
    rw [hlevel, hend]
    refine ⟨⟨?_, fun place row t _ _ => by simp⟩, ?_, Nat.zero_le _, ?_⟩
    · rw [pending, List.append_nil]
      exact hlists.congr fun t => by simp [RuleIndex.Upto, hu]
    · rintro l l' q ⟨⟩
    · rintro l ⟨⟩
  | true =>
    have hlevel : c.levelAt k = some k := by rw [Context.levelAt, hu]; rfl
    have hend : lowerEnd c s r = (r.listed s.work).length := by rw [lowerEnd, hu]; rfl
    have hsize : k < (s.byLevel r.update).size := by rwa [h.levels s]
    have hq : (s.byLevel r.update)[k]? = some (s.byLevel r.update)[k] :=
      Array.getElem?_eq_getElem hsize
    obtain ⟨hcursor, hown⟩ := h.seeds s k _ hu le_rfl hq
    have hpending : pending (s.byLevel r.update) (some k) =
        (s.byLevel r.update)[k].values.toList := by
      rw [pending, hq]
      rfl
    rw [hlevel] at hbelow ⊢
    rw [hend]
    refine ⟨?_, ?_, le_rfl, ?_⟩
    · rw [hpending]
      refine .append (hlists.congr fun t => and_congr_right fun _ => ?_)
        (hown.congr fun t => and_congr_right fun _ => ?_)
      · rw [hbelow]
        exact ⟨fun hd _ => hd, fun hd => hd hu⟩
      · simp only [RuleIndex.At, Option.some.injEq, forall_eq']
    · rintro l l' q ⟨⟩ hlt hq'
      exact h.seeds s l' q hu hlt.le hq'
    · rintro l ⟨⟩
      exact ⟨_, hq, hcursor⟩

theorem endBefore (h : Reached v k r) (hk : k < c.levelCount) (s : Side) :
    Update.endBefore (s.ends r.update) (c.levelAt k) = .ok (lowerEnd c s r) := by
  rw [Context.levelAt, lowerEnd]
  cases hu : c.mode.usesLevels with
  | false => rfl
  | true =>
    cases k with
    | zero =>
      have := (h.lists s).eq_nil fun t ht => Context.not_done_zero (ht.2 hu)
      simp [this, Update.endBefore]
    | succ k =>
      have := h.ends s (Nat.succ_pos k)
      rw [Nat.add_sub_cancel] at this
      simp [Update.endBefore, this]

theorem deletionReady (h : Reached v k r) (hk : k < c.levelCount) :
    DeletionTask.Ready c (c.levelAt k) (lowerEnd c .deletion r) r where
  plain := h.plain
  closed a ha t ht := h.toRevising.closed Context.isSome_levelAt a ha ht
  awaits := h.awaits hk .deletion
  lowerEnd_eq := by
    rw [lowerEnd, Context.isSome_levelAt]
    rfl
  before := h.deletions
  queued t ht := ⟨(h.deleted t ht).1, (Context.below_levelAt_iff hk).mpr (h.deleted t ht).2⟩
  fresh := h.fresh
  additions := (h.lists .addition).includes fun t ht => ⟨(h.added t ht).1, fun _ => (h.added t ht).2⟩
  added t ht := (Context.below_levelAt_iff hk).mpr (h.added t ht).2

/-- A level is started. -/
theorem start (h : Reached v k r) : Reached v k { r with update := r.update.startLevel } := by
  have hlisted : ∀ s : Side, Run.listed { r with update := r.update.startLevel } s.work =
      r.listed s.work := fun s => by cases s <;> rfl
  have hby : ∀ s : Side, s.byLevel r.update.startLevel = s.byLevel r.update := fun s => by
    cases s <;> rfl
  have hends : ∀ s : Side, s.ends r.update.startLevel = s.ends r.update := fun s => by
    cases s <;> rfl
  exact { h with
    plain := h.plain.startLevel
    levels := fun s => (congrArg Array.size (hby s)).trans (h.levels s)
    size := fun s => (congrArg Array.size (hends s)).trans (h.size s)
    ends := fun s hk => by rw [hlisted, hends]; exact h.ends s hk
    lists := fun s => by rw [hlisted]; exact h.lists s
    seeds := fun s l q hu hl hq => h.seeds s l q hu hl (by rwa [← hby]) }

theorem journal (h : Reached v k r) (journal : Array Entry) : Reached v k { r with journal } :=
  { h with plain := { h.plain with } }

theorem polls (h : Reached v k r) (polls : Nat) : Reached v k { r with polls } :=
  { h with plain := { h.plain with } }

end Reached

/-! ## Deletions -/

section deletion

variable {task : DeletionTask} {Keep : Triple → Prop} {Drop : Run → Triple → Prop} {K : Set Triple}
  (h : Reached v k r) (hk : k < c.levelCount) (hs : DeletionTask.Swept c task Keep Drop r r')

include h hk hs

/-- Deleting leaves what a level has to add. -/
theorem sorted_added : Sorted r'.table c.rules (r'.Has addedNew) (c.levelAt k)
    (lowerEnd c .addition r) (r'.listed .added ++ pending r.update.initiallyAdded (c.levelAt k)) ∧
    lowerEnd c .addition r ≤ (r'.listed .added).length := by
  rw [hs.judged.listed_added, hs.judged.table_eq]
  exact ⟨(h.awaits hk .addition).sorted.congr fun t => hs.judged.has_iff (.inl rfl),
    (h.awaits hk .addition).lowerEnd_le⟩

/-- What the lower levels are to have counts as there when additions do. -/
theorem withAdded_of_below (ht : t ∈ v.after) (hb : c.rules.Below (c.levelAt k) t) :
    r'.WithAdded t := by
  have hafter := (h.settled t ((Context.below_levelAt_iff hk).mp hb)).mpr ht
  exact hafter.withAdded.imp (Run.before_congr hs.judged.table_eq).mpr
    (hs.judged.has_iff (.inr (.inl rfl))).mpr

/-- The instances do not lead out of the materialization after the update. -/
theorem after_closed (a : c.rules.Instance (c.levelAt k)) (ha : a.Holds (· ∈ v.after) r'.WithAdded)
    (ht : a.Concludes t) : t ∈ v.after :=
  v.models_after.closes_of_holds v.basic.simple Context.isSome_levelAt a
    (ha.mono (fun _ _ _ => id) fun _ _ hi hu =>
      withAdded_of_below h hk hs hu (v.basic.below_of_blocker Context.isSome_levelAt a hi)) ht

/-- What is neither deleted nor was found to be kept is in every set that the instances do not lead out
of and that has the facts of lower levels and the base facts that are left. -/
theorem survives (hlevel : task.level = c.levelAt k)
    (hK : ∀ a : c.rules.Instance (c.levelAt k), a.Holds (· ∈ K) r'.WithAdded →
      ∀ t, a.Concludes t → t ∈ K) (hkeep : ∀ t, Keep t → t ∈ K)
    (hbelow : ∀ t, r.Kept t → c.Done k t → t ∈ K)
    (hbase : ∀ t ∈ v.old, t ∈ v.new → c.rules.At (c.levelAt k) t → t ∈ K)
    (ht : r'.Kept t) (hup : c.rules.Upto (c.levelAt k) t) : t ∈ K := by
  have hbefore : ∀ t, r'.Before t ↔ r.Before t := fun t => Run.before_congr hs.judged.table_eq
  have hs' := hs.survives v.basic (hlevel ▸ Context.isSome_levelAt) (K := K) (t := t)
    v.models_before fun t => (hbefore t).trans (h.before_iff t)
  rw [hlevel] at hs'
  refine hs' hK hkeep (fun t ht hb => hbelow t ⟨(hbefore t).mp ht.1, fun hg' => ht.2 ?_⟩
    ((Context.below_levelAt_iff hk).mp hb)) (fun t ht hat => ?_) ht hup
  · exact ⟨hs.judged.kept t hg'.1, fun ha => hg'.2 ((hs.judged.has_iff (.inr (.inl rfl))).mp ha)⟩
  · by_cases hnew : t ∈ v.new
    · exact .inr (hbase t ht hnew hat)
    · exact .inl (hs.judged.has t (h.retracted t ht hnew))

section putsBack

variable {r'' : Run} (hp : Rederivation.PutsBack c (c.levelAt k) (lowerEnd c .addition r)
  (pending r.update.initiallyAdded (c.levelAt k)) r' r'')

include hp

omit hk in
/-- What deleting and putting back leaves of what holds throughout an update. -/
theorem revise (hnew : ∀ t, r''.Has addedNew t → t ∈ v.after)
    (hdis : v.strategy = .fbf → ∀ t, r''.Has disproved t ↔ r''.Has deleted t) : Revising v r'' where
  plain := hp.plain
  facts := by
    rw [hp.table_eq, hs.judged.table_eq]
    exact h.facts
  asserted_iff t := (Run.asserted_congr (hp.table_eq.trans hs.judged.table_eq)).trans (h.asserted_iff t)
  before_iff t := (Run.before_congr (hp.table_eq.trans hs.judged.table_eq)).trans (h.before_iff t)
  levels s := (congrArg Array.size
    (Side.byLevel_eq (hs.judged.sameQueues.trans hp.sameQueues) s)).trans (h.levels s)
  size s := (congrArg Array.size
    (Side.ends_eq (hs.judged.sameQueues.trans hp.sameQueues) s)).trans (h.size s)
  retracted t ht ht' := (hp.has_iff rfl).mpr (hs.judged.has t (h.retracted t ht ht'))
  inserted t ht ht' := hp.has t ((hs.judged.has_iff (.inl rfl)).mpr (h.inserted t ht ht'))
  deletions t ht := hp.alike.before_iff.mpr (hs.deleting.before t ((hp.has_iff rfl).mp ht))
  additions := hnew
  fresh t ht hb := (hp.has_iff rfl).mpr
    (hs.deleting.fresh t ((hp.has_iff rfl).mp ht) (hp.alike.before_iff.mp hb))
  disproved_iff := hdis

/-- What is queued for addition is to be there, if what was kept is. -/
theorem mem_after_of_queued
    (hsurvives : ∀ t, r'.Kept t → c.rules.Upto (c.levelAt k) t → t ∈ v.after)
    (ht : r''.Has addedNew t) : t ∈ v.after := by
  rcases hp.sound t ht with ht | ⟨-, ht | ⟨a, ht, ha⟩⟩
  · exact h.additions t ((hs.judged.has_iff (.inl rfl)).mp ht)
  · exact v.models_after.base_subset
      ((h.asserted_iff t).mp ((Run.asserted_congr hs.judged.table_eq).mp ht))
  · exact after_closed h hk hs a (ha.mono (fun i u hi hu => hsurvives u hu
      (a.upto_of_premise v.basic.builds Context.isSome_levelAt hi)) fun _ _ _ => id) ht

omit h hk in
/-- Below the level nothing has changed. -/
theorem after_iff_of_below (hlevel : task.level = c.levelAt k) (hb : c.rules.Below (c.levelAt k) t) :
    r''.After t ↔ r.After t := by
  refine hp.alike.after_iff.trans ?_
  rw [Run.After, Run.After, Run.before_congr hs.judged.table_eq, hs.judged.has_iff (.inr (.inl rfl))]
  refine or_congr_left (and_congr_right fun _ => not_congr ⟨fun hd => ?_, hs.judged.kept t⟩)
  exact (hs.judged.dropped t hd).resolve_right fun hat => (hlevel ▸ hat.1).not_below hb

omit h hk in
/-- Nor is anything queued there or above. -/
theorem queued_or_at (ht : r''.Has addedNew t) : r.Has addedNew t ∨ c.rules.At (c.levelAt k) t :=
  (hp.sound t ht).imp (hs.judged.has_iff (.inl rfl)).mp And.left

omit h hk hs in
/-- A fact of the level that was there and has support is there or queued. -/
theorem after_or_queued
    (hsup : ∀ t, c.rules.At (c.levelAt k) t → r'.Has deleted t →
      Rederivation.Supported c (c.levelAt k) r' t → r''.Has addedNew t)
    (hat : c.rules.At (c.levelAt k) t) (hb : r'.Before t)
    (ht : Rederivation.Supported c (c.levelAt k) r' t) : r''.After t ∨ r''.Has addedNew t := by
  by_cases hd : r'.Has deleted t
  · exact .inr (hsup t hat hd ht)
  · exact .inl (.inl ⟨hp.alike.before_iff.mpr hb, mt hp.alike.deleted_iff.mp hd⟩)

/-- The queue of additions has what the level is to add. -/
theorem awaits_added : r''.Awaits c.rules .added r''.update.initiallyAdded (r''.Has addedNew)
    (c.levelAt k) (lowerEnd c .addition r) := by
  have hawaits := h.awaits hk .addition
  rw [hp.sameQueues.initiallyAdded, hs.judged.sameQueues.initiallyAdded]
  refine ⟨hp.sorted, ?_, ?_, hawaits.seeded⟩
  · rw [hp.table_eq, hs.judged.table_eq]
    refine hawaits.later.congr fun t hup => ⟨fun ht => ?_, fun ht => ?_⟩
    · exact (queued_or_at hs hp ht).resolve_right fun hat => hup (.inr hat)
    · exact hp.has t ((hs.judged.has_iff (.inl rfl)).mpr ht)
  · have hle := hawaits.lowerEnd_le
    exact (hle.trans (congrArg List.length hs.judged.listed_added).ge).trans hp.listed.length_le

/-- The facts of a level that have lost their support are deleted, and what is deleted and has support
is queued for addition. -/
theorem reduce (hlevel : task.level = c.levelAt k)
    (hK : ∀ a : c.rules.Instance (c.levelAt k), a.Holds (· ∈ K) r'.WithAdded →
      ∀ t, a.Concludes t → t ∈ K) (hKv : K ⊆ v.after) (hkeep : ∀ t, Keep t → t ∈ K)
    (hbelow : ∀ t, r.Kept t → c.Done k t → t ∈ K)
    (hbase : ∀ t ∈ v.old, t ∈ v.new → c.rules.At (c.levelAt k) t → t ∈ K)
    (hsup : ∀ t, c.rules.At (c.levelAt k) t → r'.Has deleted t →
      Rederivation.Supported c (c.levelAt k) r' t → r''.Has addedNew t)
    (hdis : v.strategy = .fbf → ∀ t, r''.Has disproved t ↔ r''.Has deleted t) : Reduced v k r'' := by
  have hsurvives : ∀ t, r'.Kept t → c.rules.Upto (c.levelAt k) t → t ∈ v.after :=
    fun t ht hup => hKv (survives h hk hs hlevel hK hkeep hbelow hbase ht hup)
  have hrev := revise h hs hp (fun t => mem_after_of_queued h hk hs hp hsurvives) hdis
  have hdone : ∀ {t}, c.rules.Below (c.levelAt k) t ↔ c.Done k t := Context.below_levelAt_iff hk
  have hput := fun {t} => after_or_queued (t := t) hp hsup
  have hsorted := hs.deleting.sorted
  have hlater := hs.deleting.later
  have hqueued := hs.deleting.queued
  rw [hlevel] at hsorted hlater hqueued
  refine { hrev with
    deletedLists := ?_
    deletedLater := ?_
    addedEnd := ⟨lowerEnd c .addition r, ?_, awaits_added h hk hs hp⟩
    deleted := fun t ht => ?_
    added := fun t ht => ?_
    settled := fun t hb => (after_iff_of_below hs hp hlevel hb).trans (h.settled t (hdone.mp hb))
    known := fun t ht hb => ?_
    surviving := fun t ht hup => hsurvives t (hp.kept_eq ▸ ht) hup
    supported := fun a ha t ht => ?_
    based := fun t ht hat => ?_ }
  · rw [hp.table_eq, hp.deleted_eq]
    exact hsorted.lists.congr fun t => and_congr_left fun _ => hp.has_iff rfl
  · rw [hp.table_eq, hp.sameQueues.initiallyDeleted]
    exact hlater.congr fun t _ => hp.has_iff rfl
  · rw [hp.sameQueues.addedEnds, hs.judged.sameQueues.addedEnds]
    exact h.endBefore hk .addition
  · have := hqueued t (hp.alike.deleted_iff.mp ht)
    exact ⟨(hp.has_iff rfl).mpr this.1, this.2⟩
  · have := h.added t ((hs.judged.has_iff (.inr (.inl rfl))).mp (hp.alike.added_iff.mp ht))
    exact ⟨hp.has t ((hs.judged.has_iff (.inl rfl)).mpr this.1), hdone.mpr this.2⟩
  · have hnew := (queued_or_at hs hp ht).resolve_right fun hat => hat.not_below hb
    exact (after_iff_of_below hs hp hlevel hb).mpr (h.known t hnew (hdone.mp hb))
  · rw [hp.kept_eq, hp.withAdded_eq] at ha
    refine hput (a.at_of_concludes v.basic.builds Context.isSome_levelAt ht) ?_ (.inr ⟨a, ht, ha⟩)
    exact hp.alike.before_iff.mp (hrev.closed Context.isSome_levelAt a (ha.mono
      (fun _ u _ hu => hp.alike.before_iff.mpr hu.1) fun _ u _ hu => .inl
        (hp.alike.before_iff.mp hu)) ht)
  · by_cases hold : t ∈ v.old
    · have hbefore := (hrev.before_iff t).mpr (v.models_before.base_subset hold)
      exact hput hat (hp.alike.before_iff.mp hbefore)
        (.inl ((Run.asserted_congr hs.judged.table_eq).mpr ((h.asserted_iff t).mpr ht)))
    · exact .inr (hrev.inserted t ht hold)

end putsBack

end deletion

/-! ## The end of a level -/

theorem done_succ_iff (hk : k < c.levelCount) :
    (c.mode.usesLevels = true → c.Done (k + 1) t) ↔ c.rules.Upto (c.levelAt k) t := by
  rw [Context.upto_levelAt_iff hk]
  refine ⟨fun h => ?_, fun h _ => h⟩
  by_cases hu : c.mode.usesLevels = true
  · exact h hu
  · rw [Context.Done, if_neg hu]
    exact Nat.succ_pos k

theorem getD_levelAt (hk : k < c.levelCount) : (c.levelAt k).getD 0 = k := by
  rw [Context.levelCount] at hk
  rw [Context.levelAt]
  split
  · rfl
  · rw [if_neg ‹_›] at hk
    rw [Nat.lt_one_iff.mp hk]
    rfl

namespace Reduced

theorem insertionReady (h : Reduced v k r) : ∃ lowerEnd,
    InsertionTask.Ready c (c.levelAt k) lowerEnd v.all v.after r := by
  obtain ⟨lowerEnd, hend, hawaits⟩ := h.addedEnd
  refine ⟨lowerEnd, h.plain, h.facts, hawaits, hend, h.additions, fun t ht hup => ?_, h.added,
    h.known, fun t ht hb => (h.settled t hb).mpr ht, fun t ht => h.deletions t (h.deleted t ht).1,
    h.fresh, h.deletedLists.includes h.deleted, h.supported⟩
  rcases ht with ⟨hb, hd⟩ | ha
  · exact h.surviving t ⟨hb, fun hg => hd hg.1⟩ hup
  · exact h.additions t (h.added t ha).1

section filled

variable {task : InsertionTask} (h : Reduced v k r)
  (hfilled : InsertionTask.Filled c task v.all v.after r r')

include h hfilled

theorem deletedNew_iff : r'.Has deletedNew t ↔ r.Has deletedNew t :=
  hfilled.adds.has_iff h.plain fun row => hfilled.adds.flags row deletedNew rfl rfl

/-- What the insertion leaves of what holds throughout an update. -/
theorem revising : Revising v r' where
  plain := hfilled.inserting.plain
  facts := hfilled.inserting.facts
  asserted_iff t := hfilled.adds.asserted_iff.trans (h.asserted_iff t)
  before_iff t := hfilled.adds.before_iff.trans (h.before_iff t)
  levels s := (congrArg Array.size (Side.byLevel_eq hfilled.adds.sameQueues s)).trans (h.levels s)
  size s := (congrArg Array.size (Side.ends_eq hfilled.adds.sameQueues s)).trans (h.size s)
  retracted t ht ht' := (h.deletedNew_iff hfilled).mpr (h.retracted t ht ht')
  inserted t ht ht' := hfilled.adds.has t (h.inserted t ht ht')
  deletions t ht := hfilled.adds.before_iff.mpr (h.deletions t ((h.deletedNew_iff hfilled).mp ht))
  additions := hfilled.inserting.sound
  fresh := hfilled.inserting.fresh
  disproved_iff hs t := by
    rw [hfilled.adds.deleted_iff h.plain, ← h.disproved_iff hs t]
    exact hfilled.adds.has_iff h.plain fun row => hfilled.adds.flags row disproved rfl rfl

variable (hlevel : task.level = c.levelAt k)

include hlevel

/-- After the insertion the facts of the level are those that follow from the new base facts. -/
theorem settle (hup : c.rules.Upto (c.levelAt k) t) : r'.After t ↔ t ∈ v.after := by
  have hadds := hfilled.adds
  have hkeep : ∀ t, r.After t → r'.After t := fun t => hadds.after h.plain
  refine ⟨fun ht => hfilled.inserting.surviving t ht (hlevel ▸ hup), fun ht => ?_⟩
  refine v.models_after.induct Context.isSome_levelAt (P := r'.After)
    (fun u hu hb => hkeep u ((h.settled u hb).mpr hu)) (fun u hu hat => ?_)
    (fun a ha u hu => ?_) t ht hup
  · rcases h.based u hu hat with hu | hu
    · exact hkeep u hu
    · exact hfilled.complete u (hadds.has u hu) (hlevel ▸ .inr hat)
  · have hsat := hfilled.saturated
    have hcomplete := hfilled.complete
    rw [hlevel] at hsat hcomplete
    have ha : a.Holds r'.After r'.After :=
      ((a.fires_iff v.basic.simple).mp ha).mono (fun _ _ _ => And.right) fun i w hi hw =>
        hfilled.inserting.surviving w hw
          (hlevel ▸ .inl (v.basic.below_of_blocker Context.isSome_levelAt a hi))
    exact (hsat a ha u hu).elim id fun hnew =>
      hcomplete u hnew (.inr (a.at_of_concludes v.basic.builds Context.isSome_levelAt hu))

/-- The work lists hold what was queued up to the level. -/
theorem lists (hk : k < c.levelCount) (s : Side) : Lists r'.table
    (fun t => r'.Has s.flag t ∧ (c.mode.usesLevels = true → c.Done (k + 1) t)) (r'.listed s.work) := by
  have hdone : ∀ t, (c.mode.usesLevels = true → c.Done (k + 1) t) ↔ c.rules.Upto (c.levelAt k) t :=
    fun t => done_succ_iff hk
  cases s with
  | deletion =>
    show Lists _ _ (r'.listed .deleted)
    rw [hfilled.adds.listed_deleted]
    exact (h.deletedLists.extend (fun _ _ => hfilled.adds.table.rows.fact?) fun t ht => ht.1.mem).congr
      fun t => and_congr (h.deletedNew_iff hfilled) (hdone t)
  | addition =>
    have hsorted := hfilled.inserting.sorted
    rw [hlevel] at hsorted
    exact hsorted.lists.congr fun t => and_congr_right fun _ => hdone t

/-- The queues of higher levels hold what was queued there before the first level. -/
theorem later (s : Side) :
    Later r'.table c.rules (s.byLevel r'.update) (r'.Has s.flag) (c.levelAt k) := by
  cases s with
  | deletion =>
    show Later _ _ r'.update.initiallyDeleted _ _
    rw [hfilled.adds.sameQueues.initiallyDeleted]
    exact (h.deletedLater.extend (fun _ _ => hfilled.adds.table.rows.fact?) fun t ht => ht.mem).congr
      fun t _ => h.deletedNew_iff hfilled
  | addition =>
    have hlater := hfilled.inserting.later
    rw [hlevel] at hlater
    exact hlater

/-- The level is worked off. -/
theorem reached (hk : k < c.levelCount) :
    Reached v (k + 1) { r' with update := r'.update.closeLevel (c.levelAt k) } := by
  have hrev := h.revising hfilled
  have hdone : ∀ t, c.Done (k + 1) t ↔ c.rules.Upto (c.levelAt k) t := fun t =>
    (Context.upto_levelAt_iff hk).symm
  have hsettled : ∀ t, c.Done (k + 1) t → (r'.After t ↔ t ∈ v.after) := fun t ht =>
    h.settle hfilled hlevel ((hdone t).mp ht)
  have hlists := h.lists hfilled hlevel hk
  have hqueued := hfilled.inserting.queued
  have hcomplete := hfilled.complete
  rw [hlevel] at hqueued hcomplete
  refine ⟨{ hrev with plain := { hrev.plain with }, levels := fun s => ?_, size := fun s => ?_ },
    fun s _ => ?_, fun s => hlists s, fun s l q hu hl hq => ?_, fun t ht => ?_,
    fun t ht => ⟨(hqueued t ht).1, (hdone t).mpr (hqueued t ht).2⟩,
    hsettled, fun t ht hd => hcomplete t ht ((hdone t).mp hd)⟩
  · rw [← hrev.levels s]
    cases s <;> rfl
  · rw [← hrev.size s]
    cases s <;> exact Array.size_setIfInBounds
  · have hlt : k < (s.ends r'.update).size := hk.trans_eq (hrev.size s).symm
    have hend : (s.ends (r'.update.closeLevel (c.levelAt k)))[k]? = some (r'.update.queue s.work).size := by
      rw [Side.ends_closeLevel, getD_levelAt hk]
      exact Array.getElem?_setIfInBounds_self_of_lt hlt
    exact hend.trans (congrArg some (Array.length_toList ..).symm)
  · have hlater := h.later hfilled hlevel s
    rw [Context.levelAt, if_pos hu] at hlater
    refine hlater k l q rfl hl ?_
    cases s <;> exact hq
  · obtain ⟨hnew, hup⟩ := h.deleted t ((hfilled.adds.deleted_iff h.plain).mp ht)
    exact ⟨(h.deletedNew_iff hfilled).mpr hnew, (hdone t).mpr hup⟩

end filled

/-- The insertion completes the level. -/
theorem insert_wp (hk : k < c.levelCount) (h : Reduced v k r) :
    WP (insert c (c.levelAt k)) r fun _ r' => r'.update.hasLevel (c.levelAt k) = true ∧
      Reached v (k + 1) { r' with update := r'.update.closeLevel (c.levelAt k) } := by
  obtain ⟨lowerEnd, hready⟩ := h.insertionReady
  refine (Entail.insert_wp v.basic Context.isSome_levelAt v.covers v.room
    (fun a ha t => v.models_after.closes_of_holds v.basic.simple Context.isSome_levelAt a ha) ?_
    hready).mono ?_
  · exact v.models_after.subset_leastModel.trans
      (leastModel_mono fun t ht => ((h.asserted_iff t).mpr ht).mem)
  rintro _ r' ⟨task, hlevel, -, hfilled⟩
  refine ⟨?_, h.reached hfilled hlevel hk⟩
  rw [Update.hasLevel, getD_levelAt hk, decide_eq_true_eq]
  exact hk.trans_eq ((h.revising hfilled).levels .deletion).symm

end Reduced

end Entail.Maintenance
