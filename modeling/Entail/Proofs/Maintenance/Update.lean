import Entail.Proofs.Maintenance.Calm
import Entail.Proofs.Maintenance.Level
import Entail.Proofs.Maintenance.Outcome
import Entail.Proofs.Maintenance.Search

/-!
# Updates

Level by level an update brings the materialization up to date (`updateLevels_wp`), provided that the
strategy deletes the facts of every level that have lost their support (`Deletes`). Deleting first and
putting back afterwards does (`deletes_of_dred`), and so does searching for proofs where there is no
negation (`deletes_of_fbf`), with a verdict on every fact that is searched (`Reached.verdicts_wp`). So
after an update without a stop request the materialization is what the rules make of the new base facts
(`update_wp`).
-/

namespace Entail.Maintenance

open Flag.Update Changes

variable {c : Context} {v : Revision c} {k N : Nat} {r r' : Run} {t : Triple}

/-! ## The levels -/

/-- The strategy deletes the facts of every level that have lost their support. -/
def Deletes (v : Revision c) : Prop :=
  ∀ k r stats, k < c.levelCount → stats.strategy = v.strategy → Reached v k r →
    r.update.proved = .empty → (∀ row, r.levelFlags row = 0) →
    WP (deleteLevel c (c.levelAt k) stats) r fun stats' r' => stats'.strategy = v.strategy ∧
      stats'.cancelled = stats.cancelled ∧ Reduced v k r'

/-- What is kept of the levels worked off is there after the update. -/
theorem Reached.after_of_kept (h : Reached v k r) (ht : r.Kept t) (hd : c.Done k t) : t ∈ v.after :=
  (h.settled t hd).mp ht.after

/-- Deleting first and putting back afterwards leaves nothing that has lost its support. -/
theorem deletes_of_dred (hv : v.strategy = .dred) : Deletes v := by
  intro k r stats hk hstats h _ _
  rw [deleteLevel, hstats, hv]
  dsimp only
  rw [WP.bind_iff]
  refine (Rederivation.delete_wp v.basic Context.isSome_levelAt (h.deletionReady hk)).mono ?_
  rintro _ r₁ ⟨task, hlevel, hend, hs⟩
  have hsorted := hs.deleting.sorted
  rw [hlevel, hend] at hsorted
  obtain ⟨hadded, hle⟩ := sorted_added h hk hs
  rw [WP.bind_iff]
  refine (Rederivation.rederive_wp v.basic Context.isSome_levelAt hle
    (pending r.update.initiallyAdded (c.levelAt k)) hs.deleting.plain hsorted ?_ hadded
    fun t ht => (hs.deleting.queued t ht).1).mono ?_
  · rw [hs.judged.sameQueues.deletedEnds]
    exact h.endBefore hk .deletion
  · rintro n r₂ ⟨hp, hput⟩
    refine WP.pure_iff.mpr ⟨rfl, rfl, ?_⟩
    refine reduce h hk hs hp hlevel (K := v.after) (fun a ha t => after_closed h hk hs a ha)
      (fun _ => id) (fun _ => False.elim) (fun t => h.after_of_kept)
      (fun t _ ht _ => v.models_after.base_subset ht) hput fun hf => ?_
    rw [hv] at hf
    cases hf

/-- Supporting premises of instances whose premises are kept are of the level or asserted. -/
def Owns (v : Revision c) (k : Nat) (r : Run) : Prop :=
  ∀ a : c.rules.Instance (c.levelAt k), (∀ i u, a.Premise i u → r.Kept u) →
    ∀ i u, a.Premise i u → c.rules.isSupporting a.rule i = true →
      c.rules.At (c.levelAt k) u ∨ u ∈ v.new

/-- What has a proof at a level is there after the update. -/
theorem Reached.after_of_hasProof (h : Reached v k r) (hk : k < c.levelCount)
    (ht : Search.HasProof c (c.levelAt k) r t) : t ∈ v.after := by
  induction ht with
  | @ground u hb hu =>
    rcases hu with ha | ⟨hbelow, hg⟩
    · exact v.models_after.base_subset ((h.asserted_iff u).mp ha)
    · exact h.after_of_kept ⟨hb, hg⟩ ((Context.below_levelAt_iff hk).mp hbelow)
  | rule a _ hn ht ih =>
    -- what is there of the lower levels in the end is there now, additions counted
    refine v.models_after.closes_of_holds v.basic.simple Context.isSome_levelAt a
      ⟨ih, fun i u hi hu => hn i u hi ?_⟩ ht
    have hbelow := v.basic.below_of_blocker Context.isSome_levelAt a hi
    exact ((h.settled u ((Context.below_levelAt_iff hk).mp hbelow)).mpr hu).withAdded

/-- What has a proof at a level was there before the update. -/
theorem Reached.before_of_hasProof (h : Reached v k r) (ht : Search.HasProof c (c.levelAt k) r t) :
    r.Before t := by
  induction ht with
  | ground hb _ => exact hb
  | rule a _ hn ht ih =>
    exact h.closed Context.isSome_levelAt a ⟨ih, fun i u hi hu => hn i u hi (.inl hu)⟩ ht

/-- What is searched at a level. -/
def Reached.scene (h : Reached v k r) (hk : k < c.levelCount) (hv : v.strategy = .fbf)
    (hown : Owns v k r) : Search.Scene c where
  rules := v.rules
  level := c.levelAt k
  first := r
  basic := v.basic
  leveled := Context.isSome_levelAt
  before _ := h.before_of_hasProof
  kept t ht hb hg := by
    rcases (h.settled t ((Context.below_levelAt_iff hk).mp hb)).mpr (h.after_of_hasProof hk ht) with
      hkept | hadded
    · exact hkept.2 hg.1
    · exact hg.2 hadded
  disproved_iff := h.disproved_iff hv
  deleted t ht := (Context.below_levelAt_iff hk).mpr (h.deleted t ht).2
  own a hp i u hi hs := (hown a hp i u hi hs).imp_right (h.asserted_iff u).mpr

/-- Searching for proofs before deleting leaves nothing that has lost its support, if the proofs do not
lead to lower levels. -/
theorem deletes_of_fbf (hv : v.strategy = .fbf)
    (hown : ∀ k r, k < c.levelCount → Reached v k r → Owns v k r) : Deletes v := by
  intro k r stats hk hstats h hproved hflags
  rw [deleteLevel, hstats, hv]
  dsimp only
  let s : Search.Scene c := h.scene hk hv (hown k r hk h)
  rw [WP.bind_iff]
  refine (Search.delete_wp (s := s) rfl (h.deletionReady hk) hproved hflags).mono ?_
  rintro checks r₁ ⟨task, hlevel, -, hs, hsince⟩
  have hlevel : task.level = c.levelAt k := hlevel
  rw [v.basic.equality, if_neg Bool.false_ne_true]
  refine WP.pure_iff.mpr ⟨rfl, rfl, ?_⟩
  have hclosed : ∀ a : c.rules.Instance (c.levelAt k), a.Holds (· ∈ s.provable) r₁.WithAdded →
      ∀ t, a.Concludes t → t ∈ s.provable := fun a ha t ht =>
    s.closes a (ha.mono (fun _ _ _ => id) fun _ _ _ => hsince.withAdded_iff.mpr) ht
  have hbelow : ∀ t, r.Kept t → c.Done k t → t ∈ s.provable := fun t ht hd =>
    .ground ht.1 (.inr ⟨(Context.below_levelAt_iff hk).mpr hd, ht.2⟩)
  have hbase : ∀ t ∈ v.old, t ∈ v.new → c.rules.At (c.levelAt k) t → t ∈ s.provable :=
    fun t ht hn _ => .ground ((h.before_iff t).mpr (v.models_before.base_subset ht))
      (.inl ((h.asserted_iff t).mpr hn))
  have hsurvives : ∀ t, r₁.Kept t → c.rules.Upto (c.levelAt k) t → t ∈ s.provable :=
    fun t => survives h hk hs hlevel hclosed (fun _ => id) hbelow hbase
  have hdropped : ∀ t, c.rules.At (c.levelAt k) t → r₁.Has deleted t → t ∉ s.provable :=
    fun t hat hd => (hs.judged.dropped t hd).elim
      (fun hd => absurd (s.deleted t hd) hat.not_below) fun hd => hd.2.1
  obtain ⟨hadded, -⟩ := sorted_added h hk hs
  have hputs : Rederivation.PutsBack c (c.levelAt k) (lowerEnd c .addition r)
      (pending r.update.initiallyAdded (c.levelAt k)) r₁ r₁ :=
    ⟨⟨_, _, _, _, _, rfl⟩, hs.deleting.plain, fun _ _ _ => rfl, rfl, List.prefix_refl _, hadded,
      fun _ => id, fun _ => .inl⟩
  refine reduce h hk hs hputs hlevel hclosed (fun t ht => h.after_of_hasProof hk ht) (fun _ => id)
    hbelow hbase (fun t hat hd ht => ?_) fun _ t => ⟨fun hdis => ?_, fun hd => ?_⟩
  · -- what has support has a proof, so it was not deleted
    refine absurd ?_ (hdropped t hat hd)
    have hb := hs.deleting.before t (hs.deleting.queued t hd).1
    rcases ht with ha | ⟨a, ht, ha⟩
    · exact .ground (hsince.before_iff.mp hb) (.inl (hsince.asserted_iff.mp ha))
    · exact hclosed a (ha.mono (fun i u hi hu => hsurvives u hu
        (a.upto_of_premise v.basic.builds Context.isSome_levelAt hi)) fun _ _ _ => id) t ht
  · rcases hsince.failed t hdis with hd | ⟨hb, hat, hnot⟩
    · exact hs.judged.kept t ((s.disproved_iff t).mp hd)
    · by_contra hd
      exact hnot (hsurvives t ⟨hsince.before_iff.mpr hb, fun hg => hd hg.1⟩ (.inr hat))
  · rcases hs.judged.dropped t hd with hd | ⟨-, hdrop⟩
    · exact hsince.disproved t ((s.disproved_iff t).mpr hd)
    · exact hdrop.2

/-- If proofs do not lead to lower levels, the search of a level ends with a verdict on every fact of the
level that it examined, and what it deletes is disproved. -/
theorem Reached.verdicts_wp (h : Reached v k r) (hk : k < c.levelCount) (hv : v.strategy = .fbf)
    (hown : Owns v k r) (hproved : r.update.proved = .empty) (hflags : ∀ row, r.levelFlags row = 0) :
    WP (Search.delete c (c.levelAt k)) r fun _ r' => ∀ t, c.rules.At (c.levelAt k) t →
      (r'.HasAtLevel Flag.Level.checked t →
        (r'.HasAtLevel Flag.Level.proved t ↔ Search.HasProof c (c.levelAt k) r t) ∧
        (r'.Has Flag.Update.disproved t ↔ ¬ Search.HasProof c (c.levelAt k) r t)) ∧
      (r'.Has Flag.Update.deleted t →
        r'.Has Flag.Update.disproved t ∧ ¬ r'.HasAtLevel Flag.Level.proved t) :=
  Search.verdicts_wp (s := h.scene hk hv hown) rfl (h.deletionReady hk) hproved hflags

/-- Without levels all proofs are at the level. -/
theorem owns_of_not_usesLevels (hu : c.mode.usesLevels = false) : Owns v k r := by
  intro a _ i u _ _
  rw [Context.levelAt, hu, if_neg Bool.false_ne_true]
  exact .inl RuleIndex.at_none

/-- A supporting premise that is kept of a lower level is asserted, if no rule of that level derives
it. -/
theorem Reached.owns (h : Reached v k r) (hk : k < c.levelCount) (hx : c.rules.Homogeneous) :
    Owns v k r := by
  intro a hprem i u hi hs
  rcases a.upto_of_premise v.basic.builds Context.isSome_levelAt hi with hbelow | hat
  · have hafter := h.after_of_kept (hprem i u hi) ((Context.below_levelAt_iff hk).mp hbelow)
    cases v.models_after.subset_leastModel hafter with
    | base hu => exact .inr hu
    | rule hr _ ha =>
      exact .inl (a.at_of_supporting v.basic.builds Context.isSome_levelAt hx hi hs hr
        ⟨_, ha, Atom.groundIn_none _ _⟩)
  · exact .inl hat

/-- A level is worked off. -/
theorem updateLevel_wp (hdel : Deletes v) (hk : k < c.levelCount) {stats : Stats}
    (hstats : stats.strategy = v.strategy) (h : Reached v k r) :
    WP (updateLevel c (c.levelAt k) stats) r fun stats' r' => stats'.strategy = v.strategy ∧
      stats'.cancelled = stats.cancelled ∧ Reached v (k + 1) r' := by
  rw [updateLevel, WP.bind_iff, WP.modify_iff, WP.bind_iff]
  refine Context.announce_wp v.basic.stop fun journal => ?_
  rw [WP.bind_iff]
  refine (hdel k _ stats hk hstats (h.start.journal journal) rfl fun row =>
    Marks.flags_clear _ row).mono ?_
  rintro stats₁ r₁ ⟨hs₁, hc₁, h₁⟩
  rw [WP.bind_iff]
  refine (h₁.insert_wp hk).mono ?_
  rintro inserted r₂ ⟨hlevel, h₂⟩
  rw [WP.bind_iff, Routine.closeLevel, WP.bind_iff]
  refine Routine.demand_wp (if_pos hlevel) ?_
  rw [WP.modify_iff, WP.bind_iff]
  refine Routine.note_wp fun journal₁ => ?_
  rw [WP.bind_iff]
  exact Context.announce_wp v.basic.stop fun journal₂ =>
    WP.pure_iff.mpr ⟨hs₁, hc₁, h₂.journal journal₂⟩

/-- The levels from `k` on are worked off. -/
theorem updateLevels_wp (hdel : Deletes v) (n : Nat) (hn : k + n = c.levelCount) {stats : Stats}
    (hstats : stats.strategy = v.strategy) (h : Reached v k r) :
    WP (updateLevels c ((List.range' k n).map c.levelAt) stats) r fun stats' r' =>
      stats'.cancelled = stats.cancelled ∧ Reached v c.levelCount r' := by
  induction n generalizing k r stats with
  | zero =>
    rw [Nat.add_zero] at hn
    exact WP.pure_iff.mpr ⟨rfl, hn ▸ h⟩
  | succ n ih =>
    rw [List.range'_succ, List.map_cons, updateLevels, WP.bind_iff]
    refine Context.isRunning_wp v.basic.stop h.plain.running fun polls => ?_
    simp only [if_true]
    rw [WP.bind_iff]
    refine (updateLevel_wp hdel (by omega) hstats (h.polls polls)).mono ?_
    rintro stats₁ r₁ ⟨hs₁, hc₁, h₁⟩
    refine (ih (by omega) hs₁ h₁).mono ?_
    rintro stats₂ r₂ ⟨hc₂, h₂⟩
    exact ⟨hc₂.trans hc₁, h₂⟩

/-- The outcome of an update is written once all levels are worked off. -/
theorem finish_wp (h : Reached v c.levelCount r) (stats : Stats) :
    WP (finish c stats) r fun stats' r' => stats'.cancelled = stats.cancelled ∧
      r'.Stored v.all v.new ∧ ∀ t, r'.Before t ↔ t ∈ v.after := by
  rw [finish, WP.bind_iff]
  refine Context.isRunning_wp v.basic.stop h.plain.running fun polls => ?_
  simp only [if_true]
  rw [WP.bind_iff]
  have h₁ := h.polls polls
  refine (Changes.propagate_wp v.basic h₁.lists h₁.plain (h₁.levels .deletion) h₁.size
    ⟨c.levelCount - 1, Nat.sub_lt Context.levelCount_pos Nat.one_pos,
      fun s => h₁.ends s Context.levelCount_pos⟩ (fun t ht => ?_) fun t ht => ?_).mono ?_
  · have hnew := (h₁.deleted t ht).1
    exact ⟨h₁.deletions t hnew, hnew, fun _ => Context.done_levelCount⟩
  · exact ⟨(h₁.added t ht).1, fun _ => Context.done_levelCount⟩
  · rintro n r₂ ⟨hplain, hfact, hasserted, hbefore⟩
    rw [WP.bind_iff]
    refine Routine.note_wp fun journal => WP.pure_iff.mpr ⟨rfl, ⟨fun row t hf => ?_,
      hplain.unmerged, fun t => (hasserted t).trans (h₁.asserted_iff t)⟩, fun t =>
      (hbefore t).trans (h₁.settled t Context.done_levelCount)⟩
    exact h₁.facts row t ((hfact row).symm.trans hf)

/-! ## The changes -/

/-- There is room for the levels of an update. -/
def LevelsFit (c : Context) : Prop :=
  c.mode.usesLevels = true → c.rules.maxLevel + 1 < Update.levelLimit

theorem levelCount_eq (hfit : LevelsFit c) :
    Update.levelCount (maxLevel? c) = c.levelCount ∧ c.levelCount < Update.levelLimit := by
  rw [maxLevel?, Context.levelCount]
  split
  · rename_i hu
    have hlt := hfit hu
    refine ⟨Nat.mod_eq_of_lt (hlt.trans ?_), hlt⟩
    exact Nat.pow_lt_pow_right Nat.one_lt_two (by decide)
  · exact ⟨rfl, Nat.one_lt_two_pow (by decide)⟩

/-- When an update is started, nothing is queued. -/
theorem startUpdate_wp (hfit : LevelsFit c) {U E I : Set Triple} (h : r.Stored U E)
    (hbefore : ∀ t, r.Before t ↔ t ∈ I) (hroom : r.table.size < Marks.room)
    (hrunning : r.stopped = false) :
    WP (Routine.startUpdate (maxLevel? c)) r fun _ r' =>
      Seeding c c.levelCount U E I (fun _ => ∅) r' ∧
      ∃ update, r' = { r with update } ∧ update.proved = .empty ∧
        ∀ row, update.levelFlags.flags row = 0 := by
  obtain ⟨hcount, hlimit⟩ := levelCount_eq hfit
  let u : Update := {
    flags := r.update.flags.clear
    levelFlags := r.update.levelFlags.clear
    deleted := .empty
    added := .empty
    proved := .empty
    initiallyDeleted := Array.replicate c.levelCount .empty
    initiallyAdded := Array.replicate c.levelCount .empty
    deletedEnds := Array.replicate c.levelCount 0
    addedEnds := Array.replicate c.levelCount 0 }
  refine ⟨(), { r with update := u }, ?_, ?_, u, rfl, rfl, Marks.flags_clear _⟩
  · simp only [Routine.startUpdate, Update.start, hcount, if_pos hlimit]
    rfl
  · have hflags : ∀ row, r.update.flags.clear.flags row = 0 := Marks.flags_clear _
    refine ⟨⟨hrunning, hroom, h.unmerged, fun row _ => hflags row,
      fun row _ => Marks.flags_clear _ row, fun row => ?_, fun row => ?_⟩, h.facts, h.asserted_iff,
      hbefore, fun s t => ?_, fun row b _ => ?_, fun s => ?_, fun s => ?_, fun s => ?_⟩
    · show Bits.any (r.update.flags.clear.flags row) _ = false
      rw [hflags, Bits.zero_any]
    · show Bits.any (r.update.levelFlags.clear.flags row) _ = false
      rw [Marks.flags_clear, Bits.zero_any]
    · refine ⟨?_, fun hf => hf.elim⟩
      rintro ⟨row, -, hb⟩
      have hb : Bits.any (r.update.flags.clear.flags row) s.flag = true := hb
      rw [hflags, Bits.zero_any] at hb
      cases hb
    · show Bits.any (r.update.flags.clear.flags row) b = false
      rw [hflags, Bits.zero_any]
    · have hreplicate : ∀ (l : Nat) q,
          (Array.replicate c.levelCount Queue.empty)[l]? = some q → q = Queue.empty := fun l q hq => by
        rw [Array.getElem?_replicate] at hq
        split at hq
        · exact (Option.some.inj hq).symm
        · cases hq
      rw [Seeds]
      split
      · refine ⟨by cases s <;> rfl, fun l q hq => ?_⟩
        obtain rfl := hreplicate l q (by cases s <;> exact hq)
        exact ⟨rfl, .nil fun t ht => ht.1⟩
      · cases s <;> exact .nil fun _ => id
    · cases s <;> exact Array.size_replicate
    · cases s <;> exact Array.size_replicate

/-! ### Retractions only -/

/-- Starts an update in which facts are retracted, up to its first level. -/
def retracting (c : Context) (retractions : List Triple) : Routine Unit := do
  Routine.startUpdate (maxLevel? c)
  discard (Changes.retract c retractions)
  modify fun r => { r with update := r.update.startLevel }

section retracting

variable {rules : List Rule} {U E I : Set Triple} {Q : Side → Set Triple} {levels : Nat}

/-- The retracted facts that were asserted are queued for deletion. -/
theorem retracting_wp (hc : c.Basic rules) (hu : c.mode.usesLevels = false) (h : r.Stored U E)
    (hI : ∀ t, r.Before t ↔ t ∈ I) (hroom : r.table.size < Marks.room) (hrunning : r.stopped = false)
    (retractions : List Triple) :
    WP (retracting c retractions) r fun _ r' => Seeding c c.levelCount U {t | t ∈ E ∧ t ∉ retractions} I
      (fun s => {t | s = .deletion ∧ t ∈ E ∧ t ∈ retractions}) r' ∧ r'.update.proved = .empty ∧
      ∀ row, r'.levelFlags row = 0 := by
  have hfit : LevelsFit c := fun hh => by
    rw [hu] at hh
    cases hh
  rw [retracting, WP.bind_iff]
  refine (startUpdate_wp hfit h hI hroom hrunning).mono ?_
  rintro _ r₁ ⟨h₁, -⟩
  rw [WP.bind_iff, WP.discard_iff]
  refine (retract_wp hc (fun t hh => ?_) h₁ retractions).mono fun _ r₂ h₂ => ?_
  · rw [hu] at hh
    cases hh
  · refine WP.modify_iff.mpr ⟨h₂.startLevel.congr (fun _ => Iff.rfl) fun s t => ?_, rfl,
      Marks.flags_clear _⟩
    simp

variable (hc : c.Basic rules) (hu : c.mode.usesLevels = false) (hclosed : ∀ s ∈ rules, s.Closes I)
  (h : Seeding c levels U E I Q r)

include hc hu hclosed h

/-- What is retracted can be deleted. -/
theorem deletionReady_of_seeding (hQ : ∀ t ∈ Q .deletion, t ∈ I) :
    DeletionTask.Ready c none 0 r where
  plain := h.plain
  closed a ha t ht := (h.before_iff t).mpr (a.closes hc.builds hclosed
    (fun k u hk => (h.before_iff u).mp (ha.premises k u hk)) ht)
  awaits := by
    have hseeds := h.seeds .deletion
    rw [Seeds, if_neg (by rw [hu]; exact Bool.false_ne_true)] at hseeds
    refine ⟨⟨?_, fun place row t _ _ => by simp⟩, ?_, Nat.zero_le _, ?_⟩
    · rw [pending, List.append_nil]
      exact hseeds.congr fun t => (and_iff_left (.inr RuleIndex.at_none)).trans (h.has_iff .deletion t)
    · rintro l l' q ⟨⟩
    · rintro l ⟨⟩
  lowerEnd_eq := rfl
  before t ht := (h.before_iff t).mpr (hQ t ((h.has_iff .deletion t).mp ht))
  queued t ht := absurd ht (h.not_has fun s => by cases s <;> rfl)
  fresh t ht := absurd ht (h.not_has fun s => by cases s <;> rfl)
  additions := by
    have hseeds := h.seeds .addition
    rw [Seeds, if_neg (by rw [hu]; exact Bool.false_ne_true)] at hseeds
    exact hseeds.includes fun t ht => absurd ht (h.not_has fun s => by cases s <;> rfl)
  added t ht := absurd ht (h.not_has fun s => by cases s <;> rfl)

/-- What is searched when facts are retracted. -/
def retractionScene : Search.Scene c where
  rules := rules
  level := none
  first := r
  basic := hc
  leveled := hu.symm
  before t ht := by
    induction ht with
    | ground hb _ => exact hb
    | rule a _ _ ht ih =>
      exact (h.before_iff _).mpr (a.closes hc.builds hclosed (fun i u hi => (h.before_iff u).mp (ih i u hi)) ht)
  kept _ _ hb := absurd hb RuleIndex.not_below_none
  disproved_iff _ := iff_of_false (h.not_has fun s => by cases s <;> rfl)
    (h.not_has fun s => by cases s <;> rfl)
  deleted _ ht := absurd ht (h.not_has fun s => by cases s <;> rfl)
  own _ _ _ _ _ _ := .inl RuleIndex.at_none

omit hclosed h

/-- The facts without a proof from the facts that are still asserted are deleted. -/
theorem search_wp {retractions : List Triple}
    (h : Seeding c levels U {t | t ∈ E ∧ t ∉ retractions} (leastModel rules E)
      (fun s => {t | s = .deletion ∧ t ∈ E ∧ t ∈ retractions}) r)
    (hproved : r.update.proved = .empty) (hflags : ∀ row, r.levelFlags row = 0) :
    WP (Search.delete c none) r fun _ r' => ∀ t, r'.Has deleted t ↔
      t ∈ leastModel rules E ∧ t ∉ Search.provable c rules none r := by
  have hclosed : ∀ s ∈ rules, s.Closes (leastModel rules E) := fun s hs => closes_leastModel hs
  let s : Search.Scene c := retractionScene hc hu hclosed h
  have hprovable : ∀ t, t ∈ s.provable ↔ t ∈ Search.provable c rules none r := fun t =>
    Search.hasProof_iff_provable (hu ▸ hc.builds) (hc.definite hu)
  refine (Search.delete_wp (s := s) rfl
    (deletionReady_of_seeding hc hu hclosed h fun t ht => .base ht.2.1) hproved hflags).mono ?_
  rintro checks r₁ ⟨task, hlevel, -, hs, hsince⟩ t
  have hlevel : task.level = none := hlevel
  have hbefore : ∀ u, r₁.Before u ↔ u ∈ leastModel rules E := fun u =>
    hsince.before_iff.trans (h.before_iff u)
  refine ⟨fun hd => ⟨(hbefore t).mp (hs.deleting.before t (hs.deleting.queued t hd).1), ?_⟩,
    fun ht => ?_⟩
  · rcases hs.judged.dropped t hd with hd | ⟨-, hdrop⟩
    · exact absurd hd (h.not_has fun s => by cases s <;> rfl)
    · exact mt (hprovable t).mpr hdrop.1
  · by_contra hd
    have hcloses : ∀ a : c.rules.Instance task.level, a.Holds (· ∈ s.provable) r₁.WithAdded →
        ∀ u, a.Concludes u → u ∈ s.provable := by
      rw [hlevel]
      exact fun a ha u hu => s.closes a (ha.mono (fun _ _ _ => id)
        fun _ _ _ => hsince.withAdded_iff.mpr) hu
    refine ht.2 ((hprovable t).mp (hs.survives hc (by rw [hlevel, hu]; rfl) (K := s.provable)
      (hc.builds.models_leastModel (hc.definite hu)) hbefore hcloses (fun _ => id)
      (fun u _ hb => ?_) (fun u hu _ => ?_) ⟨(hbefore t).mpr ht.1, fun hg => hd hg.1⟩
      (.inr (by rw [hlevel]; exact RuleIndex.at_none))))
    · rw [hlevel] at hb
      exact absurd hb RuleIndex.not_below_none
    · by_cases hr : u ∈ retractions
      · exact .inl (hs.judged.has u ((h.has_iff .deletion u).mpr ⟨rfl, hu, hr⟩))
      · exact .inr (.ground ((h.before_iff u).mpr (.base hu)) (.inl ((h.asserted_iff u).mpr ⟨hu, hr⟩)))

end retracting

/-! ### Retractions and assertions -/

/-- The base facts once some are retracted and then others are asserted. -/
def revised (base : Set Triple) (retractions assertions : List Triple) : Set Triple :=
  {t | (t ∈ base ∧ t ∉ retractions) ∨ t ∈ assertions}

/-- Before the first level nothing is deleted or added. -/
theorem reached_zero {retractions assertions : List Triple}
    (hnew : v.new = revised v.old retractions assertions) {Q : Side → Set Triple}
    (hdeletion : ∀ t, t ∈ Q .deletion ↔ t ∈ v.old ∧ t ∈ retractions)
    (haddition : ∀ t, t ∈ Q .addition ↔
      t ∉ {t | t ∈ v.old ∧ t ∉ retractions} ∧ t ∈ assertions)
    (h : Seeding c c.levelCount v.all v.new v.before Q r) : Reached v 0 r := by
  have hdeleted : ∀ t, ¬ r.Has deleted t := fun t => h.not_has fun s => by cases s <;> rfl
  have hadded : ∀ t, ¬ r.Has added t := fun t => h.not_has fun s => by cases s <;> rfl
  have hdisproved : ∀ t, ¬ r.Has disproved t := fun t => h.not_has fun s => by cases s <;> rfl
  refine ⟨⟨h.plain, h.facts, h.asserted_iff, h.before_iff, h.size, h.ends, fun t ht hn => ?_,
    fun t ht hn => ?_, fun t ht => ?_, fun t ht => ?_, fun t ht => absurd ht (hadded t),
    fun _ t => iff_of_false (hdisproved t) (hdeleted t)⟩, fun _ hk => absurd hk (lt_irrefl 0),
    fun s => ?_, fun s l q hu _ hq => ?_, fun t ht => absurd ht (hdeleted t),
    fun t ht => absurd ht (hadded t), fun t ht => absurd ht Context.not_done_zero,
    fun t _ ht => absurd ht Context.not_done_zero⟩
  · refine (h.has_iff .deletion t).mpr ((hdeletion t).mpr ⟨ht, by_contra fun hd => hn ?_⟩)
    rw [hnew]
    exact .inl ⟨ht, hd⟩
  · rw [hnew] at ht
    refine (h.has_iff .addition t).mpr ((haddition t).mpr ⟨fun hh => hn hh.1, ?_⟩)
    exact ht.resolve_left fun hh => hn hh.1
  · exact (h.before_iff t).mpr (v.models_before.base_subset
      ((hdeletion t).mp ((h.has_iff .deletion t).mp ht)).1)
  · refine v.models_after.base_subset ?_
    rw [hnew]
    exact .inr ((haddition t).mp ((h.has_iff .addition t).mp ht)).2
  · have hs := h.seeds s
    rw [Seeds] at hs
    split at hs
    · rename_i hu
      rw [hs.1]
      exact .nil fun t ht => Context.not_done_zero (ht.2 hu)
    · rename_i hu
      exact hs.congr fun t => by simp [h.has_iff, hu]
  · have hs := h.seeds s
    rw [Seeds, if_pos hu] at hs
    exact ⟨(hs.2 l q hq).1, (hs.2 l q hq).2.congr fun t => and_congr_left fun _ => h.has_iff s t⟩

/-- The levels are worked off once the retractions and the assertions are queued. -/
theorem seed_wp (hfit : LevelsFit c) {retractions assertions : List Triple}
    (hnew : v.new = revised v.old retractions assertions) (hall : ∀ t ∈ assertions, t ∈ v.all)
    (h : r.Stored v.all v.old) (hbefore : ∀ t, r.Before t ↔ t ∈ v.before)
    (hrunning : r.stopped = false) :
    WP (seed c v.strategy retractions assertions) r fun p r' =>
      p.1 = (List.range' 0 c.levelCount).map c.levelAt ∧ p.2.strategy = v.strategy ∧
      p.2.cancelled = false ∧ Reached v 0 r' := by
  have hsize : ∀ {r : Run}, (∀ row t, r.table.fact? row = some t → t ∈ v.all) →
      r.table.size < Marks.room := fun hf => (v.covers.size_le hf).trans_lt v.room
  have hlevels : ∀ t, c.mode.usesLevels = true → c.rules.componentLevel t < c.levelCount :=
    fun t hu => by
      rw [Context.levelCount, if_pos hu]
      exact Nat.lt_succ_of_le (c.rules.componentLevel_le_maxLevel t)
  rw [seed, WP.bind_iff]
  refine Routine.note_wp fun journal => ?_
  rw [WP.bind_iff]
  refine (startUpdate_wp (r := { r with journal }) hfit { h with } hbefore (hsize h.facts)
    hrunning).mono ?_
  rintro _ r₁ ⟨h₁, _⟩
  rw [WP.bind_iff, WP.modify_iff, Context.levels_eq fun hu => Nat.lt_of_succ_lt (hfit hu),
    Routine.lift, pure_bind, WP.bind_iff]
  have h₁ : Seeding c c.levelCount v.all v.old v.before (fun _ => ∅)
      { r₁ with proving := .discrete } :=
    { h₁ with plain := { h₁.plain with } }
  refine (retract_wp v.basic hlevels h₁ retractions).mono fun retracted r₂ h₂ => ?_
  rw [WP.bind_iff]
  refine (assert_wp hlevels v.covers v.room h₂ assertions hall).mono fun asserted r₃ h₃ => ?_
  refine WP.pure_iff.mpr ⟨rfl, rfl, rfl, ?_⟩
  have h₃ := h₃.congr (fun t => show t ∈ v.new ↔ _ by rw [hnew]; exact Iff.rfl) fun _ _ => Iff.rfl
  refine reached_zero hnew (fun t => ?_) (fun t => ?_) h₃
  · simp
  · simp

/-- The materialization after an update is what the rules make of the new base facts. -/
theorem update_wp (hfit : LevelsFit c) (hdel : Deletes v) {retractions assertions : List Triple}
    (hnew : v.new = revised v.old retractions assertions) (hall : ∀ t ∈ assertions, t ∈ v.all)
    (h : r.Stored v.all v.old) (hbefore : ∀ t, r.Before t ↔ t ∈ v.before)
    (hrunning : r.stopped = false) :
    WP (update c v.strategy retractions assertions) r fun stats r' => stats.cancelled = false ∧
      r'.Stored v.all v.new ∧ ∀ t, r'.Before t ↔ t ∈ v.after := by
  rw [update_eq, prepare, bind_assoc, WP.bind_iff]
  refine (seed_wp hfit hnew hall h hbefore hrunning).mono ?_
  rintro ⟨levels, stats⟩ r₁ ⟨rfl, hstrategy, hcancelled, h₁⟩
  rw [WP.bind_iff]
  refine (updateLevels_wp hdel c.levelCount (Nat.zero_add _) hstrategy h₁).mono ?_
  rintro stats₂ r₂ ⟨hc₂, h₂⟩
  refine (finish_wp h₂ stats₂).mono ?_
  rintro stats₃ r₃ ⟨hc₃, h₃, hb₃⟩
  exact ⟨hc₃.trans (hc₂.trans hcancelled), h₃, hb₃⟩

end Entail.Maintenance
