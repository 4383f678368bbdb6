import Entail.Materialization
import Entail.Proofs.Maintenance.Budget
import Entail.Proofs.Maintenance.View

/-!
# Materialization from scratch

While the materialization is computed (`Materialization.Filling`), only facts of the model that the
rules make of the asserted facts are in it. Each round of a level that changes something makes it
larger, so the rounds end, and then it is closed under the rules of the level (`saturate_wp`). If the
lower levels are complete, the level is complete then (`materializeLevel_wp`), so in the end the
materialization is the model (`materialize_wp`).
-/

namespace Entail

namespace Context

variable (c : Context)

/-- The number of levels; without levels there is a single pass. -/
def levelCount : Nat := if c.mode.usesLevels then c.rules.maxLevel + 1 else 1

/-- The level with the number `k`. -/
def levelAt (k : Nat) : Option Nat := if c.mode.usesLevels then some k else none

/-- A fact is of one of the first `k` levels. -/
def Done (k : Nat) (t : Triple) : Prop :=
  if c.mode.usesLevels then c.rules.componentLevel t < k else 0 < k

variable {c} {k : Nat} {t : Triple}

theorem isSome_levelAt : (c.levelAt k).isSome = c.mode.usesLevels := by
  rw [levelAt]
  cases c.mode.usesLevels <;> rfl

theorem below_levelAt_iff (hk : k < c.levelCount) : c.rules.Below (c.levelAt k) t ↔ c.Done k t := by
  rw [levelAt, Done]
  rw [levelCount] at hk
  split
  · simp [RuleIndex.Below]
  · rw [if_neg ‹_›] at hk
    simp [show k = 0 by omega]

theorem upto_levelAt_iff (hk : k < c.levelCount) :
    c.rules.Upto (c.levelAt k) t ↔ c.Done (k + 1) t := by
  rw [RuleIndex.Upto, below_levelAt_iff hk, Done, Done, levelAt]
  rw [levelCount] at hk
  split
  · simp only [RuleIndex.At, Option.some.injEq, forall_eq']
    omega
  · simp [RuleIndex.At]

theorem not_done_zero : ¬ c.Done 0 t := by
  rw [Done]
  split <;> omega

theorem done_levelCount : c.Done c.levelCount t := by
  rw [Done, levelCount]
  split
  · exact Nat.lt_succ_of_le (c.rules.componentLevel_le_maxLevel t)
  · exact Nat.zero_lt_one

theorem levelCount_pos : 0 < c.levelCount := by
  rw [levelCount]
  split
  · exact Nat.succ_pos _
  · exact Nat.zero_lt_one

/-- All levels are worked off, from the lowest to the highest. -/
theorem levels_eq (hlimit : c.mode.usesLevels = true → c.rules.maxLevel < Update.levelLimit) :
    Materialization.levels c.rules c.mode =
      .ok ((List.range' 0 c.levelCount).map c.levelAt) := by
  have hat : c.levelAt = fun k => if c.mode.usesLevels then some k else none := rfl
  rw [Materialization.levels, levelCount, hat, ← List.range_eq_range']
  cases hu : c.mode.usesLevels with
  | false => rfl
  | true => exact if_pos (hlimit hu)

end Context

/-- The facts of the store are in `U`, those of `E` are asserted, and no row gave way to another. -/
structure Run.Stored (U E : Set Triple) (r : Run) : Prop where
  facts (row : Nat) (t : Triple) (h : r.table.fact? row = some t) : t ∈ U
  unmerged (row : Nat) : (r.table.status row).any Status.merged = false
  asserted_iff (t : Triple) : r.Asserted t ↔ t ∈ E

namespace Materialization

variable {c : Context} {rules : List Rule} {U E M : Set Triple} {r r' : Run} {t : Triple} {N : Nat}

/-- What holds while the materialization is computed. -/
structure Filling (U E M : Set Triple) (r : Run) : Prop extends r.Stored U E where
  sound (t : Triple) (h : r.Before t) : t ∈ M

/-- `r'` is `r` with more facts in the materialization; `changed` says whether there are any. -/
structure Enlarges (r r' : Run) (changed : Bool) : Prop where
  kept (t : Triple) (h : r.Before t) : r'.Before t
  changed_iff : changed = true ↔ ∃ t, r'.Before t ∧ ¬ r.Before t

namespace Enlarges

variable {r'' : Run} {b b' : Bool}

theorem refl (r : Run) : Enlarges r r false :=
  ⟨fun _ => id, by simp⟩

theorem trans (h : Enlarges r r' b) (h' : Enlarges r' r'' b') : Enlarges r r'' (b || b') := by
  refine ⟨fun t ht => h'.kept t (h.kept t ht), ?_⟩
  rw [Bool.or_eq_true, h.changed_iff, h'.changed_iff]
  constructor
  · rintro (⟨t, ht, hn⟩ | ⟨t, ht, hn⟩)
    · exact ⟨t, h'.kept t ht, hn⟩
    · exact ⟨t, ht, fun hr => hn (h.kept t hr)⟩
  · rintro ⟨t, ht, hn⟩
    by_cases hr : r'.Before t
    · exact .inl ⟨t, hr, hn⟩
    · exact .inr ⟨t, ht, hr⟩

theorem before_iff (h : Enlarges r r' false) : r'.Before t ↔ r.Before t := by
  refine ⟨fun ht => by_contra fun hn => ?_, h.kept t⟩
  exact Bool.false_ne_true (h.changed_iff.mpr ⟨t, ht, hn⟩)

end Enlarges

section facts

variable (hc : c.Discrete rules) (hMU : M ⊆ U)

include hc hMU

/-- A fact of the model gets into the materialization. -/
theorem add_wp (h : Filling U E M r) (ht : t ∈ M) :
    WP (add c t) r fun isNew r' => Filling U E M r' ∧ Enlarges r r' isNew ∧
      (∀ s, r'.Before s ↔ r.Before s ∨ s = t) ∧ ∃ table, r' = { r with table } := by
  rw [add, WP.bind_iff]
  refine Routine.reads_wp ?_
  rw [hc.steady_eq]
  dsimp only
  rw [WP.bind_iff]
  refine Routine.store_wp Bits.isBit_derived fun row T hT => WP.pure_iff.mpr ?_
  have hunmerged : ∀ row, (T.status row).any Status.merged = false := fun other => by
    rw [hT.status other Status.merged rfl, h.unmerged, Bool.false_or,
      show Status.derived.any Status.merged = false from rfl, Bool.and_false]
  have hbefore : ∀ s, Run.Before { r with table := T } s ↔ r.Before s ∨ s = t := fun s => by
    rw [Run.before_iff_derived (r := { r with table := T }) hunmerged,
      Run.before_iff_derived h.unmerged]
    refine (hT.holds_status_iff rfl).trans (or_congr_right ?_)
    simp [Bits.isBit_derived.any_self]
  have hold : (r.table.status row).any Status.derived = true ↔ r.Before t :=
    hT.any_iff.trans (Run.before_iff_derived h.unmerged).symm
  refine ⟨⟨⟨fun other u hu => ?_, hunmerged, fun u => ?_⟩, fun u hu => ?_⟩,
    ⟨fun s hs => (hbefore s).mpr (.inl hs), ?_⟩, hbefore, T, rfl⟩
  · rcases hT.old other u hu with hu | rfl
    · exact h.facts other u hu
    · exact hMU ht
  · refine (hT.holds_status_iff rfl).trans ((or_iff_left ?_).trans (h.asserted_iff u))
    rintro ⟨hb, -⟩
    cases hb
  · rcases (hbefore u).mp hu with hu | rfl
    · exact h.sound u hu
    · exact ht
  · rw [Bool.not_eq_true', Bool.eq_false_iff, ne_eq, hold]
    constructor
    · exact fun hn => ⟨t, (hbefore t).mpr (.inr rfl), hn⟩
    · rintro ⟨s, hs, hn⟩
      rcases (hbefore s).mp hs with hs | rfl
      · exact absurd hs hn
      · exact hn

/-- Facts of the model get into the materialization. -/
theorem addAll_wp (h : Filling U E M r) {facts : List Triple} (hfacts : ∀ t ∈ facts, t ∈ M) :
    WP (addAll c facts) r fun changed r' => Filling U E M r' ∧ Enlarges r r' changed ∧
      (∀ s, r'.Before s ↔ r.Before s ∨ s ∈ facts) ∧ ∃ table, r' = { r with table } := by
  refine (WP.foldlM (l := facts) (fun changed r' => Filling U E M r' ∧
    Enlarges r r' changed ∧ (∀ s, r'.Before s → r.Before s ∨ s ∈ facts) ∧
      ∃ table, r' = { r with table }) (fun t r' => r'.Before t)
    (fun t ht changed r₁ ⟨h₁, he₁, hb₁, hr₁⟩ => ?_)
    ⟨h, .refl r, fun s => .inl, r.table, rfl⟩).mono ?_
  · rw [WP.bind_iff]
    refine (add_wp hc hMU h₁ (hfacts t ht)).mono ?_
    rintro isNew r₂ ⟨h₂, he₂, hb₂, hr₂⟩
    refine WP.pure_iff.mpr ⟨⟨h₂, he₁.trans he₂, fun s hs => ?_, ?_⟩, (hb₂ t).mpr (.inr rfl),
      fun u _ => he₂.kept u⟩
    · rcases (hb₂ s).mp hs with hs | rfl
      · exact hb₁ s hs
      · exact .inr ht
    · obtain ⟨_, rfl⟩ := hr₁
      obtain ⟨_, rfl⟩ := hr₂
      exact ⟨_, rfl⟩
  · rintro changed r' ⟨⟨h', he', hb', hr'⟩, hdone⟩
    exact ⟨h', he', fun s => ⟨hb' s, fun hs => hs.elim (he'.kept s) (hdone s)⟩, hr'⟩

end facts

/-! ## Rounds -/

/-- The conclusions of the instances of a level are in the materialization, if the premises are in it
and the negated literals have no match in the model. -/
def Closed (c : Context) (level : Option Nat) (M : Set Triple) (r : Run) : Prop :=
  ∀ a : c.rules.Instance level, a.Fires r.Before (· ∈ M) → ∀ t, a.Concludes t → r.Before t

section level

variable {level : Option Nat} (hc : c.Discrete rules) (hMU : M ⊆ U)
  (hl : level.isSome = c.mode.usesLevels) (hM : c.rules.Models rules c.mode.usesLevels E M)

include hc hMU hl hM

/-- Every rule of a level is applied. -/
theorem applyRules_wp (h : Filling U E M r) (hlower : ∀ t ∈ M, c.rules.Below level t → r.Before t) :
    WP (applyRules c (.ofLevel level)) r fun changed r' => Filling U E M r' ∧
      Enlarges r r' changed ∧ (changed = false → Closed c level M r') ∧
      ∃ table, r' = { r with table } := by
  refine (WP.foldlM (l := c.rules.inScope (.ofLevel level)) (fun changed r' =>
      Filling U E M r' ∧ Enlarges r r' changed ∧ ∃ table, r' = { r with table })
    (fun p r' => ∀ a : c.rules.Instance level, (a.indexed, a.rule) = p →
      a.Fires r.Before (· ∈ M) → ∀ t, a.Concludes t → r'.Before t)
    (fun p hp changed r₁ ⟨h₁, he₁, hr₁⟩ => ?_) ⟨h, .refl r, r.table, rfl⟩).mono ?_
  · obtain ⟨i, rule⟩ := p
    have hi := (RuleIndex.mem_inScope.mp hp).1
    have hclasses : ((c.view present).snapshot r₁).classes = none := hc.steady_eq r₁
    obtain ⟨heads, hcons, hheads⟩ := RuleIndex.consequences_spec (c.view present)
      (hc.safe rule i hi) hi rfl (s := r₁) rfl
    refine WP.bind_iff.mpr (WP.of_eq hcons (WP.bind_iff.mpr ?_))
    -- the heads are the conclusions of the instances that fire in the model
    have hinstance : ∀ t ∈ heads, ∃ a : c.rules.Instance level, a.Concludes t ∧
        a.Fires (· ∈ M) (· ∈ M) := fun t ht => by
      obtain ⟨τ, ht, hfires⟩ := (hheads t).mp ht
      have hprem := hfires.premises
      have hneg := hfires.unmatched
      rw [hclasses] at ht hprem hneg
      let a : c.rules.Instance level := ⟨i, rule, hp, τ⟩
      have hr₁ : a.Fires (· ∈ M) r₁.Before :=
        ⟨fun k u hk => h₁.sound u (View.present_iff.mp (hprem k u hk)),
          hneg.mono fun _ _ _ _ _ _ hu => View.present_iff.mpr hu⟩
      exact ⟨a, ht, hr₁.of_below hc.builds hl hc.definite fun u hb hu =>
        he₁.kept u (hlower u hu hb)⟩
    refine (addAll_wp hc hMU h₁ fun t ht => ?_).mono ?_
    · obtain ⟨a, ht, ha⟩ := hinstance t ht
      exact hM.closes hl a ha ht
    · rintro isNew r₂ ⟨h₂, he₂, hb₂, hr₂⟩
      refine WP.pure_iff.mpr ⟨⟨h₂, he₁.trans he₂, ?_⟩, fun a ha hfires t ht => ?_,
        fun q _ hq a ha hfires t ht => he₂.kept t (hq a ha hfires t ht)⟩
      · obtain ⟨_, rfl⟩ := hr₁
        obtain ⟨_, rfl⟩ := hr₂
        exact ⟨_, rfl⟩
      · obtain ⟨rfl, rfl⟩ := Prod.mk.inj ha
        refine (hb₂ t).mpr (.inr ((hheads t).mpr ⟨a.assignment, ?_, ?_, ?_⟩))
        · rw [hclasses]
          exact ht
        · rw [hclasses]
          exact fun k u hk => View.present_iff.mpr (he₁.kept u (hfires.premises k u hk))
        · rw [hclasses]
          exact hfires.unmatched.mono fun _ _ _ _ _ _ hu => h₁.sound _ (View.present_iff.mp hu)
  · rintro changed r' ⟨⟨h', he', hr'⟩, hdone⟩
    refine ⟨h', he', fun hch a ha t ht => ?_, hr'⟩
    subst hch
    exact hdone _ a.mem a rfl
      ⟨fun k u hk => he'.before_iff.mp (ha.premises k u hk), ha.unmatched⟩ t ht

/-- Rounds of a level end, since each that changes something makes the materialization larger. -/
theorem saturate_wp (hU : Universe rules U N) (fuel rounds : Nat) {l : List Triple}
    (hnodup : l.Nodup) (hl' : ∀ t ∈ l, r.Before t) (hfuel : N < l.length + fuel)
    (h : Filling U E M r) (hlower : ∀ t ∈ M, c.rules.Below level t → r.Before t) :
    WP (saturate c (.ofLevel level) fuel rounds) r fun _ r' => Filling U E M r' ∧
      Closed c level M r' ∧ (∀ t, r.Before t → r'.Before t) ∧ ∃ table, r' = { r with table } := by
  induction fuel generalizing rounds l r with
  | zero =>
    have := hU.length_le l hnodup fun t ht => hMU (h.sound t (hl' t ht))
    omega
  | succ fuel ih =>
    rw [saturate, WP.bind_iff]
    refine (applyRules_wp hc hMU hl hM h hlower).mono ?_
    rintro changed r₁ ⟨h₁, he₁, hclosed₁, hr₁⟩
    rw [equate, hc.equality]
    simp only [Bool.false_eq_true, if_false, pure_bind, Bool.or_false]
    cases changed with
    | false =>
      exact WP.pure_iff.mpr ⟨h₁, hclosed₁ rfl, he₁.kept, hr₁⟩
    | true =>
      obtain ⟨t, ht, hn⟩ := he₁.changed_iff.mp rfl
      refine (ih (rounds + 1) (l := t :: l) ?_ ?_ ?_ h₁
        fun u hu hb => he₁.kept u (hlower u hu hb)).mono ?_
      · exact List.nodup_cons.mpr ⟨fun hmem => hn (hl' t hmem), hnodup⟩
      · rintro u hu
        rcases List.mem_cons.mp hu with rfl | hu
        · exact ht
        · exact he₁.kept u (hl' u hu)
      · rw [List.length_cons]
        omega
      · rintro _ r₂ ⟨h₂, hclosed₂, hk₂, hr₂⟩
        refine ⟨h₂, hclosed₂, fun t ht => hk₂ t (he₁.kept t ht), ?_⟩
        obtain ⟨_, rfl⟩ := hr₁
        obtain ⟨_, rfl⟩ := hr₂
        exact ⟨_, rfl⟩

end level

theorem Filling.mono {U' : Set Triple} (h : Filling U' E M r) (hU : U' ⊆ U) : Filling U E M r :=
  { h with facts := fun row t hf => hU (h.facts row t hf) }

theorem Filling.journal (h : Filling U E M r) (journal : Array Entry) :
    Filling U E M { r with journal } :=
  { h with }

/-- A level is worked off: its part of the model gets into the materialization. -/
theorem materializeLevel_wp (hc : c.Discrete rules) (hU : Universe rules U N)
    (hM : c.rules.Models rules c.mode.usesLevels E M) {level : Option Nat}
    (hl : level.isSome = c.mode.usesLevels) (h : Filling U E M r) (hbase : ∀ t ∈ E, r.Before t)
    (hlower : ∀ t ∈ M, c.rules.Below level t → r.Before t) :
    WP (materializeLevel c level) r fun _ r' => Filling U E M r' ∧ (∀ t, r.Before t → r'.Before t) ∧
      (∀ t ∈ M, c.rules.Upto level t → r'.Before t) ∧
      ∃ table journal, r' = { r with table, journal } := by
  -- what can come up follows from the facts of the store
  have hsub : leastModel rules {t | ∃ row, r.table.fact? row = some t} ⊆ U :=
    leastModel_subset (fun t ⟨row, hf⟩ => h.facts row t hf) hU.closes
  have hMU : M ⊆ leastModel rules {t | ∃ row, r.table.fact? row = some t} :=
    hM.subset_leastModel.trans (leastModel_subset
      (fun t ht => subset_leastModel ((h.asserted_iff t).mpr ht).mem)
      fun _ hs => closes_leastModel hs)
  have h₀ : Filling (leastModel rules {t | ∃ row, r.table.fact? row = some t}) E M r :=
    { h with facts := fun row t hf => subset_leastModel ⟨row, hf⟩ }
  rw [materializeLevel, WP.bind_iff]
  refine Routine.reads_wp ?_
  rw [WP.bind_iff]
  refine (saturate_wp hc hMU hl hM (Context.universe_factBound hc.builds hc.safe r) _ 0
    List.nodup_nil (by simp) (by rw [List.length_nil]; omega) h₀ hlower).mono ?_
  rintro rounds r' ⟨h', hclosed, hk, hr'⟩
  refine Routine.note_wp fun journal => ⟨(h'.mono hsub).journal journal, hk, ?_, ?_⟩
  · exact hM.induct hl (fun t ht hb => hk t (hlower t ht hb)) (fun t ht _ => hk t (hbase t ht))
      fun a ha => hclosed a ⟨fun k u hk => (ha.premises k u hk).2, ha.unmatched⟩
  · obtain ⟨_, rfl⟩ := hr'
    exact ⟨_, _, rfl⟩

/-! ## All levels -/

/-- Some levels in a row are worked off. -/
theorem materializeLevels_wp (hc : c.Discrete rules) (hU : Universe rules U N)
    (hM : c.rules.Models rules c.mode.usesLevels E M) (n k : Nat) (hn : k + n = c.levelCount)
    (h : Filling U E M r) (hbase : ∀ t ∈ E, r.Before t) (hdone : ∀ t ∈ M, c.Done k t → r.Before t) :
    WP (((List.range' k n).map c.levelAt).forM (materializeLevel c)) r fun _ r' =>
      Filling U E M r' ∧ (∀ t ∈ M, r'.Before t) ∧ ∃ table journal, r' = { r with table, journal } := by
  induction n generalizing k r with
  | zero =>
    obtain rfl : k = c.levelCount := hn
    exact WP.forM_nil.mpr ⟨h, fun t ht => hdone t ht Context.done_levelCount, _, _, rfl⟩
  | succ n ih =>
    have hk : k < c.levelCount := by omega
    rw [List.range'_succ, List.map_cons, WP.forM_cons]
    refine (materializeLevel_wp hc hU hM Context.isSome_levelAt h hbase
      fun t ht hb => hdone t ht ((Context.below_levelAt_iff hk).mp hb)).mono ?_
    rintro _ r₁ ⟨h₁, hk₁, hdone₁, hr₁⟩
    refine (ih (k + 1) (by omega) h₁ (fun t ht => hk₁ t (hbase t ht))
      fun t ht hd => hdone₁ t ht ((Context.upto_levelAt_iff hk).mpr hd)).mono ?_
    rintro _ r₂ ⟨h₂, hdone₂, hr₂⟩
    refine ⟨h₂, hdone₂, ?_⟩
    obtain ⟨_, _, rfl⟩ := hr₁
    obtain ⟨_, _, rfl⟩ := hr₂
    exact ⟨_, _, rfl⟩

/-- The materialization of a store without one is what the rules make of the asserted facts. -/
theorem materialize_wp (hc : c.Discrete rules) (hU : Universe rules U N)
    (hM : c.rules.Models rules c.mode.usesLevels E M)
    (hlimit : c.mode.usesLevels = true → c.rules.maxLevel < Update.levelLimit)
    (h : r.Stored U E) (hnone : ∀ t, ¬ r.Before t) :
    WP (materialize c) r fun _ r' => r'.Stored U E ∧ (∀ t, r'.Before t ↔ t ∈ M) ∧
      ∃ table journal, r' = { r with table, journal } := by
  have hE : E ⊆ U := fun t ht => by
    obtain ⟨row, hf⟩ := ((h.asserted_iff t).mpr ht).mem
    exact h.facts row t hf
  have hMU : M ⊆ U := hM.subset_leastModel.trans (leastModel_subset hE hU.closes)
  have hselect : ∀ t, t ∈ (r.table.select fun s => s.any Status.asserted).map (·.2) ↔ t ∈ E :=
    fun t => Table.mem_map_select.trans (h.asserted_iff t)
  rw [materialize, WP.bind_iff]
  refine Routine.reads_wp ?_
  rw [WP.bind_iff, WP.discard_iff]
  refine (addAll_wp hc hMU (r := r) ⟨h, fun t ht => absurd ht (hnone t)⟩ fun t ht =>
    hM.base_subset ((hselect t).mp ht)).mono ?_
  rintro _ r₁ ⟨h₁, _, hb₁, hr₁⟩
  rw [Context.levels_eq hlimit, Routine.lift, pure_bind, WP.bind_iff]
  refine (materializeLevels_wp hc hU hM c.levelCount 0 (Nat.zero_add _) h₁
    (fun t ht => (hb₁ t).mpr (.inr ((hselect t).mpr ht)))
    fun t _ hd => absurd hd Context.not_done_zero).mono ?_
  rintro _ r₂ ⟨h₂, hdone, hr₂⟩
  rw [WP.bind_iff]
  refine Routine.reads_wp ?_
  rw [WP.bind_iff]
  refine Routine.note_wp fun journal => WP.pure_iff.mpr
    ⟨{ h₂ with }, fun t => ⟨h₂.sound t, hdone t⟩, ?_⟩
  obtain ⟨_, rfl⟩ := hr₁
  obtain ⟨_, _, rfl⟩ := hr₂
  exact ⟨_, _, rfl⟩

end Materialization

end Entail
