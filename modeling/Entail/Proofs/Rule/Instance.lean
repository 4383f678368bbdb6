import Entail.Proofs.Rule.Application

/-!
# Instances of the rules of a level

An `Instance` is a rule of a level with an assignment. It has premises, blockers and conclusions, which
are facts: the conclusions are of the level, the premises of the level or below, the blockers below.
What is derived forward from a fact by the rules of a level are the conclusions of instances that have
the fact as a premise or as a blocker (`Emits.exists_instance`, `Instance.emits`), and the facts of the
level that a rule derives are the conclusions of instances (`Instance.of_rule`).

What rules make of base facts is a `RuleIndex.Models`: a set with the base facts and the conclusions of
the instances that fire in it, in which every fact of a level has a reason at that level. Without
negation the least model is one (`Builds.models_leastModel`).
-/

namespace Entail

namespace RuleIndex

/-- A fact is of a level or below. -/
def Upto (x : RuleIndex) (level : Option Nat) (t : Triple) : Prop :=
  x.Below level t ∨ x.At level t

/-- A rule of a level with an assignment. -/
structure Instance (x : RuleIndex) (level : Option Nat) where
  indexed : IndexedRule
  rule : Nat
  mem : (indexed, rule) ∈ x.inScope (.ofLevel level)
  assignment : Assignment

namespace Instance

variable {x : RuleIndex} {level : Option Nat} {n : Snapshot} {rules : List Rule} {byLevels : Bool}
  {k : Nat} {t u head : Triple}

/-- The premise with number `k`. -/
def Premise (a : x.Instance level) (k : Nat) (u : Triple) : Prop :=
  a.indexed.rule.Premise none a.assignment k u

/-- A conclusion. -/
def Concludes (a : x.Instance level) (t : Triple) : Prop :=
  a.indexed.rule.Concludes none a.assignment t

/-- The blocker with number `k`. -/
def Blocker (a : x.Instance level) (k : Nat) (u : Triple) : Prop :=
  a.indexed.rule.Blocker none a.assignment k u

/-- All premises have one property, and no blocker has another. -/
structure Holds (a : x.Instance level) (P N : Triple → Prop) : Prop where
  premises (k : Nat) (u : Triple) (h : a.Premise k u) : P u
  blockers (k : Nat) (u : Triple) (h : a.Blocker k u) : ¬ N u

theorem Holds.mono {a : x.Instance level} {P P' N N' : Triple → Prop} (h : a.Holds P N)
    (hP : ∀ k u, a.Premise k u → P u → P' u) (hN : ∀ k u, a.Blocker k u → N' u → N u) :
    a.Holds P' N' :=
  ⟨fun k u hk => hP k u hk (h.premises k u hk), fun k u hk hu => h.blockers k u hk (hN k u hk hu)⟩

/-- All premises have one property, and no negated literal has a match in facts with another. -/
structure Fires (a : x.Instance level) (P N : Triple → Prop) : Prop where
  premises (k : Nat) (u : Triple) (h : a.Premise k u) : P u
  unmatched : a.indexed.rule.Unmatched none a.assignment fun _ => N

/-- The occurrence of the literal with number `k`. -/
def occurrence (a : x.Instance level) (k : Nat) : Occurrence :=
  RuleIndex.occurrence a.indexed a.rule k

theorem rule?_eq (a : x.Instance level) : x.rules[a.rule]? = some a.indexed :=
  (mem_inScope.mp a.mem).1

/-- Of the premises or blockers with a property, one comes first. -/
theorem exists_first {R : Nat → Triple → Prop} (P : Nat → Triple → Prop) (hk : R k u) (hu : P k u) :
    ∃ k u, R k u ∧ P k u ∧ ∀ j v, j < k → R j v → ¬ P j v := by
  induction k using Nat.strong_induction_on generalizing u with
  | _ k ih =>
    by_cases h : ∃ j v, j < k ∧ R j v ∧ P j v
    · obtain ⟨j, v, hj, hv, hP⟩ := h
      exact ih j hj hv hP
    · exact ⟨k, u, hk, hu, fun j v hj hv hP => h ⟨j, v, hj, hv, hP⟩⟩

/-- Applying rules forward from a premise yields the conclusions, if the other premises count as
present and the blockers do not. -/
theorem emits (a : x.Instance level) (hn : n.classes = none) (hk : a.Premise k t)
    (hbefore : ∀ j u, j < k → a.Premise j u → n.Present .positiveBeforePivot (a.occurrence j) u)
    (hafter : ∀ j u, k < j → a.Premise j u → n.Present .positiveAfterPivot (a.occurrence j) u)
    (hblock : ∀ j u, a.Blocker j u → ¬ n.Present .negativeAtOrAfterPivot (a.occurrence j) u)
    (ht : a.Concludes head) : x.Emits n (.ofLevel level) .positive t head := by
  refine ⟨a.indexed, a.rule, k, a.mem, a.assignment, by rwa [hn], fun j u hj hu => ?_,
    fun j u _ hu => ?_, by rwa [hn]⟩
  · rw [hn] at hu
    rw [Polarity.positiveRole]
    split
    · rename_i hlt
      exact hbefore j u hlt hu
    · exact hafter j u (by omega) hu
  · rw [hn] at hu
    exact hblock j u hu

/-- So it does from a fact that is a premise, perhaps more than once: of its occurrences with a property,
the first is the pivot. -/
theorem emits_of_premise {P : Nat → Prop} (a : x.Instance level) (hn : n.classes = none)
    (hk : a.Premise k t) (hP : P k)
    (hbefore : ∀ j u, a.Premise j u → ¬ (P j ∧ u = t) →
      n.Present .positiveBeforePivot (a.occurrence j) u)
    (hafter : ∀ j u, a.Premise j u → n.Present .positiveAfterPivot (a.occurrence j) u)
    (hblock : ∀ j u, a.Blocker j u → ¬ n.Present .negativeAtOrAfterPivot (a.occurrence j) u)
    (ht : a.Concludes head) : x.Emits n (.ofLevel level) .positive t head := by
  obtain ⟨j, v, hj, ⟨-, rfl⟩, hfirst⟩ := exists_first (fun k u => P k ∧ u = t) hk ⟨hP, rfl⟩
  exact a.emits hn hj (fun i u hi hu => hbefore i u hu (hfirst i u hi hu))
    (fun i u _ hu => hafter i u hu) hblock ht

/-- Applying rules forward from a blocker yields the conclusions, if the premises count as present and
the other blockers do not. -/
theorem emits_of_blocker (a : x.Instance level) (hn : n.classes = none) (hk : a.Blocker k t)
    (hprem : ∀ j u, a.Premise j u → n.Present .positiveBeforePivot (a.occurrence j) u)
    (hbefore : ∀ j u, j < k → a.Blocker j u →
      ¬ n.Present .negativeSingleAtomBeforePivot (a.occurrence j) u)
    (hafter : ∀ j u, k < j → a.Blocker j u →
      ¬ n.Present .negativeAtOrAfterPivot (a.occurrence j) u)
    (ht : a.Concludes head) : x.Emits n (.ofLevel level) .negative t head := by
  refine ⟨a.indexed, a.rule, k, a.mem, a.assignment, by rwa [hn], fun j u _ hu => ?_,
    fun j u hj hu => ?_, by rwa [hn]⟩
  · rw [hn] at hu
    exact hprem j u hu
  · rw [hn] at hu
    rw [Polarity.negativeRole]
    split
    · rename_i hlt
      exact hafter j u hlt hu
    · exact hbefore j u (by omega) hu

theorem closes {X : Set Triple} (hb : Builds rules byLevels x) (hX : ∀ s ∈ rules, s.Closes X)
    (a : x.Instance level) (hp : ∀ k u, a.Premise k u → u ∈ X) (ht : a.Concludes t) : t ∈ X :=
  Rule.closes_iff.mp (hX _ (hb.rule_mem a.rule?_eq).1) a.assignment t hp ht

theorem mem_rules (a : x.Instance level) :
    a.indexed ∈ x.rules.toList ∧ (Scope.ofLevel level).includes a.indexed.rule.level = true := by
  obtain ⟨hi, hs⟩ := mem_inScope.mp a.mem
  exact ⟨List.mem_of_getElem? (by rwa [Array.getElem?_toList]), hs⟩

/-- Only rules with negation have blockers. -/
theorem hasNegation_of_blocker (a : x.Instance level) (hk : a.Blocker k u) :
    x.hasNegation (.ofLevel level) = true := by
  obtain ⟨hmem, hs⟩ := a.mem_rules
  obtain ⟨b, hb, -⟩ := hk
  rw [hasNegation, ← Array.any_toList, List.any_eq_true]
  refine ⟨a.indexed, hmem, ?_⟩
  rw [hs, Bool.true_and, Rule.hasNegation, List.any_eq_true]
  exact ⟨_, List.mem_of_getElem? hb, rfl⟩

theorem not_blocker (a : x.Instance level) (hd : x.Definite) : ¬ a.Blocker k u :=
  (hd _ _ a.rule?_eq).not_blocker

/-- Simple negation is about blockers. -/
theorem fires_iff (a : x.Instance level) (hx : x.Simple) {P N : Triple → Prop} :
    a.Fires P N ↔ a.Holds P N :=
  have hiff := (hx _ _ a.rule?_eq).unmatched_iff
  ⟨fun h => ⟨h.premises, hiff.mp h.unmatched⟩, fun h => ⟨h.premises, hiff.mpr h.blockers⟩⟩

/-- Without negation only the premises matter. -/
theorem fires_of_definite (a : x.Instance level) (hd : x.Definite) {P : Triple → Prop}
    (N : Triple → Prop) (hp : ∀ k u, a.Premise k u → P u) : a.Fires P N :=
  (a.fires_iff hd.simple).mpr ⟨hp, fun _ _ hk => absurd hk (a.not_blocker hd)⟩

/-- The way in which an instance derives a conclusion. -/
theorem exists_supports (a : x.Instance level) (hn : n.classes = none) (ht : a.Concludes t)
    (hp : ∀ k u, a.Premise k u → n.Present .supportingPositive (a.occurrence k) u)
    (hb : ∀ k u, a.Blocker k u → ¬ n.Present .supportingNegative (a.occurrence k) u) :
    ∃ ref : HeadRef, ref.rule = a.rule ∧ x.Supports n ref a.indexed a.assignment t := by
  obtain ⟨h, hmem, rfl⟩ := ht
  obtain ⟨place, hplace⟩ := List.mem_iff_getElem?.mp hmem
  exact ⟨⟨a.rule, place⟩, rfl, ⟨by rw [hn]; exact hp, by rw [hn]; exact hb⟩, a.rule?_eq,
    ⟨h, hplace, by rw [hn]⟩⟩

section

variable (hb : Builds rules byLevels x) (hl : level.isSome = byLevels)

include hb hl

/-- Negation is only about facts of lower levels. -/
theorem Fires.of_below {a : x.Instance level} {P N N' : Triple → Prop} (h : a.Fires P N)
    (hd : byLevels = false → x.Definite) (hN : ∀ u, x.Below level u → N' u → N u) : a.Fires P N' :=
  ⟨h.premises, h.unmatched.mono fun _ _ hk _ hc τ =>
    hN _ (hb.below_of_negative hl a.mem hd hk hc τ)⟩

theorem at_of_concludes (a : x.Instance level) (ht : a.Concludes t) : x.At level t :=
  (hb.scope_iff_at hl a.rule?_eq ht).mp a.mem

theorem upto_of_premise (a : x.Instance level) (hk : a.Premise k u) : x.Upto level u :=
  hb.below_or_at hl a.mem hk

theorem below_of_blocker (a : x.Instance level) (hd : byLevels = false → x.Definite)
    (hk : a.Blocker k u) : x.Below level u :=
  hb.below_of_blocker hl a.mem hd hk

theorem supporting_of_at (a : x.Instance level) (hk : a.Premise k u) (hu : x.At level u) :
    x.isSupporting a.rule k = true :=
  hb.supporting_of_at hl a.mem hk hu

theorem isSupporting_iff (a : x.Instance level) (hk : a.Premise k u) :
    x.isSupporting a.rule k = true ↔
      (x.byLevels && some (a.occurrence k).level != level) = false :=
  hb.isSupporting_iff hl a.mem hk

/-- A supporting premise that a rule derives is of the level, if no rule of another level has a head
that unifies with the literal. -/
theorem at_of_supporting {r : Rule} {σ : Assignment} (hx : x.Homogeneous) (a : x.Instance level)
    (hk : a.Premise k u) (hs : x.isSupporting a.rule k = true) (hr : r ∈ rules)
    (hu : r.Concludes none σ u) : x.At level u := by
  rintro l rfl
  subst hl
  obtain ⟨b, hbody, rfl⟩ := hk
  obtain ⟨h, hh, hground⟩ := hu
  obtain ⟨rule, j, hj, rfl⟩ := hb.exists_rule hr
  have hmem : ∀ {rule : Nat} {j : IndexedRule}, x.rules[rule]? = some j → j ∈ x.rules.toList :=
    fun hj => List.mem_of_getElem? (by rwa [Array.getElem?_toList])
  have hsup : a.indexed.supporting[k]? = some true := by
    simp only [isSupporting, a.rule?_eq] at hs
    exact (Option.getD_eq_iff.mp hs).resolve_right fun h => Bool.false_ne_true h.2
  have hzip : (Literal.positive b, true) ∈ a.indexed.rule.body.zip a.indexed.supporting :=
    List.mem_of_getElem? (List.getElem?_zip_eq_some.mpr ⟨hbody, hsup⟩)
  have hlevel := hx _ (hmem a.rule?_eq) _ hzip rfl b List.mem_cons_self j (hmem hj) h hh
    (Atom.unifies_of_ground hground)
  rw [hb.componentLevel_of_concludes hr ⟨h, hh, hground⟩, hlevel]
  exact Builds.level_of_mem_inScope a.mem

theorem hasRecursive_of_at (a : x.Instance level) (hk : a.Premise k u) (hu : x.At level u) :
    x.hasRecursive (.ofLevel level) = true :=
  hb.hasRecursive_of_supporting a.mem (a.supporting_of_at hb hl hk hu)

/-- A head that derives a fact of the level belongs to an instance. -/
theorem of_supports {ref : HeadRef} {i : IndexedRule} {τ : Assignment}
    (h : x.Supports n ref i τ t) (hn : n.classes = none) (ht : x.At level t) :
    ∃ a : x.Instance level, a.rule = ref.rule ∧ a.indexed = i ∧ a.assignment = τ ∧ a.Concludes t ∧
      (∀ k u, a.Premise k u → n.Present .supportingPositive (a.occurrence k) u) ∧
      ∀ k u, a.Blocker k u → ¬ n.Present .supportingNegative (a.occurrence k) u := by
  have hc := h.concludes
  have hp := h.premises
  have hblock := h.blockers
  rw [hn] at hc hp hblock
  exact ⟨⟨i, ref.rule, (hb.scope_iff_at hl h.rule_eq hc).mpr ht, τ⟩, rfl, rfl, rfl, hc, hp, hblock⟩

/-- A fact of the level that a rule derives is a conclusion of an instance. -/
theorem of_rule {r : Rule} {σ : Assignment} (hr : r ∈ rules) (ht : r.Concludes none σ t)
    (hat : x.At level t) :
    ∃ a : x.Instance level, a.indexed.rule = r ∧ a.assignment = σ ∧ a.Concludes t := by
  obtain ⟨rule, i, hi, rfl⟩ := hb.exists_rule hr
  exact ⟨⟨i, rule, (hb.scope_iff_at hl hi ht).mpr hat, σ⟩, rfl, rfl, ht⟩

end

end Instance

variable {x : RuleIndex} {level : Option Nat} {n : Snapshot} {t head : Triple} {rules : List Rule}
  {byLevels : Bool} {base M : Set Triple}

/-- Around a pivot, what positive literals find has one property, and negated ones find whatever has
another. -/
structure Confines (n : Snapshot) (P N : Triple → Prop) : Prop where
  before {o : Occurrence} {u : Triple} (h : n.Present .positiveBeforePivot o u) : P u
  after {o : Occurrence} {u : Triple} (h : n.Present .positiveAfterPivot o u) : P u
  absentBefore (o : Occurrence) {u : Triple} (h : N u) : n.Present .negativeSingleAtomBeforePivot o u
  absent (o : Occurrence) {u : Triple} (h : N u) : n.Present .negativeAtOrAfterPivot o u

theorem Emits.exists_instance {p : Polarity} (h : x.Emits n (.ofLevel level) p t head)
    (hn : n.classes = none) :
    ∃ (a : x.Instance level) (k : Nat), p.Reads a.indexed.rule none a.assignment k t ∧
      a.Concludes head ∧
      (∀ j u, j ≠ k → a.Premise j u → n.Present (p.positiveRole k j) (a.occurrence j) u) ∧
      ∀ j u, j ≠ k → a.Blocker j u → ¬ n.Present (p.negativeRole k j) (a.occurrence j) u := by
  obtain ⟨i, rule, k, hi, τ, hk, hprem, hblock, ht⟩ := h
  rw [hn] at hk hprem hblock ht
  exact ⟨⟨i, rule, hi, τ⟩, k, hk, ht, hprem, hblock⟩

/-- What is derived from a fact comes from an instance that holds, if the fact may take part in one. -/
theorem Emits.exists_holds {p : Polarity} (h : x.Emits n (.ofLevel level) p t head)
    (hn : n.classes = none) {P N : Triple → Prop} (hc : Confines n P N) (ht : p.Allows P N t) :
    ∃ a : x.Instance level, a.Holds P N ∧ a.Concludes head := by
  obtain ⟨a, k, hk, hhead, hprem, hblock⟩ := h.exists_instance hn
  refine ⟨a, ⟨fun j u hj => ?_, fun j u hj hu => ?_⟩, hhead⟩
  · by_cases hjk : j = k
    · subst hjk
      cases p with
      | positive => exact hk.unique hj ▸ ht
      | negative => exact (hk.not_premise hj).elim
    · have hu := hprem j u hjk hj
      cases p with
      | negative => exact hc.before hu
      | positive =>
        rw [Polarity.positiveRole] at hu
        split at hu
        · exact hc.before hu
        · exact hc.after hu
  · by_cases hjk : j = k
    · subst hjk
      cases p with
      | positive => exact hj.not_premise hk
      | negative => exact ht (hk.unique hj ▸ hu)
    · refine hblock j u hjk hj ?_
      cases p with
      | positive => exact hc.absent _ hu
      | negative =>
        rw [Polarity.negativeRole]
        split
        · exact hc.absent _ hu
        · exact hc.absentBefore _ hu

/-- What the literals of a rule find while changes of lower levels are replayed: positive literals what
is kept before the pivot and what is in `X` behind it, negated ones what is in `X`, and before the
pivot perhaps more that is in `W`. -/
structure Replays (n : Snapshot) (K W X : Triple → Prop) : Prop where
  classes_eq : n.classes = none
  before_iff (o : Occurrence) (u : Triple) : n.Present .positiveBeforePivot o u ↔ K u
  after_iff (o : Occurrence) (u : Triple) : n.Present .positiveAfterPivot o u ↔ X u
  absent_iff (o : Occurrence) (u : Triple) : n.Present .negativeAtOrAfterPivot o u ↔ X u
  absentBefore (o : Occurrence) (u : Triple) (h : X u) :
    n.Present .negativeSingleAtomBeforePivot o u
  withAdded (o : Occurrence) (u : Triple) (h : n.Present .negativeSingleAtomBeforePivot o u) : W u

theorem Replays.confines {K W X : Triple → Prop} (h : Replays n K W X) (hK : ∀ u, K u → X u) :
    Confines n X X where
  before {o u} hu := hK u ((h.before_iff o u).mp hu)
  after {o u} hu := (h.after_iff o u).mp hu
  absentBefore o u hu := h.absentBefore o u hu
  absent o u hu := (h.absent_iff o u).mpr hu

/-- An instance that holds but not by what is kept is found from the first premise that is not kept or
else from the first blocker that came up. -/
theorem Instance.exists_emits (a : x.Instance level) {n' : Snapshot} {K W X : Triple → Prop}
    (h : Replays n K W X) (h' : Replays n' K W X) (hX : a.Holds X X) (hK : ¬ a.Holds K W)
    (ht : a.Concludes head) :
    (∃ k u, a.Premise k u ∧ X u ∧ ¬ K u ∧ x.Emits n (.ofLevel level) .positive u head) ∨
      ∃ k u, a.Blocker k u ∧ ¬ X u ∧ W u ∧ x.Emits n' (.ofLevel level) .negative u head := by
  by_cases hkept : ∀ k u, a.Premise k u → K u
  · have hblock : ∃ k u, a.Blocker k u ∧ W u := by
      by_contra hno
      exact hK ⟨hkept, fun k u hk hu => hno ⟨k, u, hk, hu⟩⟩
    obtain ⟨k, u, hk, hu⟩ := hblock
    obtain ⟨k, u, hk, hu, hfirst⟩ := Instance.exists_first (fun _ => W) hk hu
    refine .inr ⟨k, u, hk, hX.blockers k u hk, hu, a.emits_of_blocker h'.classes_eq hk
      (fun j v hj => (h'.before_iff _ v).mpr (hkept j v hj))
      (fun j v hlt hj hp => hfirst j v hlt hj (h'.withAdded _ v hp))
      (fun j v _ hj hp => hX.blockers j v hj ((h'.absent_iff _ v).mp hp)) ht⟩
  · simp only [not_forall] at hkept
    obtain ⟨k, u, hk, hu⟩ := hkept
    obtain ⟨k, u, hk, hu, hfirst⟩ := Instance.exists_first (fun _ u => ¬ K u) hk hu
    refine .inl ⟨k, u, hk, hX.premises k u hk, hu, a.emits h.classes_eq hk
      (fun j v hlt hj => (h.before_iff _ v).mpr (not_not.mp (hfirst j v hlt hj)))
      (fun j v _ hj => (h.after_iff _ v).mpr (hX.premises j v hj))
      (fun j v hj hp => hX.blockers j v hj ((h.absent_iff _ v).mp hp)) ht⟩

/-! ## Models -/

/-- What rules make of base facts: the conclusions of the instances that fire in it, and nothing that
has no reason at its level. -/
structure Models (x : RuleIndex) (rules : List Rule) (byLevels : Bool) (base M : Set Triple) : Prop where
  base_subset : base ⊆ M
  subset_leastModel : M ⊆ leastModel rules base
  closes {level : Option Nat} (hl : level.isSome = byLevels) (a : x.Instance level)
    (h : a.Fires (· ∈ M) (· ∈ M)) {t : Triple} (ht : a.Concludes t) : t ∈ M
  /-- What holds of the facts of lower levels and of the base facts of a level, and goes over from the
  premises to the conclusions of the instances that fire, holds of all facts up to the level. -/
  induct {level : Option Nat} (hl : level.isSome = byLevels) {P : Triple → Prop}
    (hbelow : ∀ t ∈ M, x.Below level t → P t) (hbase : ∀ t ∈ base, x.At level t → P t)
    (hstep : ∀ a : x.Instance level, a.Fires (fun u => u ∈ M ∧ P u) (· ∈ M) →
      ∀ t, a.Concludes t → P t) : ∀ t ∈ M, x.Upto level t → P t

theorem Models.closes_of_holds (h : x.Models rules byLevels base M) (hx : x.Simple)
    (hl : level.isSome = byLevels) (a : x.Instance level) (ha : a.Holds (· ∈ M) (· ∈ M))
    (ht : a.Concludes t) : t ∈ M :=
  h.closes hl a ((a.fires_iff hx).mpr ha) ht

/-- Every fact is of some level. -/
theorem exists_at (x : RuleIndex) (byLevels : Bool) (t : Triple) :
    ∃ level : Option Nat, level.isSome = byLevels ∧ x.At level t := by
  cases byLevels with
  | false => exact ⟨none, rfl, at_none⟩
  | true => exact ⟨some (x.componentLevel t), rfl, fun _ hl => Option.some.inj hl⟩

/-- Without negation what rules make of base facts is the least model. -/
theorem Models.eq_leastModel (h : x.Models rules byLevels base M) (hb : Builds rules byLevels x)
    (hd : x.Definite) : M = leastModel rules base := by
  refine h.subset_leastModel.antisymm (leastModel_subset h.base_subset fun s hs =>
    Rule.closes_iff.mpr fun σ t hprem ht => ?_)
  obtain ⟨level, hl, hat⟩ := x.exists_at byLevels t
  obtain ⟨a, rfl, rfl, ht⟩ := Instance.of_rule hb hl hs ht hat
  exact h.closes hl a (a.fires_of_definite hd _ hprem) ht

/-- Without negation the least model is what rules make of base facts. -/
theorem Builds.models_leastModel (hb : Builds rules byLevels x) (hd : x.Definite) :
    x.Models rules byLevels base (leastModel rules base) where
  base_subset := Entail.subset_leastModel
  subset_leastModel _ := id
  closes _ a h _ ht := a.closes hb (fun _ hs => closes_leastModel hs) h.premises ht
  induct {level} hl P hbelow hbase hstep := by
    suffices h : leastModel rules base ⊆ {t | t ∈ leastModel rules base ∧ (x.Upto level t → P t)} from
      fun t ht => (h ht).2
    refine leastModel_subset (fun t ht => ⟨.base ht, fun hup => ?_⟩) fun s hs =>
      Rule.closes_iff.mpr fun σ t hprem ht => ?_
    · exact hup.elim (hbelow t (.base ht)) (hbase t ht)
    · have hmem := Rule.closes_iff.mp (closes_leastModel hs) σ t (fun k u hk => (hprem k u hk).1) ht
      refine ⟨hmem, fun hup => hup.elim (hbelow t hmem) fun hat => ?_⟩
      obtain ⟨a, rfl, rfl, ht⟩ := Instance.of_rule hb hl hs ht hat
      exact hstep a (a.fires_of_definite hd _ fun k u hk => ⟨(hprem k u hk).1,
        (hprem k u hk).2 (a.upto_of_premise hb hl hk)⟩) t ht

end RuleIndex

end Entail
