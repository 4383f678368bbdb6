import Entail.Proofs.Engine

/-!
# Sessions

A session gives an engine its rules and its facts and then applies batches of changes
(`Engine.session`). After each batch the materialization is what the rules make of the asserted facts
(`Setting.session_wp`), if the strategy deletes what has lost its support and the store has room for
what may be derived (`Fits`); without negation it is the least model (`Maintainable.session_wp`).

The number of workers may be any, but it is only announced: the pool is taken as one worker, and the
results say nothing of several that take rows from one queue at the same time.
-/

namespace Entail.Engine

open Maintenance (Revision Deletes revised)

/-! ## Batches -/

/-- Facts that are retracted and facts that are then asserted. -/
structure Batch where
  retractions : List Triple
  assertions : List Triple
  monitored : Bool := true

/-- The asserted facts after a batch. -/
def Batch.revise (base : Set Triple) (b : Batch) : Set Triple :=
  revised base b.retractions b.assertions

/-- The asserted facts after each batch. -/
def bases (base : Set Triple) : List Batch → List (Set Triple)
  | [] => []
  | b :: batches => b.revise base :: bases (b.revise base) batches

/-- Applies batches; the materialization after each. -/
def applyBatches : List Batch → Action (List (List Triple))
  | [] => pure []
  | b :: batches => do
    discard (applyChanges b.retractions b.assertions b.monitored)
    let e ← get
    let later ← applyBatches batches
    pure (e.facts :: later)

/-- Applies batches to rules and facts. -/
def session (rules : List Rule) (facts : List Triple) (batches : List Batch) :
    Action (List (List Triple)) := do
  rules.forM addRule
  facts.forM addFact
  applyBatches batches

/-- Every fact that is asserted at some time. -/
def everAsserted (facts : List Triple) (batches : List Batch) : List Triple :=
  facts ++ batches.flatMap Batch.assertions

/-- There is room for what may be derived in a session. -/
def Fits (rules : List Rule) (facts : List Triple) (batches : List Batch) : Prop :=
  ∀ l : List Triple, l.Nodup → (∀ t ∈ l, t ∈ leastModel rules {t | t ∈ everAsserted facts batches}) →
    l.length < Marks.room

/-- Facts are the least model of rules over base facts. -/
def Agrees (rules : List Rule) (facts : List Triple) (base : Set Triple) : Prop :=
  ∀ t, t ∈ facts ↔ t ∈ leastModel rules base

variable {rules : List Rule} {mode : Mode} {strategy : Strategy} {x : RuleIndex} {U E : Set Triple}
  {M : Set Triple → Set Triple} {e : Engine} {t : Triple} {N : Nat} {facts : List Triple} {batches : List Batch}

theorem Fits.universe_room (h : Fits rules facts batches) :
    Universe rules (leastModel rules {t | t ∈ everAsserted facts batches}) (Marks.room - 1) :=
  ⟨fun _ hs => closes_leastModel hs, fun l hl hall => Nat.le_sub_one_of_lt (h l hl hall)⟩

/-- What a batch asserts is asserted at some time. -/
theorem asserted_mem_leastModel {b : Batch} (hb : b ∈ batches) (ht : t ∈ b.assertions) :
    t ∈ leastModel rules {t | t ∈ everAsserted facts batches} :=
  subset_leastModel (List.mem_append_right _ (List.mem_flatMap_of_mem hb ht))

/-- A store has only what is there from the start. -/
theorem stored_mem_leastModel {T : Table} {row : Nat} (h : T.fact? row = some t) :
    t ∈ leastModel rules {t | t ∈ everAsserted T.facts.toList batches} := by
  refine subset_leastModel (List.mem_append_left _ ?_)
  rw [Table.fact?_of_pos (Table.fact?_bounds h).1] at h
  exact Array.mem_toList_iff.mpr (Array.mem_of_getElem? h)

/-- There is room if there is room for the triples of all ids that facts and rules mention. -/
theorem Fits.of_within {n : Nat} (hp : ∀ r ∈ rules, r.Parsed)
    (hrules : ∀ s ∈ rules, ∀ a ∈ s.head, ∀ id ∈ a.constants, id ≤ n)
    (hfacts : ∀ t ∈ everAsserted facts batches, t.Within n) (hn : Nat.pow (n + 1) 3 < Marks.room) :
    Fits rules facts batches := by
  intro l hl hall
  refine (length_le_of_within hl fun t ht => ?_).trans_lt hn
  exact leastModel_subset (X := {t | t.Within n}) hfacts
    (fun s hs => Rule.closes_forall (hp s hs).safe (hrules s hs)) (hall t ht)

/-- There is room for the facts of a store if they can be derived from facts that there is room for. -/
theorem Fits.of_stored {T : Table} (h : Fits rules facts batches)
    (hT : ∀ row t, T.fact? row = some t → t ∈ leastModel rules {t | t ∈ everAsserted facts batches})
    {later : List Batch} (hlater : later ⊆ batches) : Fits rules T.facts.toList later := by
  refine fun l hl hall => h l hl fun t ht =>
    leastModel_subset (fun u hu => ?_) (fun _ => closes_leastModel) (hall t ht)
  rcases List.mem_append.mp hu with hu | hu
  · obtain ⟨i, hi⟩ := List.mem_iff_getElem?.mp hu
    exact hT (i + 1) u ((Table.fact?_succ i).trans (Array.getElem?_toList ▸ hi))
  · obtain ⟨b, hb, hu⟩ := List.mem_flatMap.mp hu
    exact asserted_mem_leastModel (hlater hb) hu

/-! ## Rules and facts -/

/-- An engine without rules and facts. -/
theorem keeps_initial (workers : Nat) (dictionary : Dictionary) :
    Keeps [] mode strategy x M U ∅ { strategy, mode, workers, dictionary } := by
  have hfact : ∀ row, ({} : Run).table.fact? row = none := fun row => by
    cases row with
    | zero => rfl
    | succ row => rfl
  refine ⟨⟨rfl, rfl, fun _ h => ?_⟩, rfl, ⟨fun row t h => ?_, fun row => ?_, fun t => ?_⟩, fun h => ?_⟩
  · cases h
  · cases (hfact row).symm.trans h
  · show (({} : Run).table.status row).any Status.merged = false
    rw [Table.status_of_none (hfact row), Bits.zero_any]
  · refine iff_of_false ?_ (Set.notMem_empty t)
    rintro ⟨row, hrow, -⟩
    cases (hfact row).symm.trans hrow
  · cases h

/-- What holds before the first materialization. -/
structure Fresh (e : Engine) : Prop where
  unindexed : e.index = none
  unmaterialized : e.materialized = false

theorem addRules_wp (added : List Rule) (h : Keeps rules mode strategy x M U E e) (hf : Fresh e) :
    WP (added.forM addRule) e fun _ e' =>
      Keeps (rules ++ added) mode strategy x M U E e' ∧ Fresh e' := by
  induction added generalizing rules e with
  | nil =>
    rw [List.append_nil]
    exact ⟨(), e, rfl, h, hf⟩
  | cons rule added ih =>
    refine WP.forM_cons.mpr (WP.modify_iff.mpr ?_)
    rw [List.append_cons]
    refine ih { h with rules_eq := ?_, index_eq := ?_, before_iff := ?_ } ⟨rfl, rfl⟩
    · rw [Array.toList_push, h.rules_eq]
    · rintro y ⟨⟩
    · rintro ⟨⟩

/-- A fact is asserted. -/
theorem addFact_wp (h : Keeps rules mode strategy x M U E e) (hf : Fresh e) (ht : t ∈ U) :
    WP (addFact t) e fun _ e' =>
      Keeps rules mode strategy x M U {u | u ∈ E ∨ u = t} e' ∧ Fresh e' := by
  obtain ⟨row, T, hadd, hT⟩ := Table.add_stores Bits.isBit_asserted e.run.table t
  refine WP.modify_iff.mpr ?_
  rw [hadd]
  refine ⟨{ h with stored := ⟨fun row u hu => ?_, fun row => ?_, fun u => ?_⟩, before_iff := ?_ }, hf.1, ?_⟩
  · rcases hT.old row u hu with hu | rfl
    · exact h.stored.facts row u hu
    · exact ht
  · exact (hT.status row Status.merged rfl).trans
      (by rw [h.stored.unmerged, show Status.asserted.any Status.merged = false from rfl]; simp)
  · refine (hT.holds_status_iff (b := Status.asserted) rfl).trans ?_
    exact or_congr (h.stored.asserted_iff u) (and_iff_right rfl)
  · rw [hf.unmaterialized]
    rintro ⟨⟩
  · show (e.materialized && _) = false
    rw [hf.unmaterialized, Bool.false_and]

theorem addFacts_wp (added : List Triple) (h : Keeps rules mode strategy x M U E e) (hf : Fresh e)
    (hall : ∀ t ∈ added, t ∈ U) :
    WP (added.forM addFact) e fun _ e' =>
      Keeps rules mode strategy x M U {u | u ∈ E ∨ u ∈ added} e' := by
  induction added generalizing E e with
  | nil =>
    simp only [List.not_mem_nil, or_false]
    exact ⟨(), e, rfl, h⟩
  | cons t added ih =>
    refine WP.forM_cons.mpr ?_
    refine (addFact_wp h hf (hall t List.mem_cons_self)).mono ?_
    rintro _ e₁ ⟨h₁, hf₁⟩
    refine (ih h₁ hf₁ fun u hu => hall u (List.mem_cons_of_mem _ hu)).mono fun _ e₂ h₂ => ?_
    have hE : {u | u ∈ E ∨ u ∈ t :: added} = {u | u ∈ {u | u ∈ E ∨ u = t} ∨ u ∈ added} := by
      ext u
      simp only [List.mem_cons, Set.mem_ofPred_eq, or_assoc]
    rw [hE]
    exact h₂

/-! ## A session -/

/-- After each batch the materialization is what the rules make of the asserted facts. -/
theorem applyBatches_wp (hr : Setting rules mode x M) (hU : Universe rules U N) (hroom : N < Marks.room)
    (hs : Reliable rules mode strategy x) (h : Keeps rules mode strategy x M U E e)
    (hall : ∀ b ∈ batches, ∀ t ∈ b.assertions, t ∈ U) :
    WP (applyBatches batches) e fun results _ =>
      List.Forall₂ (fun facts base => ∀ t, t ∈ facts ↔ t ∈ M base) results (bases E batches) := by
  induction batches generalizing E e with
  | nil => exact WP.pure_iff.mpr .nil
  | cons b batches ih =>
    rw [applyBatches, WP.bind_iff, WP.discard_iff]
    refine (applyChanges_wp hr hU hroom hs h (hall b List.mem_cons_self) b.monitored).mono ?_
    rintro stats e₁ ⟨_, h₁, hm₁⟩
    rw [WP.bind_iff, WP.get_iff, WP.bind_iff]
    refine (ih h₁ fun b' hb' => hall b' (List.mem_cons_of_mem _ hb')).mono
      fun later e₂ hlater => WP.pure_iff.mpr (.cons (fun t => ?_) hlater)
    rw [mem_facts]
    exact h₁.before_iff hm₁ t

/-- Rules and facts are given to an engine without any. -/
theorem setUp_wp (rules : List Rule) (facts : List Triple) (batches : List Batch) (workers : Nat)
    (dictionary : Dictionary) :
    WP (do
      rules.forM addRule
      facts.forM addFact) { strategy, mode, workers, dictionary } fun _ e =>
      Keeps rules mode strategy x M (leastModel rules {t | t ∈ everAsserted facts batches})
        {t | t ∈ facts} e := by
  let U := leastModel rules {t | t ∈ everAsserted facts batches}
  rw [WP.bind_iff]
  refine (addRules_wp rules (keeps_initial (x := x) (M := M) (U := U) workers dictionary) ⟨rfl, rfl⟩).mono ?_
  rintro _ e₁ ⟨h₁, hf₁⟩
  refine (addFacts_wp facts h₁ hf₁ fun t ht =>
    subset_leastModel (List.mem_append_left _ ht)).mono fun _ e₂ h₂ => ?_
  have hE : {t | t ∈ facts} = {t | t ∈ (∅ : Set Triple) ∨ t ∈ facts} := by
    ext t
    simp only [Set.mem_ofPred_eq, Set.mem_empty_iff_false, false_or]
  rwa [hE]

/-- A strategy that deletes what has lost its support agrees with recomputation. -/
theorem Setting.session_wp (hr : Setting rules mode x M) (hfits : Fits rules facts batches)
    (hs : Reliable rules mode strategy x) (workers : Nat) (dictionary : Dictionary) :
    WP (session rules facts batches) { strategy, mode, workers, dictionary } fun results _ =>
      List.Forall₂ (fun facts base => ∀ t, t ∈ facts ↔ t ∈ M base) results
        (bases {t | t ∈ facts} batches) := by
  rw [session, ← bind_assoc, WP.bind_iff]
  refine (setUp_wp (x := x) (M := M) rules facts batches workers dictionary).mono fun _ e h => ?_
  exact applyBatches_wp hr hfits.universe_room (Nat.sub_one_lt (by decide)) hs h
    fun _ hb _ => asserted_mem_leastModel hb

/-- Without negation the materialization is the least model after each batch. -/
theorem Maintainable.session_wp (hr : Maintainable rules mode) (hfits : Fits rules facts batches)
    (hs : ∀ x, RuleIndex.Builds rules mode.usesLevels x → Reliable rules mode strategy x)
    (workers : Nat) (dictionary : Dictionary) :
    WP (session rules facts batches) { strategy, mode, workers, dictionary } fun results _ =>
      List.Forall₂ (Agrees rules) results (bases {t | t ∈ facts} batches) := by
  obtain ⟨x, hx⟩ := hr.exists_index
  exact (hr.setting hx).session_wp hfits (hs x hx) workers dictionary

end Entail.Engine
