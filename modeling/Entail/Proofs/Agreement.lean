import Mathlib
import Entail.Proofs.Dictionary
import Entail.Proofs.Rule.PerfectModel
import Entail.Proofs.Session

/-!
# Agreement with recomputation

Whatever facts are asserted and retracted, the materialization that is maintained is the one that would
be computed from scratch. Without negation it is the least model: with DRed (`dred_agrees`), and with
FBF if levels are not in use (`fbf_agrees`). There FBF deletes exactly what has lost its support
(`search_deletes_unsupported`). If negated literals are single atoms that have their variables from
positive ones, DRed maintains the perfect model level by level (`dred_agrees_perfectly`), and so does FBF
if its proofs do not lead to lower levels (`fbf_agrees_perfectly`).

All this is about tasks that one worker does. The number of workers is that which tasks announce, and
the results hold for any because nothing else depends on it.
-/

namespace Entail.Engine

open Maintenance

variable {rules : List Rule} {mode : Mode} {facts : List Triple} {batches : List Batch}

/-! ## DRed -/

/-- DRed agrees with recomputation after each batch. -/
theorem dred_agrees (hr : Maintainable rules mode) (hfits : Fits rules facts batches) (workers : Nat)
    (dictionary : Dictionary) :
    WP (session rules facts batches) { strategy := .dred, mode, workers, dictionary }
      fun results _ => List.Forall₂ (Agrees rules) results (bases {t | t ∈ facts} batches) :=
  hr.session_wp hfits (fun _ _ _ _ _ _ _ hv => deletes_of_dred hv) workers dictionary

/-- Whatever predicates are transitive. -/
def transitive : Rule where
  head := [⟨.var 0, .var 1, .var 2⟩]
  body := [.positive ⟨.var 0, .var 1, .var 3⟩, .positive ⟨.var 3, .var 1, .var 2⟩]
  level := 0
  names := ["x", "p", "z", "y"]

theorem maintainable_transitive (byLevels : Bool) : Maintainable [transitive] { byLevels } where
  parsed := by
    rintro r hr
    rw [List.mem_singleton.mp hr]
    exact ⟨"?x ?p ?z :- ?x ?p ?y , ?y ?p ?z", .vocabulary, _, by cbv⟩
  positive := by decide
  equality := rfl
  stratified _ := ⟨_, rfl⟩
  fit _ := by
    rintro r hr
    rw [List.mem_singleton.mp hr]
    decide

/-- Two batches of changes: a fact that stays derivable is retracted, and then one that it is derived from. -/
def transitiveBatches : List Batch :=
  [⟨[⟨1, 9, 3⟩], [⟨3, 9, 1⟩], true⟩, ⟨[⟨1, 9, 2⟩], [], true⟩]

theorem fits_transitive :
    Fits [transitive] [⟨1, 9, 2⟩, ⟨2, 9, 3⟩, ⟨1, 9, 3⟩] transitiveBatches :=
  Fits.of_within (n := 9) (maintainable_transitive true).parsed (by decide) (by decide) (by decide)

theorem dred_agrees_transitive :
    WP (session [transitive] [⟨1, 9, 2⟩, ⟨2, 9, 3⟩, ⟨1, 9, 3⟩] transitiveBatches) { strategy := .dred }
      fun results _ => List.Forall₂ (Agrees [transitive]) results
        (bases {t | t ∈ [⟨1, 9, 2⟩, ⟨2, 9, 3⟩, ⟨1, 9, 3⟩]} transitiveBatches) :=
  dred_agrees (maintainable_transitive true) fits_transitive 1 .vocabulary

/-! ## DRed with negation -/

/-- Rules that were read from texts and can be maintained by levels, whose negated literals are single
atoms that have their variables from positive ones. -/
structure Stratified (rules : List Rule) : Prop where
  parsed : ∀ r ∈ rules, r.Parsed
  single : ∀ r ∈ rules, ∀ atoms, .negative atoms ∈ r.body →
    ∃ a, atoms = [a] ∧ ∀ v ∈ a.vars, v ∈ Rule.boundVariables r.body
  accepted : ∃ x, RuleIndex.build rules true = .ok x
  /-- There is room for the work lists of every level. -/
  fit : ∀ r ∈ rules, r.level + 1 < Update.levelLimit

/-- What the rules make of base facts is the perfect model. -/
theorem Stratified.exists_setting (h : Stratified rules) :
    ∃ x, Setting rules {} x (perfectModel rules) := by
  obtain ⟨x, hx⟩ := h.accepted
  have hx : RuleIndex.Builds rules true x := hx
  have hsimple : x.Simple := fun _ i hi =>
    have hmem := (hx.rule_mem hi).1
    ⟨(h.parsed _ hmem).safe, h.single _ hmem⟩
  exact ⟨x, {
    builds := hx
    equality := rfl
    safe := hsimple.safe
    definite := fun hu => by cases hu
    fit := fun _ r hr => Nat.lt_of_succ_lt (h.fit r hr)
    models := fun _ => hx.models_perfectModel
    simple := hsimple
    spare := fun _ => h.fit }⟩

/-- Facts are the perfect model of rules over base facts. -/
def AgreesPerfectly (rules : List Rule) (facts : List Triple) (base : Set Triple) : Prop :=
  ∀ t, t ∈ facts ↔ t ∈ perfectModel rules base

/-- With simple negation DRed agrees with recomputation by levels after each batch. -/
theorem dred_agrees_perfectly (hr : Stratified rules) (hfits : Fits rules facts batches)
    (workers : Nat) (dictionary : Dictionary) :
    WP (session rules facts batches)
      { strategy := .dred, mode := { equality := .off, byLevels := true }, workers, dictionary }
      fun results _ =>
        List.Forall₂ (AgreesPerfectly rules) results (bases {t | t ∈ facts} batches) := by
  obtain ⟨x, hx⟩ := hr.exists_setting
  exact hx.session_wp hfits (fun _ _ _ _ _ hv => deletes_of_dred hv) workers dictionary

/-- What is linked is linked over steps, and what is named but not linked is apart. -/
def apart : List Rule :=
  [{ head := [⟨.var 0, .const 4, .var 1⟩]
     body := [.positive ⟨.var 0, .const 4, .var 2⟩, .positive ⟨.var 2, .const 4, .var 1⟩]
     level := 0
     names := ["x", "z", "y"] },
   { head := [⟨.var 0, .const 5, .var 1⟩]
     body := [.positive ⟨.var 0, .const 6, .var 1⟩, .negative [⟨.var 0, .const 4, .var 1⟩]]
     level := 1
     names := ["x", "y"] }]

theorem stratified_apart : Stratified apart where
  parsed := by
    obtain ⟨d, hd⟩ := Dictionary.exists_ids (l := [.rdfType, .owlSameAs, .owlNothing, .iri "linked",
      .iri "apart", .iri "named"]) (by decide)
    have hlinked := hd 3 (.iri "linked") rfl
    have happart := hd 4 (.iri "apart") rfl
    have hnamed := hd 5 (.iri "named") rfl
    rintro r hr
    rcases List.mem_pair.mp hr with rfl | rfl
    · refine ⟨"?x linked ?z :- ?x linked ?y , ?y linked ?z", d, d, ?_⟩
      cbv
      grind
    · refine ⟨"?x apart ?y :- ?x named ?y , not ?x linked ?y", d, d, ?_⟩
      cbv
      grind
  single := by
    rintro r hr atoms hatoms
    rcases List.mem_pair.mp hr with rfl | rfl
    · simp at hatoms
    · simp only [List.mem_cons, reduceCtorEq, Literal.negative.injEq, List.not_mem_nil, or_false,
        false_or] at hatoms
      exact ⟨_, hatoms, by decide⟩
  accepted := ⟨_, rfl⟩
  fit := by
    rintro r hr
    rcases List.mem_pair.mp hr with rfl | rfl <;> decide

/-- Two batches of changes: a link over steps is lost, and then another one appears. -/
def apartBatches : List Batch :=
  [⟨[⟨8, 4, 9⟩], [], true⟩, ⟨[], [⟨8, 4, 7⟩], true⟩]

theorem dred_agrees_perfectly_apart :
    WP (session apart [⟨7, 4, 8⟩, ⟨8, 4, 9⟩, ⟨7, 6, 9⟩, ⟨8, 6, 7⟩] apartBatches)
      { strategy := .dred, mode := { equality := .off, byLevels := true } }
      fun results _ => List.Forall₂ (AgreesPerfectly apart) results
        (bases {t | t ∈ [⟨7, 4, 8⟩, ⟨8, 4, 9⟩, ⟨7, 6, 9⟩, ⟨8, 6, 7⟩]} apartBatches) :=
  dred_agrees_perfectly stratified_apart
    (.of_within (n := 9) stratified_apart.parsed (by decide) (by decide) (by decide)) 1 .vocabulary

/-! ## FBF with negation -/

/-- With simple negation FBF agrees with recomputation by levels after each batch, if the rules whose
heads unify with a supporting literal are of the level of its rule. -/
theorem fbf_agrees_perfectly (hr : Stratified rules) {x : RuleIndex}
    (hx : RuleIndex.build rules true = .ok x) (hhom : x.Homogeneous) (hfits : Fits rules facts batches)
    (workers : Nat) (dictionary : Dictionary) :
    WP (session rules facts batches)
      { strategy := .fbf, mode := { equality := .off, byLevels := true }, workers, dictionary }
      fun results _ =>
        List.Forall₂ (AgreesPerfectly rules) results (bases {t | t ∈ facts} batches) := by
  obtain ⟨y, hy⟩ := hr.exists_setting
  obtain rfl : y = x := Except.ok.inj (hy.builds.symm.trans hx)
  exact hy.session_wp hfits (fun _ _ _ _ _ hv => deletes_of_fbf hv fun _ _ hk h => h.owns hk hhom)
    workers dictionary

theorem fbf_agrees_perfectly_apart :
    WP (session apart [⟨7, 4, 8⟩, ⟨8, 4, 9⟩, ⟨7, 6, 9⟩, ⟨8, 6, 7⟩] apartBatches)
      { strategy := .fbf, mode := { equality := .off, byLevels := true } }
      fun results _ => List.Forall₂ (AgreesPerfectly apart) results
        (bases {t | t ∈ [⟨7, 4, 8⟩, ⟨8, 4, 9⟩, ⟨7, 6, 9⟩, ⟨8, 6, 7⟩]} apartBatches) :=
  fbf_agrees_perfectly stratified_apart rfl (by decide)
    (.of_within (n := 9) stratified_apart.parsed (by decide) (by decide) (by decide)) 1 .vocabulary

/-! ## FBF without levels -/

/-- Without levels FBF agrees with recomputation after each batch. -/
theorem fbf_agrees (hr : Maintainable rules mode) (hlevels : mode.byLevels = false)
    (hfits : Fits rules facts batches) (workers : Nat) (dictionary : Dictionary) :
    WP (session rules facts batches) { strategy := .fbf, mode, workers, dictionary }
      fun results _ => List.Forall₂ (Agrees rules) results (bases {t | t ∈ facts} batches) := by
  refine hr.session_wp hfits (fun x hx e monitored he v _ hv => ?_) workers dictionary
  refine deletes_of_fbf hv fun k r _ _ => owns_of_not_usesLevels ?_
  show e.mode.usesLevels = false
  rw [he, hr.usesLevels_eq, hlevels]

theorem fbf_agrees_transitive :
    WP (session [transitive] [⟨1, 9, 2⟩, ⟨2, 9, 3⟩, ⟨1, 9, 3⟩] transitiveBatches)
      { strategy := .fbf, mode := { byLevels := false } }
      fun results _ => List.Forall₂ (Agrees [transitive]) results
        (bases {t | t ∈ [⟨1, 9, 2⟩, ⟨2, 9, 3⟩, ⟨1, 9, 3⟩]} transitiveBatches) :=
  fbf_agrees (maintainable_transitive false) rfl fits_transitive 1 .vocabulary

/-- Once facts are retracted, a search deletes those facts of the materialization that do not follow
from its facts that are still asserted. -/
theorem search_deletes_unsupported {c : Context} (hr : Maintainable rules c.mode)
    (hlevels : c.mode.byLevels = false) (hx : RuleIndex.build rules false = .ok c.rules)
    (hstop : c.stop = .never) {r : Run} {U E : Set Triple} (hstored : r.Stored U E)
    (hI : ∀ t, r.Before t ↔ t ∈ leastModel rules E) (hroom : r.table.size < Marks.room)
    (hrunning : r.stopped = false) (retractions : List Triple) :
    WP (retracting c retractions) r fun _ r₁ => WP (Search.delete c none) r₁ fun _ r₂ =>
      ∀ t, r₂.Has Flag.Update.deleted t ↔ t ∈ leastModel rules E ∧
        t ∉ leastModel rules {t | t ∈ leastModel rules E ∧ r₁.Asserted t} := by
  have hu : c.mode.usesLevels = false := by rw [hr.usesLevels_eq, hlevels]
  have hc : c.Basic rules := hr.basic (by rwa [hu]) rfl hstop
  refine (retracting_wp hc hu hstored hI hroom hrunning retractions).mono ?_
  rintro _ r₁ ⟨h₁, hproved, hflags⟩
  refine (search_wp hc hu h₁ hproved hflags).mono fun _ r₂ h₂ t => ?_
  have hbase : {t | r₁.Before t ∧ (r₁.Asserted t ∨ c.rules.Below none t ∧ ¬ r₁.Gone t)} =
      {t | t ∈ leastModel rules E ∧ r₁.Asserted t} := by
    ext u
    simp only [Set.mem_ofPred_eq, h₁.before_iff, RuleIndex.not_below_none, false_and, or_false]
  rw [h₂ t, Search.provable, hbase]

/-- What tasks on `transitive` need to know. -/
def transitiveContext : Context where
  dictionary := .vocabulary
  rules := (RuleIndex.build [transitive] false).toOption.getD .empty
  mode := { byLevels := false }

/-- Facts of which each is derivable from the others. -/
def cycle : List Triple := [⟨1, 9, 2⟩, ⟨2, 9, 3⟩, ⟨3, 9, 1⟩, ⟨1, 9, 3⟩]

theorem search_deletes_unsupported_transitive :
    WP (do
      [transitive].forM addRule
      cycle.forM addFact
      materialize) { strategy := .fbf, mode := { byLevels := false } } fun _ e =>
      WP (retracting transitiveContext [⟨3, 9, 1⟩, ⟨1, 9, 3⟩]) { e.run with stopped := false }
        fun _ r₁ => WP (Search.delete transitiveContext none) r₁ fun _ r₂ =>
          ∀ t, r₂.Has Flag.Update.deleted t ↔ t ∈ leastModel [transitive] {t | t ∈ cycle} ∧
            t ∉ leastModel [transitive]
              {t | t ∈ leastModel [transitive] {t | t ∈ cycle} ∧ r₁.Asserted t} := by
  have hr := maintainable_transitive false
  have hfits : Fits [transitive] cycle [] := .of_within (n := 9) hr.parsed (by decide) (by decide) (by decide)
  obtain ⟨x, hx⟩ := hr.exists_index
  rw [← bind_assoc, WP.bind_iff]
  refine (setUp_wp (x := x) (M := leastModel [transitive]) [transitive] cycle [] 1
    .vocabulary).mono fun _ e₁ h₁ => ?_
  refine (materialize_wp (hr.setting hx) hfits.universe_room h₁).mono ?_
  rintro _ e₂ ⟨h₂, hm₂⟩
  exact search_deletes_unsupported (c := transitiveContext) hr rfl rfl rfl
    (r := { e₂.run with stopped := false }) { h₂.stored with } (h₂.before_iff hm₂)
    ((hfits.universe_room.size_le h₂.stored.facts).trans_lt (Nat.sub_one_lt (by decide))) rfl _

end Entail.Engine
