import Entail.Proofs.Equality.Rounds
import Entail.Proofs.Recomputation

/-!
# Recomputation with equality

With equality and without unique names, `Engine.materialize` makes the equality closure of the asserted
facts, whatever the engine was asked for before, as long as `owl:sameAs` stays its own representative
(`Engine.materialize_closes`), which it does if it is equal to nothing else in the closure
(`Engine.materialize_represents`). A fact is looked up by its normal form, and the facts of the
materialization are written that way (`Engine.materialize_normalizes`).

Literals and unique names make some equalities clash, and each clash adds a fact. `Engine.materialize_fills`
is about any set that is closed under this too (`Engine.ClosedIn`). Whatever clashes in a class is recorded,
unless the class has blank nodes (`Engine.materialize_records`).
-/

namespace Entail.Engine

variable {e : Engine} {t u : Triple}

/-- With equality a fact is looked up by its normal form. -/
theorem contains_iff (h : e.mode.equality.enabled = true) :
    e.contains t = true ↔ e.run.Before (e.run.steady.normalizeTriple t) := by
  rw [contains, if_pos h]
  exact any_statusOf_iff

theorem isAsserted_addFact :
    (afterwards (addFact t) e).isAsserted u = true ↔ e.isAsserted u = true ∨ u = t := by
  obtain ⟨row, T, hadd, hT⟩ := Table.add_stores Bits.isBit_asserted e.run.table t
  have htable : (afterwards (addFact t) e).run.table = T := congrArg (·.2) hadd
  rw [isAsserted_iff, isAsserted_iff, Run.Asserted, htable]
  exact (hT.holds_status_iff rfl).trans (or_congr_right (and_iff_right rfl))

/-- The rules of an engine with equality were read from texts and have no negation. What they conclude
and what is asserted is about resources of the dictionary. -/
structure Equalizes (e : Engine) : Prop where
  enabled : e.mode.equality.enabled = true
  parsed : ∀ r ∈ e.rules.toList, r.Parsed
  positive : ∀ r ∈ e.rules.toList, r.hasNegation = false
  concluded : ∀ r ∈ e.rules.toList, ∀ a ∈ r.head, ∀ id ∈ a.constants,
    (e.dictionary.resource? id).isSome = true
  asserted (t : Triple) (h : e.isAsserted t = true) (p : Position) :
    (e.dictionary.resource? (t.get p)).isSome = true
  /-- There is room for a class of every resource. -/
  room : e.dictionary.size + 1 < Classes.sizeLimit

/-- An engine that `Equalizes` with neither literals nor unique names, so that nothing clashes. -/
structure Equates (e : Engine) : Prop where
  equality : e.mode.equality = .noUna
  parsed : ∀ r ∈ e.rules.toList, r.Parsed
  positive : ∀ r ∈ e.rules.toList, r.hasNegation = false
  concluded : ∀ r ∈ e.rules.toList, ∀ a ∈ r.head, ∀ id ∈ a.constants,
    (e.dictionary.resource? id).isSome = true
  asserted (t : Triple) (h : e.isAsserted t = true) (p : Position) :
    (e.dictionary.resource? (t.get p)).isSome = true
  literals (id : Nat) : e.dictionary.kind? id ≠ some .literal
  /-- There is room for a class of every resource. -/
  room : e.dictionary.size + 1 < Classes.sizeLimit

/-- The facts about ids that resources of the dictionary and of the vocabulary have. -/
def known (e : Engine) : Set Triple :=
  {t | ∀ p, t.get p ≠ 0 ∧ t.get p ≤ max nothingId e.dictionary.size}

/-- A set of facts is closed under rules and equality, and under what is recorded of clashes. -/
structure ClosedIn (e : Engine) (C : Set Triple) : Prop where
  closed : EquallyClosed e.rules.toList C
  clashes (a b : Nat) (h : .sameAs a b ∈ C) (ha : e.dictionary.Apart e.mode.equality.uniqueNames a b) :
    ⟨b, rdfTypeId, nothingId⟩ ∈ C
  subset_known : C ⊆ e.known

namespace Equalizes

variable (h : Equalizes e)

include h

theorem exists_index (hi : Indexed e) : ∃ x, RuleIndex.Builds e.rules.toList false x ∧ x.Definite ∧
    buildIndex e.rules.toList e.mode = .ok x ∧ Loaded e.rules.toList e.mode x e := by
  have hlevels : e.mode.usesLevels = false := by
    rw [Mode.usesLevels, h.enabled]
    exact Bool.and_false _
  obtain ⟨x, hx⟩ : ∃ x, RuleIndex.Builds e.rules.toList false x := ⟨_, rfl⟩
  have hd : x.Definite := fun rule i hi =>
    have hmem := (hx.rule_mem hi).1
    ⟨(h.parsed _ hmem).safe, h.positive _ hmem⟩
  have hbuild := buildIndex_of_definite (hlevels ▸ hx) fun _ => hd
  exact ⟨x, hx, hd, hbuild, hi.loaded hbuild⟩

theorem asserted_known (ht : e.isAsserted t = true) : t ∈ e.known := fun p => by
  obtain ⟨hpos, hle⟩ := Dictionary.isSome_resource?_iff.mp (h.asserted t ht p)
  exact ⟨hpos, hle.trans (Nat.le_max_right _ _)⟩

/-- Rules, equality and clashes conclude facts about resources of the dictionary only. -/
theorem closedIn_known : ClosedIn e e.known where
  closed := by
    refine equallyClosed_forall (P := fun id => id ≠ 0 ∧ id ≤ max nothingId e.dictionary.size)
      ⟨by decide, (by decide : sameAsId ≤ nothingId).trans (Nat.le_max_left _ _)⟩
      fun r hr => ⟨(h.parsed r hr).safe, fun a ha id hid => ?_⟩
    obtain ⟨hpos, hle⟩ := Dictionary.isSome_resource?_iff.mp (h.concluded r hr a ha id hid)
    exact ⟨hpos, hle.trans (Nat.le_max_right _ _)⟩
  clashes a b hab _ p := by
    cases p with
    | subject => exact hab .object
    | predicate => exact ⟨Nat.one_ne_zero, (by decide : rdfTypeId ≤ nothingId).trans (Nat.le_max_left _ _)⟩
    | object => exact ⟨Nat.succ_ne_zero _, Nat.le_max_left _ _⟩
  subset_known := subset_rfl

theorem equating {C : Set Triple} (hC : ClosedIn e C) {x : RuleIndex}
    (hx : RuleIndex.Builds e.rules.toList false x) (hd : x.Definite) :
    (e.context x false .never).Equating e.rules.toList C (max nothingId e.dictionary.size) where
  enabled := h.enabled
  builds := hx
  definite := hd
  stop := rfl
  clashes := hC.clashes
  closed := hC.closed
  known _ ht := hC.subset_known ht
  bound_le := le_rfl
  room := by
    have hroom := h.room
    have hfour : nothingId + 1 < Classes.sizeLimit := by decide
    omega

end Equalizes

/-- Materialization ends when rules and equality lead to nothing new. Facts that stand then are in every
closed set with the asserted facts. -/
theorem materialize_fills (hreach : Reachable e) (h : Equalizes e) {C : Set Triple} (hC : ClosedIn e C)
    (hbase : ∀ t, e.isAsserted t = true → t ∈ C) :
    WP materialize e fun _ e' => e'.mode = e.mode ∧ e'.run.Normal ∧
      Equality.Saturated e.rules.toList e'.run ∧
      Equality.Filling C (max nothingId e.dictionary.size) e'.run ∧
      (∀ t, e.isAsserted t = true → e'.run.Stands t) ∧
      ∀ x, Equality.Recorded (e.context x false .never) e'.run := by
  obtain ⟨x, hx, hd, hbuild, hloaded⟩ := h.exists_index hreach.indexed
  refine materialize_wp_of_cleared hbuild hloaded fun journal T hT => ?_
  obtain ⟨hstored, hnone⟩ := Cleared.stored (r := e.run) hT journal fun _ _ _ => Set.mem_univ _
  refine (Equality.materialize_wp (h.equating hC hx hd) rfl hnone fun t ht => ?_).mono ?_
  · exact hbase t (isAsserted_iff.mpr ((hstored.asserted_iff t).mp ht))
  rintro size r ⟨hfilling, hnormal, hsaturated, hstands, hrecorded⟩
  refine ⟨rfl, hnormal, hsaturated, hfilling, fun t ht => ?_, fun _ => hrecorded⟩
  exact hstands t ((hstored.asserted_iff t).mpr (isAsserted_iff.mp ht))

/-- Clashes are recorded: if all resources of a class have names and two of them are apart, its
representative is stated to be of the type `owl:Nothing`. -/
theorem materialize_records (hreach : Reachable e) (h : Equalizes e) :
    WP materialize e fun _ e' => ∀ a b, e.dictionary.Apart e.mode.equality.uniqueNames a b →
      e'.representative a = e'.representative b →
      (∀ id, e'.representative id = e'.representative a → e.dictionary.Named id) →
      e'.contains ⟨e'.representative a, rdfTypeId, nothingId⟩ = true := by
  refine (materialize_fills hreach h h.closedIn_known fun t => h.asserted_known).mono ?_
  rintro size e' ⟨hmode, hnormal, -, hfilling, -, hrecorded⟩ a b hab he hnamed
  have hstands := hrecorded default a b hab he hnamed
  refine (contains_iff (hmode ▸ h.enabled)).mpr (hnormal.stands_iff.mp (hstands.congr ?_))
  simp only [Classes.normalizeTriple, Three.map, representative, hfilling.forest.normalize_normalize]

namespace Equates

variable (h : Equates e)

include h

theorem equalizes : Equalizes e where
  enabled := by
    rw [h.equality]
    rfl
  parsed := h.parsed
  positive := h.positive
  concluded := h.concluded
  asserted := h.asserted
  room := h.room

/-- Without literals and unique names nothing clashes. -/
theorem not_apart {a b : Nat} : ¬ e.dictionary.Apart e.mode.equality.uniqueNames a b := fun ha => by
  have hkind : ∀ id, e.dictionary.mergeKind id ≠ .literal := fun id h' => by
    rw [Dictionary.mergeKind, Option.getD_eq_iff] at h'
    rcases h' with h' | ⟨-, h'⟩
    · exact h.literals id h'
    · cases h'
  rcases ha.kinds with hunique | hliteral | hliteral
  · rw [h.equality] at hunique
    cases hunique
  · exact hkind _ hliteral
  · exact hkind _ hliteral

/-- The closure of the asserted facts is about resources of the dictionary. -/
theorem closedIn : ClosedIn e (equalityClosure e.rules.toList {t | e.isAsserted t = true}) where
  closed := equallyClosed_equalityClosure
  clashes _ _ _ ha := absurd ha h.not_apart
  subset_known := equalityClosure_subset (fun _ => h.equalizes.asserted_known)
    h.equalizes.closedIn_known.closed

end Equates

/-- Materialization ends when rules and equality lead to nothing new. The facts that stand then are those
of the closure of the asserted facts, if `owl:sameAs` is its own representative. -/
theorem materialize_stands (hreach : Reachable e) (h : Equates e) :
    WP materialize e fun _ e' => e'.mode = e.mode ∧ e'.run.Normal ∧
      Equality.Saturated e.rules.toList e'.run ∧
      Equality.Filling (equalityClosure e.rules.toList {t | e.isAsserted t = true})
        (max nothingId e.dictionary.size) e'.run ∧
      (e'.representative sameAsId = sameAsId → ∀ t, e'.run.Stands t ↔
        t ∈ equalityClosure e.rules.toList {t | e.isAsserted t = true}) := by
  obtain ⟨x, hx, hd, -, -⟩ := h.equalizes.exists_index hreach.indexed
  refine (materialize_fills hreach h.equalizes h.closedIn fun t ht => subset_equalityClosure ht).mono ?_
  rintro size e' ⟨hmode, hnormal, hsaturated, hfilling, hstands, -⟩
  refine ⟨hmode, hnormal, hsaturated, hfilling, fun hsame t =>
    ⟨hfilling.mem_of_stands (h.equalizes.equating h.closedIn hx hd), fun ht => ?_⟩⟩
  exact equalityClosure_subset hstands (hsaturated.equallyClosed hfilling hnormal hsame) ht

/-- A resource is represented by one that it is equal to in the closure of the asserted facts. So
`owl:sameAs` represents itself if it is equal to nothing else there. -/
theorem materialize_represents (hreach : Reachable e) (h : Equates e) :
    WP materialize e fun _ e' =>
      (∀ a, EqualIn (equalityClosure e.rules.toList {t | e.isAsserted t = true}) a (e'.representative a)) ∧
      ((∀ id, .sameAs sameAsId id ∈ equalityClosure e.rules.toList {t | e.isAsserted t = true} →
        id = sameAsId) → e'.representative sameAsId = sameAsId) := by
  refine (materialize_stands hreach h).mono ?_
  rintro size e' ⟨-, -, -, hfilling, -⟩
  refine ⟨hfilling.equal, fun hself => ?_⟩
  rcases hfilling.equal sameAsId with he | he
  · exact he.symm
  · exact hself _ he

/-- The materialization is written by representatives: its facts are in normal form, none of them equates
two resources, and if `owl:sameAs` represents itself, resources have one representative exactly if they are
equal in the closure of the asserted facts. -/
theorem materialize_normalizes (hreach : Reachable e) (h : Equates e) :
    WP materialize e fun _ e' =>
      (∀ t, e'.run.Before t → ∀ p, e'.representative (t.get p) = t.get p) ∧
      (∀ a b, e'.run.Before (.sameAs a b) → a = b) ∧
      (e'.representative sameAsId = sameAsId → ∀ a b, e'.representative a = e'.representative b ↔
        EqualIn (equalityClosure e.rules.toList {t | e.isAsserted t = true}) a b) := by
  obtain ⟨x, hx, hd, -, -⟩ := h.equalizes.exists_index hreach.indexed
  refine (materialize_stands hreach h).mono ?_
  rintro size e' ⟨-, hnormal, hsaturated, hfilling, hstands⟩
  refine ⟨fun t ht p => ?_, fun a b => hsaturated.eq_of_sameAs hnormal, fun hsame a b => ?_⟩
  · exact (Classes.get_normalizeTriple ..).symm.trans (congrArg (Three.get · p) (hnormal t ht))
  · exact hsaturated.normalize_eq_iff (h.equalizes.equating h.closedIn hx hd) hfilling hnormal hsame
      fun t => (hstands hsame t).mpr

/-- What is materialized is the equality closure of the asserted facts, whatever the engine was asked
for before, if `owl:sameAs` is its own representative in the end. -/
theorem materialize_closes (hreach : Reachable e) (h : Equates e) :
    WP materialize e fun _ e' => e'.representative sameAsId = sameAsId →
      ∀ t, e'.contains t = true ↔ t ∈ equalityClosure e.rules.toList {t | e.isAsserted t = true} := by
  refine (materialize_stands hreach h).mono ?_
  rintro size e' ⟨hmode, hnormal, -, -, hstands⟩ hsame t
  exact (contains_iff (hmode ▸ h.equalizes.enabled)).trans
    (hnormal.stands_iff.symm.trans (hstands hsame t))

/-- Whoever knows somebody is known by them. -/
def knowing : Rule where
  head := [⟨.var 0, .const 6, .var 1⟩]
  body := [.positive ⟨.var 1, .const 6, .var 0⟩]
  level := 0
  names := ["x", "y"]

/-- Two names of one person, a relation and another person. -/
def people : List Resource := [.iri "Tom", .iri "Thomas", .iri "knows", .iri "Ann"]

/-- An engine with equality that was told who knows whom. -/
def acquainted : Engine :=
  [.addRule knowing, .addFact ⟨4, 2, 5⟩, .addFact ⟨5, 6, 7⟩].foldl
    (fun e (c : Call) => afterwards c.action e)
    { mode := { equality := .noUna },
      dictionary := people.foldl (fun d r => (d.intern r).2) .vocabulary }

theorem resources_acquainted : acquainted.dictionary.resources.toList =
    [.rdfType, .owlSameAs, .owlNothing] ++ people := by
  rw [← Dictionary.resources_vocabulary]
  exact Dictionary.resources_internAll (by rw [Dictionary.resources_vocabulary]; decide)

theorem equates_acquainted : Equates acquainted := by
  have hsize : acquainted.dictionary.size = 7 := by
    rw [Dictionary.size, ← Array.length_toList, resources_acquainted]
    rfl
  have hknown : ∀ {id}, id ≠ 0 ∧ id ≤ 7 → (acquainted.dictionary.resource? id).isSome = true :=
    fun hid => Dictionary.isSome_resource?_iff.mpr (hsize ▸ hid)
  have hrules : ∀ r ∈ acquainted.rules.toList, r = knowing := fun r hr => List.mem_singleton.mp hr
  refine ⟨rfl, ?_, ?_, ?_, fun t ht p => ?_, fun id hid => ?_, ?_⟩
  · rintro r hr
    obtain rfl := hrules r hr
    obtain ⟨d, hd⟩ := Dictionary.exists_ids (l := [.rdfType, .owlSameAs, .owlNothing, .iri "Tom",
      .iri "Thomas", .iri "knows"]) (by decide)
    have hknows := hd 5 (.iri "knows") rfl
    refine ⟨"?x knows ?y :- ?y knows ?x", d, d, ?_⟩
    cbv
    grind
  · rintro r hr
    obtain rfl := hrules r hr
    rfl
  · rintro r hr
    obtain rfl := hrules r hr
    have hids : ∀ a ∈ knowing.head, ∀ id ∈ a.constants, id ≠ 0 ∧ id ≤ 7 := by decide
    exact fun a ha id hid => hknown (hids a ha id hid)
  · rcases isAsserted_addFact.mp ht with ht | rfl
    · rcases isAsserted_addFact.mp ht with ht | rfl
      · obtain ⟨row, hrow, -⟩ := isAsserted_iff.mp ht
        cases row <;> cases hrow
      · cases p <;> exact hknown (by decide)
    · cases p <;> exact hknown (by decide)
  · obtain ⟨r, hr, hkind⟩ := Option.map_eq_some_iff.mp hid
    have hmem := Dictionary.mem_resources hr
    rw [resources_acquainted] at hmem
    have hiri : ∀ r ∈ [Resource.rdfType, .owlSameAs, .owlNothing] ++ people, r.kind = .iri := by decide
    rw [hiri r hmem] at hkind
    cases hkind
  · rw [hsize]
    decide

theorem materialize_closes_acquainted :
    WP materialize acquainted fun _ e' => e'.representative sameAsId = sameAsId →
      ∀ t, e'.contains t = true ↔
        t ∈ equalityClosure acquainted.rules.toList {t | acquainted.isAsserted t = true} :=
  materialize_closes (e := acquainted)
    (.call (.addFact ⟨5, 6, 7⟩) (.call (.addFact ⟨4, 2, 5⟩) (.call (.addRule knowing) (.start rfl))))
    equates_acquainted

end Entail.Engine
