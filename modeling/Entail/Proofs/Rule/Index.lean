import Entail.Proofs.Rule.Bindings
import Entail.Rule.Application

/-!
# Levels of rules

`RuleIndex.Builds` says that an index was built from some rules. If it was built by levels, these are
a stratification of the facts: the rules of a level derive facts of that level only
(`Builds.scope_iff_at`), no other rules derive them, and they read facts of that level or below
(`Builds.below_or_at`), through negated literals only below (`Builds.below_of_blocker`). A literal
that can match facts of the level is supporting (`Builds.supporting_of_at`). Without levels, all of
this holds with one level for all facts.
-/

namespace Entail

namespace Atom

variable {a b : Atom} {classes : Option Classes} {t : Triple}

theorem indexingPattern_lt (a : Atom) : a.indexingPattern < 8 := by
  obtain ⟨s, p, o⟩ := a
  cases s <;> cases p <;> cases o <;>
    simp [indexingPattern, Position.all, Three.get, Term.isConst, Position.bit]

theorem mem_positions (p : Position) : p ∈ Position.all := by
  cases p <;> simp [Position.all]

/-- An atom accepts the facts that it can become. -/
theorem accepts_eq_true_iff : a.accepts classes t = true ↔ ∃ σ, a.groundIn classes σ = t := by
  simp only [accepts, List.all_eq_true]
  constructor
  · intro h
    refine ⟨fun v => ((Position.all.find? fun q => a.get q == .var v).map t.get).getD 0,
      Three.eq_of_get fun p => ?_⟩
    rw [get_groundIn]
    have hp := h p (mem_positions p)
    cases hg : a.get p with
    | const c => simpa [hg, Term.groundIn] using hp
    | var v =>
      rw [hg] at hp
      dsimp only at hp
      rw [List.all_eq_true] at hp
      simp only [Term.groundIn]
      cases hf : Position.all.find? fun q => a.get q == .var v with
      | none => simpa [hg] using List.find?_eq_none.mp hf p (mem_positions p)
      | some q =>
        have hq := List.find?_some hf
        have := hp q (mem_positions q)
        simp only [beq_iff_eq] at hq
        simpa [hq] using this
  · rintro ⟨σ, rfl⟩ p -
    rw [get_groundIn]
    cases hg : a.get p with
    | const c => simp [Term.groundIn]
    | var v =>
      dsimp only
      rw [List.all_eq_true]
      intro q _
      rw [get_groundIn]
      by_cases hq : a.get q = .var v <;> simp [hq]

theorem unifies_comm (a b : Atom) : a.unifies b = b.unifies a := by
  refine congrArg _ (funext fun p => ?_)
  cases a.get p <;> cases b.get p <;> simp only [Bool.beq_comm]

/-- Atoms that can become the same fact unify. -/
theorem unifies_of_ground {σ τ : Assignment} (h : a.groundIn none σ = b.groundIn none τ) :
    a.unifies b = true := by
  simp only [unifies, List.all_eq_true]
  intro p _
  have hp := congrArg (fun t => Three.get t p) h
  simp only [get_groundIn] at hp
  split
  · rename_i c d hc hd
    rw [hc, hd] at hp
    simpa [Term.groundIn, Classes.normalizeIn] using hp
  · rfl

end Atom

namespace Rule

variable {r : Rule} {classes : Option Classes} {σ : Assignment} {k : Nat} {t u : Triple}

/-- The literal with number `k` is positive, and an assignment turns it into a fact. -/
def Premise (r : Rule) (classes : Option Classes) (σ : Assignment) (k : Nat) (t : Triple) : Prop :=
  ∃ a, r.body[k]? = some (.positive a) ∧ a.groundIn classes σ = t

/-- An assignment turns an atom of the head into a fact. -/
def Concludes (r : Rule) (classes : Option Classes) (σ : Assignment) (t : Triple) : Prop :=
  ∃ a ∈ r.head, a.groundIn classes σ = t

/-- The literal with number `k` is a negated atom, and an assignment turns it into a fact. -/
def Blocker (r : Rule) (classes : Option Classes) (σ : Assignment) (k : Nat) (t : Triple) : Prop :=
  ∃ a, r.body[k]? = some (.negative [a]) ∧ a.groundIn classes σ = t

/-- A negated literal has no joint match, whatever its own variables stand for: some atom of it becomes
a fact that is not there. What is there is said for the number of the literal. -/
def Unmatched (r : Rule) (classes : Option Classes) (σ : Assignment) (P : Nat → Triple → Prop) : Prop :=
  ∀ k atoms, r.body[k]? = some (.negative atoms) → ∀ τ : Assignment,
    (∀ v ∈ boundVariables r.body, τ v = σ v) → ∃ a ∈ atoms, ¬ P k (a.groundIn classes τ)

/-- A safe rule whose negated literals are single atoms that have their variables from positive
literals. -/
structure Simple (r : Rule) : Prop where
  safe : r.Safe
  single : ∀ as, .negative as ∈ r.body → ∃ a, as = [a] ∧ ∀ v ∈ a.vars, v ∈ boundVariables r.body

/-- A safe rule without negation. -/
structure Definite (r : Rule) : Prop where
  safe : r.Safe
  positive : r.hasNegation = false

theorem Definite.eq_positive (h : r.Definite) {l : Literal} (hl : l ∈ r.body) :
    ∃ a, l = .positive a := by
  have := List.any_eq_false.mp h.positive l hl
  cases l with
  | positive a => exact ⟨a, rfl⟩
  | negative as => exact absurd rfl this

theorem Definite.simple (h : r.Definite) : r.Simple :=
  ⟨h.safe, fun as has => by
    obtain ⟨a, ha⟩ := h.eq_positive has
    cases ha⟩

theorem Definite.not_blocker (h : r.Definite) : ¬ r.Blocker classes σ k t := by
  rintro ⟨a, ha, -⟩
  obtain ⟨b, hb⟩ := h.eq_positive (List.mem_of_getElem? ha)
  cases hb

/-- Where negated literals are single atoms whose variables have values, they are about one fact each. -/
theorem Simple.unmatched_iff (h : r.Simple) {P : Nat → Triple → Prop} :
    r.Unmatched classes σ P ↔ ∀ k u, r.Blocker classes σ k u → ¬ P k u := by
  constructor
  · rintro hn k _ ⟨a, ha, rfl⟩
    obtain ⟨b, hb, hP⟩ := hn k [a] ha σ fun _ _ => rfl
    rwa [List.mem_singleton.mp hb] at hP
  · intro hn k atoms hk τ hτ
    obtain ⟨a, rfl, hvars⟩ := h.single atoms (List.mem_of_getElem? hk)
    refine ⟨a, List.mem_singleton.mpr rfl, ?_⟩
    rw [Atom.groundIn_congr fun v hv => hτ v (hvars v hv)]
    exact hn k _ ⟨a, hk, rfl⟩

theorem Unmatched.mono {P P' : Nat → Triple → Prop} (h : r.Unmatched classes σ P)
    (hP : ∀ k atoms, r.body[k]? = some (.negative atoms) → ∀ a ∈ atoms, ∀ τ,
      P' k (a.groundIn classes τ) → P k (a.groundIn classes τ)) : r.Unmatched classes σ P' := by
  intro k atoms hk τ hτ
  obtain ⟨a, ha, hn⟩ := h k atoms hk τ hτ
  exact ⟨a, ha, fun hp => hn (hP k atoms hk a ha τ hp)⟩

theorem Premise.unique (h : r.Premise classes σ k t) (h' : r.Premise classes σ k u) : t = u := by
  obtain ⟨a, ha, rfl⟩ := h
  obtain ⟨b, hb, rfl⟩ := h'
  rw [ha] at hb
  cases hb
  rfl

theorem Blocker.unique (h : r.Blocker classes σ k t) (h' : r.Blocker classes σ k u) : t = u := by
  obtain ⟨a, ha, rfl⟩ := h
  obtain ⟨b, hb, rfl⟩ := h'
  rw [ha] at hb
  cases hb
  rfl

theorem Blocker.not_premise (h : r.Blocker classes σ k t) : ¬ r.Premise classes σ k u := by
  obtain ⟨a, ha, -⟩ := h
  rintro ⟨b, hb, -⟩
  rw [ha] at hb
  cases hb

theorem closes_iff {X : Set Triple} :
    r.Closes X ↔
      ∀ σ t, (∀ k u, r.Premise none σ k u → u ∈ X) → r.Concludes none σ t → t ∈ X := by
  constructor
  · rintro h σ _ hb ⟨a, ha, rfl⟩
    rw [Atom.groundIn_none]
    refine h σ (fun b hb' => ?_) a ha
    obtain ⟨k, hk⟩ := List.mem_iff_getElem?.mp hb'
    exact hb k _ ⟨b, hk, Atom.groundIn_none b σ⟩
  · intro h σ hb a ha
    refine h σ _ (fun k u hu => ?_) ⟨a, ha, Atom.groundIn_none a σ⟩
    obtain ⟨b, hk, rfl⟩ := hu
    rw [Atom.groundIn_none]
    exact hb b (List.mem_of_getElem? hk)

/-- A rule makes facts of ids that its premises or its heads mention. -/
theorem closes_forall {P : Nat → Prop} (hr : r.Safe)
    (hc : ∀ a ∈ r.head, ∀ id ∈ a.constants, P id) : r.Closes {t | ∀ p, P (t.get p)} := by
  rw [closes_iff]
  rintro σ t hp ⟨a, ha, rfl⟩ p
  rw [Atom.get_groundIn]
  cases hg : a.get p with
  | const id => exact hc a ha id (Atom.mem_constants.mpr ⟨p, hg⟩)
  | var v =>
    obtain ⟨b, hb, hv⟩ := hr.bound a ha v (Atom.mem_vars.mpr ⟨p, hg⟩)
    obtain ⟨k, hk⟩ := List.mem_iff_getElem?.mp hb
    obtain ⟨q, hq⟩ := Atom.mem_vars.mp hv
    have := hp k _ ⟨b, hk, rfl⟩ q
    rwa [Atom.get_groundIn, hq] at this

end Rule

namespace RuleIndex

variable {rules : List Rule} {byLevels : Bool} {x : RuleIndex} {i : IndexedRule} {rule k : Nat}
  {level : Option Nat} {σ : Assignment} {t u : Triple}

/-- The index was built from rules. -/
def Builds (rules : List Rule) (byLevels : Bool) (x : RuleIndex) : Prop :=
  build rules byLevels = .ok x

/-- Every rule is safe and has only simple negation. -/
def Simple (x : RuleIndex) : Prop := ∀ (rule : Nat) i, x.rules[rule]? = some i → i.rule.Simple

/-- All rules are safe. -/
def Safe (x : RuleIndex) : Prop := ∀ (rule : Nat) i, x.rules[rule]? = some i → i.rule.Safe

/-- Every rule is safe and has no negation. -/
def Definite (x : RuleIndex) : Prop := ∀ (rule : Nat) i, x.rules[rule]? = some i → i.rule.Definite

theorem Definite.simple {x : RuleIndex} (h : x.Definite) : x.Simple :=
  fun rule i hi => (h rule i hi).simple

theorem Simple.safe {x : RuleIndex} (h : x.Simple) : x.Safe := fun rule i hi => (h rule i hi).safe

/-- Every rule with a head that unifies with a supporting literal of a rule is of the level of that
rule. -/
def Homogeneous (x : RuleIndex) : Prop :=
  ∀ i ∈ x.rules.toList, ∀ l ∈ i.rule.body.zip i.supporting, l.2 = true → ∀ a ∈ l.1.atoms,
    ∀ j ∈ x.rules.toList, ∀ h ∈ j.rule.head, h.unifies a = true → j.rule.level = i.rule.level

instance (x : RuleIndex) : Decidable x.Homogeneous :=
  inferInstanceAs (Decidable (∀ i ∈ x.rules.toList, _))

/-- A fact is of a level; without levels, every fact is. -/
def At (x : RuleIndex) (level : Option Nat) (t : Triple) : Prop :=
  ∀ l, level = some l → x.componentLevel t = l

/-- A fact is of a lower level. -/
def Below (x : RuleIndex) (level : Option Nat) (t : Triple) : Prop :=
  ∃ l, level = some l ∧ x.componentLevel t < l

theorem At.not_below (h : x.At level t) : ¬ x.Below level t := by
  rintro ⟨l, hl, hlt⟩
  have := h l hl
  omega

@[simp] theorem at_none : x.At none t := fun _ h => by cases h

@[simp] theorem not_below_none : ¬ x.Below none t := fun ⟨_, h, _⟩ => by cases h

theorem mem_inScope {scope : Scope} :
    (i, rule) ∈ x.inScope scope ↔ x.rules[rule]? = some i ∧ scope.includes i.rule.level = true := by
  simp only [inScope, List.mem_filter, List.mem_zipIdx_iff_getElem?, Array.getElem?_toList]

/-! ## The highest of some levels -/

theorem foldl_max_le {l : List Nat} {m n : Nat} :
    l.foldl max m ≤ n ↔ m ≤ n ∧ ∀ k ∈ l, k ≤ n := by
  induction l generalizing m with
  | nil => simp
  | cons a l ih =>
    rw [List.foldl_cons, ih, List.forall_mem_cons, Nat.max_le, and_assoc]

theorem highest_le {l : List Nat} {n : Nat} : highest l ≤ n ↔ ∀ k ∈ l, k ≤ n := by
  rw [highest, foldl_max_le]
  simp

theorem le_highest {l : List Nat} {n : Nat} (h : n ∈ l) : n ≤ highest l :=
  highest_le.mp le_rfl n h

theorem componentLevel_le_maxLevel (x : RuleIndex) (t : Triple) : x.componentLevel t ≤ x.maxLevel := by
  refine highest_le.mpr fun l hl => le_highest ?_
  obtain ⟨i, hi, rfl⟩ := List.mem_map.mp hl
  exact List.mem_map.mpr ⟨i, (List.mem_filter.mp hi).1, rfl⟩

theorem literalLevel_positive (rules : List Rule) (a : Atom) :
    literalLevel rules (.positive a) = headLevel rules a := by
  simp [literalLevel, Literal.atoms, highest]

theorem headLevel_le_literalLevel {atoms : List Atom} {a : Atom} (ha : a ∈ atoms)
    (rules : List Rule) : headLevel rules a ≤ literalLevel rules (.negative atoms) :=
  le_highest (List.mem_map.mpr ⟨a, ha, rfl⟩)

/-! ## What is accepted -/

theorem headsOverlap_iff {r s : Rule} :
    headsOverlap r s = true ↔ ∃ h ∈ r.head, ∃ g ∈ s.head, h.unifies g = true := by
  simp only [headsOverlap, List.any_eq_true, Atom.unifies_comm]

theorem headsOverlap_comm (r s : Rule) : headsOverlap r s = headsOverlap s r := by
  rw [Bool.eq_iff_iff, headsOverlap_iff, headsOverlap_iff]
  constructor
  · rintro ⟨h, hh, g, hg, hu⟩
    exact ⟨g, hg, h, hh, Atom.unifies_comm h g ▸ hu⟩
  · rintro ⟨h, hh, g, hg, hu⟩
    exact ⟨g, hg, h, hh, Atom.unifies_comm h g ▸ hu⟩

/-- Of two rules only the first is compared with the second, which is enough as heads overlap both
ways. -/
theorem stratificationError?_eq_none_iff : stratificationError? rules = none ↔
    (∀ r ∈ rules, ∀ s ∈ rules, headsOverlap r s = true → r.level = s.level) ∧
      ∀ r ∈ rules, ∀ l ∈ r.body, mayRead r.level (literalLevel rules l) l = true := by
  have hoverlap : ∀ (number : Nat) (r : Rule) (others : List (Rule × Nat)),
      overlapError? number r others = none ↔
        ∀ q ∈ others, headsOverlap r q.1 = true → r.level = q.1.level := fun number r others => by
    rw [overlapError?, Option.map_eq_none_iff, List.find?_eq_none]
    simp only [Bool.and_eq_true, bne_iff_ne, not_and, not_not, @eq_comm _ r.level]
  have hdependency : ∀ (number : Nat) (r : Rule), dependencyError? rules number r = none ↔
      ∀ l ∈ r.body, mayRead r.level (literalLevel rules l) l = true := fun number r => by
    rw [dependencyError?, Option.map_eq_none_iff, List.find?_eq_none]
    simp
  simp only [stratificationError?, List.findSome?_eq_none_iff, Option.or_eq_none_iff, hoverlap,
    hdependency, Prod.forall, List.mem_zipIdx_iff_getElem?]
  constructor
  · intro h
    have hfirst : ∀ {r s : Rule} {m n : Nat}, rules[m]? = some r → rules[n]? = some s → m < n →
        headsOverlap r s = true → r.level = s.level := by
      intro r s m n hr hs hmn
      refine (h r m hr).1 s n (List.mem_of_getElem? (i := n - (m + 1)) ?_)
      rw [List.getElem?_drop, show m + 1 + (n - (m + 1)) = n by omega, List.getElem?_zipIdx, hs]
      simp
    refine ⟨fun r hr s hs ho => ?_, fun r hr => ?_⟩
    · obtain ⟨m, hm⟩ := List.mem_iff_getElem?.mp hr
      obtain ⟨n, hn⟩ := List.mem_iff_getElem?.mp hs
      rcases Nat.lt_trichotomy m n with hlt | rfl | hlt
      · exact hfirst hm hn hlt ho
      · rw [hm] at hn
        rw [Option.some.inj hn]
      · exact (hfirst hn hm hlt (headsOverlap_comm r s ▸ ho)).symm
    · obtain ⟨m, hm⟩ := List.mem_iff_getElem?.mp hr
      exact (h r m hm).2
  · rintro ⟨hheads, hreads⟩ r m hm
    have hr := List.mem_of_getElem? hm
    refine ⟨fun s n hs => hheads r hr s ?_, hreads r hr⟩
    exact List.mem_of_getElem? (List.mem_zipIdx_iff_getElem?.mp (List.mem_of_mem_drop hs))

namespace Builds

section

variable (h : Builds rules byLevels x)

include h

theorem rules_eq : x.rules = (rules.map (indexRule rules byLevels)).toArray := by
  unfold Builds build at h
  split at h
  · cases h
  · cases h
    rfl

theorem heads_eq : x.heads = ((List.range 8).map fun pattern =>
    (headAtoms rules).filter fun (_, a) => a.indexingPattern == pattern).toArray := by
  unfold Builds build at h
  split at h
  · cases h
  · cases h
    rfl

theorem byLevels_eq : x.byLevels = byLevels := by
  unfold Builds build at h
  split at h
  · cases h
  · cases h
    rfl

theorem rule?_eq : x.rules[rule]? = (rules[rule]?).map (indexRule rules byLevels) := by
  rw [h.rules_eq]
  simp

theorem rule_mem (hi : x.rules[rule]? = some i) :
    i.rule ∈ rules ∧ i = indexRule rules byLevels i.rule := by
  rw [h.rule?_eq, Option.map_eq_some_iff] at hi
  obtain ⟨r, hr, rfl⟩ := hi
  exact ⟨List.mem_of_getElem? hr, rfl⟩

theorem exists_rule {r : Rule} (hr : r ∈ rules) :
    ∃ (rule : Nat) (i : IndexedRule), x.rules[rule]? = some i ∧ i.rule = r := by
  obtain ⟨rule, hrule⟩ := List.mem_iff_getElem?.mp hr
  exact ⟨rule, _, by rw [h.rule?_eq, hrule]; rfl, rfl⟩

theorem maxLevel_le {n : Nat} (hn : ∀ r ∈ rules, r.level ≤ n) : x.maxLevel ≤ n := by
  refine highest_le.mpr fun l hl => ?_
  obtain ⟨i, hi, rfl⟩ := List.mem_map.mp hl
  obtain ⟨rule, hrule⟩ := List.mem_iff_getElem?.mp hi
  rw [Array.getElem?_toList] at hrule
  exact hn _ (h.rule_mem hrule).1

theorem componentLevel_eq : x.componentLevel t =
    highest ((rules.filter fun r => r.head.any fun a => a.accepts none t).map Rule.level) := by
  rw [componentLevel, h.rules_eq]
  simp only [List.filter_map, List.map_map, Function.comp_def]
  rfl

/-- The heads that can become a fact and have constants at a set of positions. -/
theorem mem_headsWith {classes : Option Classes} {head : HeadRef} {pattern : Nat}
    (hp : pattern < 8) :
    head ∈ x.headsWith classes t pattern ↔ ∃ i a, x.rules[head.rule]? = some i ∧
      i.rule.head[head.head]? = some a ∧ (∃ σ, a.groundIn classes σ = t) ∧
      a.indexingPattern = pattern := by
  have hmem : ∀ a : Atom, (head, a) ∈ headAtoms rules ↔
      ∃ i, x.rules[head.rule]? = some i ∧ i.rule.head[head.head]? = some a := fun a => by
    obtain ⟨rule, place⟩ := head
    simp only [headAtoms, List.mem_flatMap, List.mem_map, Prod.exists, Prod.mk.injEq,
      HeadRef.mk.injEq, List.mem_zipIdx_iff_getElem?, h.rule?_eq, Option.map_eq_some_iff]
    constructor
    · rintro ⟨r, _, hr, a', _, ha, ⟨rfl, rfl⟩, rfl⟩
      exact ⟨_, ⟨r, hr, rfl⟩, ha⟩
    · rintro ⟨_, ⟨r, hr, rfl⟩, ha⟩
      exact ⟨r, rule, hr, a, place, ha, ⟨rfl, rfl⟩, rfl⟩
  simp only [headsWith, h.heads_eq, List.getElem?_toArray, List.getElem?_map,
    List.getElem?_range hp, Option.map_some, Option.getD_some, List.mem_map, List.mem_filter,
    Prod.exists, exists_and_right, exists_eq_right, hmem, Atom.accepts_eq_true_iff, beq_iff_eq]
  constructor
  · rintro ⟨a, ⟨⟨i, hi, ha⟩, hpat⟩, hσ⟩
    exact ⟨i, a, hi, ha, hσ, hpat⟩
  · rintro ⟨i, a, hi, ha, hσ, hpat⟩
    exact ⟨a, ⟨⟨i, hi, ha⟩, hpat⟩, hσ⟩

/-- The heads that can become a fact. -/
theorem mem_headsFor {classes : Option Classes} {head : HeadRef} :
    head ∈ x.headsFor classes t ↔ ∃ i a, x.rules[head.rule]? = some i ∧
      i.rule.head[head.head]? = some a ∧ ∃ σ, a.groundIn classes σ = t := by
  simp only [headsFor, List.mem_flatMap, List.mem_range]
  constructor
  · rintro ⟨pattern, hp, hm⟩
    obtain ⟨i, a, hi, ha, hσ, -⟩ := (h.mem_headsWith hp).mp hm
    exact ⟨i, a, hi, ha, hσ⟩
  · rintro ⟨i, a, hi, ha, hσ⟩
    have hp : a.indexingPattern < 8 := a.indexingPattern_lt
    exact ⟨_, hp, (h.mem_headsWith hp).mpr ⟨i, a, hi, ha, hσ, rfl⟩⟩

end

/-! ## Levels -/

section

variable (h : Builds rules true x)

include h

theorem stratified : stratificationError? rules = none := by
  unfold Builds build at h
  split at h
  · cases h
  · assumption

/-- Rules that derive the same fact have the same level. -/
theorem level_unique {r s : Rule} {τ : Assignment} (hr : r ∈ rules) (hs : s ∈ rules)
    (ht : r.Concludes none σ t) (ht' : s.Concludes none τ t) : r.level = s.level := by
  obtain ⟨a, ha, rfl⟩ := ht
  obtain ⟨b, hb, heq⟩ := ht'
  exact (stratificationError?_eq_none_iff.mp h.stratified).1 r hr s hs
    (headsOverlap_iff.mpr ⟨a, ha, b, hb, Atom.unifies_of_ground heq.symm⟩)

/-- A fact is of the level of the rules that derive it. -/
theorem componentLevel_of_concludes {r : Rule} (hr : r ∈ rules) (ht : r.Concludes none σ t) :
    x.componentLevel t = r.level := by
  rw [h.componentLevel_eq]
  have hacc : ∀ {s : Rule}, (s.head.any fun a => a.accepts none t) = true ↔
      ∃ τ, s.Concludes none τ t := by
    intro s
    simp only [List.any_eq_true, Atom.accepts_eq_true_iff, Rule.Concludes]
    exact ⟨fun ⟨a, ha, τ, hτ⟩ => ⟨τ, a, ha, hτ⟩, fun ⟨τ, a, ha, hτ⟩ => ⟨a, ha, τ, hτ⟩⟩
  refine le_antisymm (highest_le.mpr fun l hl => ?_) (le_highest ?_)
  · obtain ⟨s, hs, rfl⟩ := List.mem_map.mp hl
    rw [List.mem_filter] at hs
    obtain ⟨τ, hτ⟩ := hacc.mp hs.2
    exact (h.level_unique hs.1 hr hτ ht).le
  · exact List.mem_map.mpr ⟨r, List.mem_filter.mpr ⟨hr, hacc.mpr ⟨σ, ht⟩⟩, rfl⟩

/-- A literal matches facts of its level or below. -/
theorem componentLevel_le {a : Atom} : x.componentLevel (a.groundIn none σ) ≤ headLevel rules a := by
  rw [h.componentLevel_eq, headLevel]
  refine highest_le.mpr fun l hl => ?_
  obtain ⟨s, hs, rfl⟩ := List.mem_map.mp hl
  rw [List.mem_filter, List.any_eq_true] at hs
  obtain ⟨hs, b, hb, hacc⟩ := hs
  obtain ⟨τ, hτ⟩ := Atom.accepts_eq_true_iff.mp hacc
  refine le_highest (List.mem_map.mpr ⟨s, List.mem_filter.mpr ⟨hs, ?_⟩, rfl⟩)
  exact List.any_eq_true.mpr ⟨b, hb, Atom.unifies_of_ground hτ⟩

/-- A rule reads through its literals what it may read. -/
theorem mayRead_of_mem {r : Rule} (hr : r ∈ rules) {l : Literal} (hl : l ∈ r.body) :
    mayRead r.level (literalLevel rules l) l = true :=
  (stratificationError?_eq_none_iff.mp h.stratified).2 r hr l hl

/-- A rule reads facts of its level or below. -/
theorem headLevel_le {r : Rule} (hr : r ∈ rules) {a : Atom} (ha : .positive a ∈ r.body) :
    headLevel rules a ≤ r.level := by
  simpa [mayRead, Literal.isPositive, literalLevel_positive] using h.mayRead_of_mem hr ha

/-- Negation is about facts of lower levels. -/
theorem headLevel_lt {r : Rule} (hr : r ∈ rules) {atoms : List Atom} (hl : .negative atoms ∈ r.body)
    {a : Atom} (ha : a ∈ atoms) : headLevel rules a < r.level := by
  have hlt : literalLevel rules (.negative atoms) < r.level := by
    simpa [mayRead, Literal.isPositive] using h.mayRead_of_mem hr hl
  exact (headLevel_le_literalLevel ha rules).trans_lt hlt

end

/-! ## The rules of one level -/

section

variable (h : Builds rules byLevels x) (hl : level.isSome = byLevels)
  (hi : (i, rule) ∈ x.inScope (.ofLevel level))

theorem level_of_mem_inScope {l : Nat} (hi : (i, rule) ∈ x.inScope (.ofLevel (some l))) :
    i.rule.level = l :=
  (beq_iff_eq.mp (mem_inScope.mp hi).2).symm

include h

theorem isSupporting_eq (hi : x.rules[rule]? = some i) {a : Atom}
    (ha : i.rule.body[k]? = some (.positive a)) :
    x.isSupporting rule k = (!byLevels || headLevel rules a == i.rule.level) := by
  have hs : i.supporting[k]? = some (!byLevels || headLevel rules a == i.rule.level) := by
    rw [(h.rule_mem hi).2]
    simp only [indexRule, List.getElem?_map, List.getElem?_zip_eq_some, Option.map_eq_some_iff]
    exact ⟨(.positive a, literalLevel rules (.positive a)), ⟨ha, .positive a, ha, rfl⟩,
      by rw [literalLevel_positive]; rfl⟩
  simp only [isSupporting, hi, hs, Option.getD_some]

theorem occurrence_level (hi : x.rules[rule]? = some i) {a : Atom}
    (ha : i.rule.body[k]? = some (.positive a)) :
    (occurrence i rule k).level = headLevel rules a := by
  have hl : i.literalLevels[k]? = some (headLevel rules a) := by
    rw [(h.rule_mem hi).2]
    simp only [indexRule, List.getElem?_map, ha, Option.map_some, literalLevel_positive]
  rw [occurrence, hl]
  rfl

theorem recursive_of_supporting (hi : x.rules[rule]? = some i)
    (hs : x.isSupporting rule k = true) : i.recursive = true := by
  simp only [isSupporting, hi] at hs
  rw [(h.rule_mem hi).2] at hs ⊢
  simp only [indexRule] at hs ⊢
  rw [List.any_eq_true]
  exact ⟨true, List.mem_of_getElem? (Option.getD_eq_iff.mp hs |>.resolve_right (by simp)), rfl⟩

/-- Some literal of a recursive rule is supporting. -/
theorem exists_supporting (hi : x.rules[rule]? = some i) (hrec : i.recursive = true)
    (σ : Assignment) : ∃ k u, i.rule.Premise none σ k u ∧ x.isSupporting rule k = true := by
  rw [(h.rule_mem hi).2] at hrec
  simp only [indexRule, List.any_map, List.any_eq_true, Function.comp_apply, id_eq] at hrec
  obtain ⟨⟨l, read⟩, hmem, hs⟩ := hrec
  obtain ⟨k, hk⟩ := List.mem_iff_getElem?.mp hmem
  obtain ⟨hl, hread⟩ := List.getElem?_zip_eq_some.mp hk
  cases l with
  | negative as => cases hs
  | positive a =>
    refine ⟨k, _, ⟨a, hl, rfl⟩, ?_⟩
    simp only [List.getElem?_map, hl, Option.map_some, literalLevel_positive] at hread
    obtain rfl := Option.some.inj hread
    rw [h.isSupporting_eq hi hl]
    exact hs

include hl

/-- A fact is of a level if a rule of the level derives it, and only then. -/
theorem scope_iff_at (hi : x.rules[rule]? = some i) (ht : i.rule.Concludes none σ t) :
    (i, rule) ∈ x.inScope (.ofLevel level) ↔ x.At level t := by
  rw [mem_inScope]
  cases level with
  | none => exact ⟨fun _ => at_none, fun _ => ⟨hi, rfl⟩⟩
  | some l =>
    obtain rfl : true = byLevels := hl
    have hc := h.componentLevel_of_concludes (h.rule_mem hi).1 ht
    constructor
    · rintro ⟨-, hs⟩ _ ⟨⟩
      rw [hc]
      exact (beq_iff_eq.mp hs).symm
    · exact fun hat => ⟨hi, beq_iff_eq.mpr ((hat l rfl).symm.trans hc)⟩

include hi

/-- What a rule of the level reads is of that level or below. -/
theorem below_or_at (hp : i.rule.Premise none σ k u) : x.Below level u ∨ x.At level u := by
  cases level with
  | none => exact .inr at_none
  | some l =>
    obtain rfl : true = byLevels := hl
    obtain ⟨a, ha, rfl⟩ := hp
    have hr := (h.rule_mem (mem_inScope.mp hi).1).1
    have h₁ := h.componentLevel_le (a := a) (σ := σ)
    have h₂ := h.headLevel_le hr (List.mem_of_getElem? ha)
    rw [level_of_mem_inScope hi] at h₂
    rcases Nat.lt_or_eq_of_le (h₁.trans h₂) with hlt | heq
    · exact .inl ⟨l, rfl, hlt⟩
    · exact .inr fun l' hl' => by cases hl'; exact heq

/-- What the negated literals of a rule of the level are about is of a lower level; without levels there
is no negation. -/
theorem below_of_negative (hd : byLevels = false → x.Definite) {atoms : List Atom}
    (hk : i.rule.body[k]? = some (.negative atoms)) {a : Atom} (ha : a ∈ atoms) (σ : Assignment) :
    x.Below level (a.groundIn none σ) := by
  have hi' := (mem_inScope.mp hi).1
  have hmem := List.mem_of_getElem? hk
  cases level with
  | none =>
    obtain ⟨b, hb⟩ := (hd hl.symm rule i hi').eq_positive hmem
    cases hb
  | some l =>
    obtain rfl : true = byLevels := hl
    have h₁ := h.componentLevel_le (a := a) (σ := σ)
    have h₂ := h.headLevel_lt (h.rule_mem hi').1 hmem ha
    rw [level_of_mem_inScope hi] at h₂
    exact ⟨l, rfl, h₁.trans_lt h₂⟩

theorem below_of_blocker (hd : byLevels = false → x.Definite)
    (hp : i.rule.Blocker none σ k u) : x.Below level u := by
  obtain ⟨a, hk, rfl⟩ := hp
  exact h.below_of_negative hl hi hd hk (List.mem_singleton.mpr rfl) σ

/-- A literal that is read at the level of its rule is supporting. -/
theorem isSupporting_iff (hp : i.rule.Premise none σ k u) :
    x.isSupporting rule k = true ↔
      (x.byLevels && some (occurrence i rule k).level != level) = false := by
  obtain ⟨a, ha, -⟩ := hp
  have hi' := (mem_inScope.mp hi).1
  rw [h.isSupporting_eq hi' ha, h.occurrence_level hi' ha, h.byLevels_eq]
  cases level with
  | none =>
    obtain rfl : false = byLevels := hl
    simp
  | some l =>
    rw [level_of_mem_inScope hi]
    cases byLevels <;> simp

/-- A literal that matches a fact of the level is supporting. -/
theorem supporting_of_at (hp : i.rule.Premise none σ k u) (hu : x.At level u) :
    x.isSupporting rule k = true := by
  obtain ⟨a, ha, rfl⟩ := hp
  have hi' := (mem_inScope.mp hi).1
  rw [h.isSupporting_eq hi' ha]
  cases level with
  | none =>
    obtain rfl : false = byLevels := hl
    rfl
  | some l =>
    obtain rfl : true = byLevels := hl
    have h₁ := h.componentLevel_le (a := a) (σ := σ)
    have h₂ := h.headLevel_le (h.rule_mem hi').1 (List.mem_of_getElem? ha)
    rw [level_of_mem_inScope hi] at h₂
    rw [hu l rfl] at h₁
    rw [level_of_mem_inScope hi]
    simp [le_antisymm h₂ h₁]

omit hl in
theorem hasRecursive_of_supporting (hs : x.isSupporting rule k = true) :
    x.hasRecursive (.ofLevel level) = true := by
  obtain ⟨hi', hscope⟩ := mem_inScope.mp hi
  rw [hasRecursive, ← Array.any_toList, List.any_eq_true]
  refine ⟨i, List.mem_of_getElem? (by rwa [Array.getElem?_toList]), ?_⟩
  rw [hscope, h.recursive_of_supporting hi' hs, Bool.and_self]

end

end Builds

end RuleIndex

end Entail
