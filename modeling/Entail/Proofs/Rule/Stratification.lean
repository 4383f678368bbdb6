import Mathlib.Order.ConditionallyCompleteLattice.Basic
import Mathlib.Order.Lattice.Nat
import Entail.Proofs.Rule.Index

/-!
# Accepted stratifications

An index by levels is built from just those rules whose levels are a stratification (`Stratifies`):
rules with heads that unify are of one level, and no literal unifies with a head of a level that it must
not read. This is said of atoms, in whatever order the rules come. Maintenance goes by the levels of
facts (`Grades`): a fact is of the level of every rule that can derive it, and a rule reads facts of its
own level or below, through negated literals only below. `build_ok_iff_stratifies` has both.
-/

namespace Entail.RuleIndex

variable {rules rules' : List Rule} {x : RuleIndex} {t : Triple}

/-- The levels of the rules with a head that unifies with an atom of a literal. -/
def readLevels (rules : List Rule) (l : Literal) : Set Nat :=
  {level | ∃ r ∈ rules, (∃ a ∈ l.atoms, ∃ h ∈ r.head, h.unifies a = true) ∧ r.level = level}

/-- Rules with heads that unify share a level. The highest level that a literal reads, 0 if there is
none, is at most the level of its rule, and strictly below if it is negated. -/
structure Stratifies (rules : List Rule) : Prop where
  heads (r s : Rule) (hr : r ∈ rules) (hs : s ∈ rules)
    (h : ∃ a ∈ r.head, ∃ b ∈ s.head, a.unifies b = true) : r.level = s.level
  positive (r : Rule) (hr : r ∈ rules) (a : Atom) (ha : .positive a ∈ r.body) :
    sSup (readLevels rules (.positive a)) ≤ r.level
  negative (r : Rule) (hr : r ∈ rules) (atoms : List Atom) (ha : .negative atoms ∈ r.body) :
    sSup (readLevels rules (.negative atoms)) < r.level

/-- A fact is of the level of every rule that can derive it. A rule that reads it is of that level or
above, and above if it reads it through a negated literal. -/
structure Grades (x : RuleIndex) (rules : List Rule) (t : Triple) : Prop where
  heads (r : Rule) (hr : r ∈ rules) (a : Atom) (ha : a ∈ r.head) (ht : a.accepts none t = true) :
    r.level = x.componentLevel t
  positive (r : Rule) (hr : r ∈ rules) (a : Atom) (ha : .positive a ∈ r.body)
    (ht : a.accepts none t = true) : x.componentLevel t ≤ r.level
  negative (r : Rule) (hr : r ∈ rules) (atoms : List Atom) (hl : .negative atoms ∈ r.body) (a : Atom)
    (ha : a ∈ atoms) (ht : a.accepts none t = true) : x.componentLevel t < r.level

theorem literalLevel_eq_sSup (rules : List Rule) (l : Literal) :
    literalLevel rules l = sSup (readLevels rules l) := by
  have hle : ∀ level ∈ readLevels rules l, level ≤ literalLevel rules l := by
    rintro _ ⟨r, hr, ⟨a, ha, h, hh, hu⟩, rfl⟩
    refine le_trans (le_highest ?_) (le_highest (List.mem_map.mpr ⟨a, ha, rfl⟩))
    exact List.mem_map.mpr ⟨r, List.mem_filter.mpr ⟨hr, List.any_eq_true.mpr ⟨h, hh, hu⟩⟩, rfl⟩
  refine le_antisymm (highest_le.mpr fun level hlevel => ?_) (csSup_le' hle)
  obtain ⟨a, ha, rfl⟩ := List.mem_map.mp hlevel
  refine highest_le.mpr fun level hlevel => ?_
  obtain ⟨r, hr, rfl⟩ := List.mem_map.mp hlevel
  obtain ⟨hr, hany⟩ := List.mem_filter.mp hr
  obtain ⟨h, hh, hu⟩ := List.any_eq_true.mp hany
  exact le_csSup ⟨_, hle⟩ ⟨r, hr, ⟨a, ha, h, hh, hu⟩, rfl⟩

theorem stratificationError?_eq_none_iff_stratifies :
    stratificationError? rules = none ↔ Stratifies rules := by
  simp only [stratificationError?_eq_none_iff, headsOverlap_iff, literalLevel_eq_sSup]
  constructor
  · rintro ⟨hheads, hreads⟩
    refine ⟨fun r s hr hs => hheads r hr s hs, fun r hr a ha => ?_, fun r hr atoms ha => ?_⟩
    · simpa [mayRead, Literal.isPositive] using hreads r hr _ ha
    · simpa [mayRead, Literal.isPositive] using hreads r hr _ ha
  · intro h
    refine ⟨fun r hr s hs => h.heads r s hr hs, fun r hr l hl => ?_⟩
    cases l with
    | positive a => simpa [mayRead, Literal.isPositive] using h.positive r hr a hl
    | negative atoms => simpa [mayRead, Literal.isPositive] using h.negative r hr atoms hl

theorem exists_build_iff : (∃ x, build rules true = .ok x) ↔ stratificationError? rules = none := by
  rw [build, if_pos rfl]
  cases stratificationError? rules with
  | none => exact iff_of_true ⟨_, rfl⟩ rfl
  | some e => exact iff_of_false (fun ⟨_, h⟩ => by cases h) nofun

/-- The order and the repetition of rules do not matter. -/
theorem Stratifies.of_mem_iff (h : Stratifies rules) (hmem : ∀ r, r ∈ rules' ↔ r ∈ rules) :
    Stratifies rules' := by
  have hlevels : readLevels rules' = readLevels rules := by
    funext l
    simp only [readLevels, hmem]
  refine ⟨fun r s hr hs => h.heads r s ((hmem r).mp hr) ((hmem s).mp hs), fun r hr a ha => ?_,
    fun r hr atoms ha => ?_⟩
  · rw [hlevels]
    exact h.positive r ((hmem r).mp hr) a ha
  · rw [hlevels]
    exact h.negative r ((hmem r).mp hr) atoms ha

theorem Builds.grades (h : Builds rules true x) (t : Triple) : x.Grades rules t where
  heads r hr a ha ht := by
    obtain ⟨σ, hσ⟩ := Atom.accepts_eq_true_iff.mp ht
    exact (h.componentLevel_of_concludes hr ⟨a, ha, hσ⟩).symm
  positive r hr a ha ht := by
    obtain ⟨σ, rfl⟩ := Atom.accepts_eq_true_iff.mp ht
    exact h.componentLevel_le.trans (h.headLevel_le hr ha)
  negative r hr atoms hl a ha ht := by
    obtain ⟨σ, rfl⟩ := Atom.accepts_eq_true_iff.mp ht
    exact h.componentLevel_le.trans_lt (h.headLevel_lt hr hl ha)

/-- An index by levels is built from rules just if these are a stratification, in whatever order they
come; and then the levels of facts are one too. -/
theorem build_ok_iff_stratifies (rules : List Rule) :
    ((∃ x, build rules true = .ok x) ↔ Stratifies rules) ∧
      (∀ rules' : List Rule, rules'.Perm rules →
        ((∃ x, build rules' true = .ok x) ↔ ∃ x, build rules true = .ok x)) ∧
      ∀ x, build rules true = .ok x → ∀ t, x.Grades rules t := by
  have hiff : ∀ {rules}, (∃ x, build rules true = .ok x) ↔ Stratifies rules :=
    exists_build_iff.trans stratificationError?_eq_none_iff_stratifies
  refine ⟨hiff, fun rules' hp => ?_, fun x hx => Builds.grades hx⟩
  rw [hiff, hiff]
  exact ⟨fun h => h.of_mem_iff fun _ => hp.symm.mem_iff, fun h => h.of_mem_iff fun _ => hp.mem_iff⟩

/-- What is of class 4 is of class 5, and what is of class 6 but not of class 5 is of class 7. -/
def excluding : List Rule :=
  [⟨[⟨.var 0, .const rdfTypeId, .const 5⟩], [.positive ⟨.var 0, .const rdfTypeId, .const 4⟩], 1, ["x"]⟩,
    ⟨[⟨.var 0, .const rdfTypeId, .const 7⟩], [.positive ⟨.var 0, .const rdfTypeId, .const 6⟩,
      .negative [⟨.var 0, .const rdfTypeId, .const 5⟩]], 2, ["x"]⟩]

theorem build_ok_iff_stratifies_excluding :
    Stratifies excluding ∧ ∃ x, build excluding true = .ok x ∧ ∀ t, x.Grades excluding t :=
  have h := build_ok_iff_stratifies excluding
  have hx : ∃ x, build excluding true = .ok x := ⟨_, rfl⟩
  ⟨h.1.mp hx, hx.imp fun x hx => ⟨hx, h.2.2 x hx⟩⟩

end Entail.RuleIndex
