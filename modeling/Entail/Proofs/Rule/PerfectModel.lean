import Entail.Proofs.Rule.Instance

/-!
# Perfect models

With negation rules are applied level by level. A negated literal is read in what the levels below make
of the base facts (`Rule.Unblocked`); the facts that a level adds are the least set closed under its
rules (`DerivableAt`). The `perfectModel` of rules over base facts is what all levels make of them
(`stratum`). Levels are those of the rules, so this is meant for rules that `RuleIndex.build` accepts:
there a level derives facts of that level only (`stratum_succ`), later levels do not change what a
level made (`mem_stratum_of_lt`), and the perfect model is what the rules make of the base facts
(`RuleIndex.Builds.models_perfectModel`).
-/

namespace Entail

/-- No negated literal matches facts of a set, whatever its own variables stand for: some atom of it
misses the set. -/
def Rule.Unblocked (r : Rule) (σ : Assignment) (X : Set Triple) : Prop :=
  ∀ atoms, .negative atoms ∈ r.body → ∀ τ : Assignment,
    (∀ v ∈ Rule.boundVariables r.body, τ v = σ v) → ∃ a ∈ atoms, a.ground τ ∉ X

/-- A fact follows by the rules of a level from what the levels below make. -/
inductive DerivableAt (rules : List Rule) (level : Nat) (lower : Set Triple) : Triple → Prop
  | lower {t : Triple} (h : t ∈ lower) : DerivableAt rules level lower t
  | rule {r : Rule} {σ : Assignment} {a : Atom} (hr : r ∈ rules) (hl : r.level = level)
      (hb : ∀ b, .positive b ∈ r.body → DerivableAt rules level lower (b.ground σ))
      (hn : r.Unblocked σ lower) (ha : a ∈ r.head) : DerivableAt rules level lower (a.ground σ)

/-- What the levels below `n` make of base facts. -/
def stratum (rules : List Rule) (base : Set Triple) : Nat → Set Triple
  | 0 => base
  | n + 1 => {t | DerivableAt rules n (stratum rules base n) t}

/-- What all levels make of base facts. -/
def perfectModel (rules : List Rule) (base : Set Triple) : Set Triple :=
  {t | ∃ n, t ∈ stratum rules base n}

variable {rules : List Rule} {base : Set Triple} {x : RuleIndex} {m n : Nat} {t : Triple}

theorem stratum_mono (h : m ≤ n) : stratum rules base m ⊆ stratum rules base n := by
  induction h with
  | refl => exact fun _ => id
  | step _ ih => exact ih.trans fun _ => DerivableAt.lower

theorem stratum_subset_leastModel (n : Nat) : stratum rules base n ⊆ leastModel rules base := by
  induction n with
  | zero => exact fun _ => .base
  | succ n ih =>
    intro t h
    induction h with
    | lower h => exact ih h
    | rule hr _ _ _ ha ihb => exact .rule hr ihb ha

theorem Rule.unblocked_iff {r : Rule} {σ : Assignment} {X : Set Triple} :
    r.Unblocked σ X ↔ r.Unmatched none σ fun _ => (· ∈ X) := by
  simp only [Unblocked, Unmatched, Atom.groundIn_none, List.mem_iff_getElem? (l := r.body),
    forall_exists_index]
  exact forall_comm

namespace RuleIndex.Builds

variable (hb : Builds rules true x)

include hb

/-- A level adds facts of that level only. -/
theorem stratum_succ (h : t ∈ stratum rules base (n + 1)) :
    t ∈ stratum rules base n ∨ x.componentLevel t = n := by
  cases h with
  | lower h => exact .inl h
  | rule hr hl _ _ ha =>
    exact .inr (hl ▸ hb.componentLevel_of_concludes hr ⟨_, ha, Atom.groundIn_none _ _⟩)

/-- Later levels do not change what a level made. -/
theorem mem_stratum_of_lt (h : t ∈ stratum rules base m) (hlt : x.componentLevel t < n) :
    t ∈ stratum rules base n := by
  induction m with
  | zero => exact stratum_mono (Nat.zero_le n) h
  | succ m ih =>
    rcases hb.stratum_succ h with h | heq
    · exact ih h
    · exact stratum_mono (heq ▸ hlt) h

/-- Of a level that has not been worked off there are only the base facts. -/
theorem mem_base_of_le (h : t ∈ stratum rules base n) (hle : n ≤ x.componentLevel t) : t ∈ base := by
  induction n with
  | zero => exact h
  | succ n ih =>
    rcases hb.stratum_succ h with h | heq
    · exact ih h (Nat.le_of_succ_le hle)
    · omega

/-- The perfect model is what rules make of base facts. -/
theorem models_perfectModel :
    x.Models rules true base (perfectModel rules base) where
  base_subset _ h := ⟨0, h⟩
  subset_leastModel _ h := stratum_subset_leastModel _ h.choose_spec
  closes {level} hl a h t ht := by
    obtain ⟨l, rfl⟩ := Option.isSome_iff_exists.mp hl
    have hr := (hb.rule_mem a.rule?_eq).1
    obtain ⟨c, hc, rfl⟩ := ht
    rw [Atom.groundIn_none]
    refine ⟨l + 1, .rule hr (level_of_mem_inScope a.mem) (fun b hmem => ?_)
      (Rule.unblocked_iff.mpr (h.unmatched.mono fun _ _ _ _ _ _ hu => ⟨l, hu⟩)) hc⟩
    obtain ⟨k, hk⟩ := List.mem_iff_getElem?.mp hmem
    have hprem : a.Premise k (b.ground a.assignment) := ⟨b, hk, Atom.groundIn_none _ _⟩
    obtain ⟨m, hm⟩ := h.premises k _ hprem
    show b.ground a.assignment ∈ stratum rules base (l + 1)
    refine hb.mem_stratum_of_lt hm ?_
    rcases a.upto_of_premise hb hl hprem with ⟨_, ⟨⟩, hlt⟩ | hat
    · omega
    · have := hat l rfl
      omega
  induct {level} hl P hbelow hbase hstep := by
    obtain ⟨l, rfl⟩ := Option.isSome_iff_exists.mp hl
    -- the induction is on the derivations of the level
    have hderived : ∀ t, DerivableAt rules l (stratum rules base l) t → x.Upto (some l) t → P t := by
      intro t h
      induction h with
      | lower h =>
        rintro (hlow | hat)
        · exact hbelow _ ⟨l, h⟩ hlow
        · exact hbase _ (hb.mem_base_of_le h (hat l rfl).ge) hat
      | @rule r σ a hr hlevel hprem hn ha ih =>
        intro _
        have hc : r.Concludes none σ (a.ground σ) := ⟨a, ha, Atom.groundIn_none _ _⟩
        have hat : x.At (some l) (a.ground σ) := by
          rintro _ ⟨⟩
          exact (hb.componentLevel_of_concludes hr hc).trans hlevel
        obtain ⟨i, rfl, rfl, hc⟩ := Instance.of_rule hb hl hr hc hat
        have hfires : i.Fires (fun u => u ∈ perfectModel rules base ∧ P u)
            (· ∈ stratum rules base l) := by
          refine ⟨fun k u hk => ?_, Rule.unblocked_iff.mp hn⟩
          have hup := i.upto_of_premise hb hl hk
          obtain ⟨b, hmem, rfl⟩ := hk
          rw [Atom.groundIn_none] at hup ⊢
          have hmem := List.mem_of_getElem? hmem
          exact ⟨⟨l + 1, hprem b hmem⟩, ih b hmem hup⟩
        refine hstep i (hfires.of_below hb hl (fun h => by cases h) fun u hbelow hu => ?_) _ hc
        obtain ⟨_, ⟨⟩, hlt⟩ := hbelow
        obtain ⟨m, hm⟩ := hu
        exact hb.mem_stratum_of_lt hm hlt
    rintro t ⟨m, hm⟩ hup
    refine hderived t (hb.mem_stratum_of_lt (n := l + 1) hm ?_) hup
    rcases hup with ⟨_, ⟨⟩, hlt⟩ | hat
    · omega
    · have := hat l rfl
      omega

/-- Without negation the perfect model is the least model. -/
theorem perfectModel_eq_leastModel (hd : x.Definite) :
    perfectModel rules base = leastModel rules base :=
  hb.models_perfectModel.eq_leastModel hb hd

end RuleIndex.Builds

end Entail
