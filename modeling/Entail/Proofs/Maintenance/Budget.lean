import Mathlib.Data.Finset.Prod
import Entail.Proofs.Maintenance.Run
import Entail.Proofs.Rule.Index

/-!
# The bound on the facts of a run

Facts are made of ids that the store or the rules mention. So a list of different facts is no longer
than `Context.factBound` (`Context.length_le_factBound`), the table included, and this stays so for
everything that the rules derive from the facts of the table (`Context.within_of_leastModel`).
-/

namespace Entail

/-- No id of a fact is higher than `n`. -/
def Triple.Within (n : Nat) (t : Triple) : Prop := ∀ p, t.get p ≤ n

instance (n : Nat) (t : Triple) : Decidable (t.Within n) :=
  decidable_of_iff (t.subject ≤ n ∧ t.predicate ≤ n ∧ t.object ≤ n)
    ⟨fun h p => by cases p; exacts [h.1, h.2.1, h.2.2], fun h => ⟨h .subject, h .predicate, h .object⟩⟩

namespace Table

variable {T : Table}

theorem facts_nodup (T : Table) : T.facts.toList.Nodup := by
  rw [List.nodup_iff_getElem?_ne_getElem?]
  intro i j hij hj heq
  rw [Array.getElem?_toList, Array.getElem?_toList] at heq
  have hlt : j < T.facts.size := by simpa using hj
  have h₁ : T.fact? (i + 1) = some T.facts[j] := by
    rw [fact?_succ, heq, Array.getElem?_eq_getElem hlt]
  have h₂ : T.fact? (j + 1) = some T.facts[j] := by
    rw [fact?_succ, Array.getElem?_eq_getElem hlt]
  have := row_unique h₁ h₂
  omega

theorem mem_facts {t : Triple} : t ∈ T.facts.toList ↔ ∃ row, T.fact? row = some t := by
  rw [List.mem_iff_getElem?]
  constructor
  · rintro ⟨i, hi⟩
    rw [Array.getElem?_toList] at hi
    exact ⟨i + 1, by rw [fact?_succ, hi]⟩
  · rintro ⟨row, hrow⟩
    rw [fact?_of_pos (fact?_bounds hrow).1] at hrow
    exact ⟨row - 1, by rw [Array.getElem?_toList, hrow]⟩

/-- A table with facts of `U` only has at most as many rows as there are such facts. -/
theorem size_le_of_forall {U : Triple → Prop} {N : Nat}
    (hU : ∀ l : List Triple, l.Nodup → (∀ t ∈ l, U t) → l.length ≤ N)
    (h : ∀ row t, T.fact? row = some t → U t) : T.size ≤ N := by
  have hlen := hU T.facts.toList T.facts_nodup fun t ht => by
    obtain ⟨row, hrow⟩ := mem_facts.mp ht
    exact h row t hrow
  simpa [size] using hlen

end Table

/-- A set that rules do not lead out of, with at most `N` facts. -/
structure Universe (rules : List Rule) (U : Set Triple) (N : Nat) : Prop where
  closes : ∀ s ∈ rules, s.Closes U
  length_le : ∀ l : List Triple, l.Nodup → (∀ t ∈ l, t ∈ U) → l.length ≤ N

theorem Universe.size_le {rules : List Rule} {U : Set Triple} {N : Nat} (h : Universe rules U N)
    {T : Table} (hT : ∀ row t, T.fact? row = some t → t ∈ U) : T.size ≤ N :=
  Table.size_le_of_forall h.length_le hT

theorem Universe.mono {rules : List Rule} {U U' : Set Triple} {N N' : Nat}
    (h : Universe rules U N) (h' : Universe rules U' N') (hU : U' ⊆ U) :
    Universe rules U' (min N N') :=
  ⟨h'.closes, fun l hl hl' => le_min (h.length_le l hl fun t ht => hU (hl' t ht))
    (h'.length_le l hl hl')⟩

/-- There are not more facts than triples of ids. -/
theorem length_le_of_within {n : Nat} {l : List Triple} (hl : l.Nodup)
    (h : ∀ t ∈ l, t.Within n) : l.length ≤ Nat.pow (n + 1) 3 := by
  let all := (Finset.range (n + 1) ×ˢ Finset.range (n + 1) ×ˢ Finset.range (n + 1)).image
    fun p => (⟨p.1, p.2.1, p.2.2⟩ : Triple)
  have hsub : l.toFinset ⊆ all := fun t ht => by
    have hw := h t (List.mem_toFinset.mp ht)
    refine Finset.mem_image.mpr ⟨(t.subject, t.predicate, t.object), ?_, rfl⟩
    simp only [Finset.mem_product, Finset.mem_range, Nat.lt_succ_iff]
    exact ⟨hw .subject, hw .predicate, hw .object⟩
  calc l.length = l.toFinset.card := (List.toFinset_card_of_nodup hl).symm
    _ ≤ all.card := Finset.card_le_card hsub
    _ ≤ (Finset.range (n + 1) ×ˢ Finset.range (n + 1) ×ˢ Finset.range (n + 1)).card :=
      Finset.card_image_le
    _ = Nat.pow (n + 1) 3 := by
      simp only [Finset.card_product, Finset.card_range, Nat.pow_eq, Nat.pow_succ, Nat.pow_zero,
        Nat.one_mul, Nat.mul_assoc]

namespace Context

variable {c : Context} {r : Run} {t : Triple} {row : Nat}

theorem le_maxId {n : Nat}
    (h : n ∈ [nothingId, c.dictionary.size, r.table.facts.foldl (fun n t => t.toList.foldl max n) 0,
      (c.rules.rules.toList.flatMap fun i => i.rule.atoms.flatMap Atom.constants).foldl max 0,
      r.steady.size, r.proving.size]) : n ≤ c.maxId r :=
  RuleIndex.le_highest h

theorem le_foldl_facts (l : List Triple) {n : Nat} (h : t ∈ l) (p : Position) :
    t.get p ≤ l.foldl (fun n t => t.toList.foldl max n) n := by
  have hmono : ∀ (l : List Triple) (n : Nat), n ≤ l.foldl (fun n t => t.toList.foldl max n) n := by
    intro l
    induction l with
    | nil => exact fun n => le_rfl
    | cons t l ih => exact fun n => (RuleIndex.foldl_max_le.mp le_rfl).1.trans (ih _)
  induction l generalizing n with
  | nil => cases h
  | cons u l ih =>
    rcases List.mem_cons.mp h with rfl | h
    · refine le_trans ((RuleIndex.foldl_max_le.mp le_rfl).2 _ ?_) (hmono l _)
      cases p <;> simp [Three.get, Three.toList]
    · exact ih h

theorem within_of_fact (hf : r.table.fact? row = some t) : t.Within (c.maxId r) := fun p => by
  refine le_trans ?_ (le_maxId (by simp only [List.mem_cons, true_or, or_true]) :
    r.table.facts.foldl (fun n t => t.toList.foldl max n) 0 ≤ c.maxId r)
  rw [← Array.foldl_toList]
  exact le_foldl_facts _ (Table.mem_facts.mpr ⟨row, hf⟩) p

theorem constant_le {i : IndexedRule} (hi : i ∈ c.rules.rules.toList) {a : Atom}
    (ha : a ∈ i.rule.atoms) {id : Nat} (hid : id ∈ a.constants) : id ≤ c.maxId r := by
  refine le_trans ?_ (le_maxId (by simp only [List.mem_cons, true_or, or_true]) :
    (c.rules.rules.toList.flatMap fun i => i.rule.atoms.flatMap Atom.constants).foldl max 0 ≤
      c.maxId r)
  exact RuleIndex.le_highest (List.mem_flatMap.mpr ⟨i, hi, List.mem_flatMap.mpr ⟨a, ha, hid⟩⟩)

/-- What follows from facts of the table is within the bound of the run. -/
theorem within_of_leastModel {rules : List Rule} {byLevels : Bool}
    (hb : RuleIndex.Builds rules byLevels c.rules) (hx : c.rules.Safe) {base : Set Triple}
    (hbase : ∀ t ∈ base, ∃ row, r.table.fact? row = some t) (ht : t ∈ leastModel rules base) :
    t.Within (c.maxId r) := by
  refine leastModel_subset (X := {t | t.Within (c.maxId r)}) (fun u hu => ?_) (fun s hs => ?_) ht
  · obtain ⟨row, hrow⟩ := hbase u hu
    exact within_of_fact hrow
  · obtain ⟨rule, i, hi, rfl⟩ := hb.exists_rule hs
    exact Rule.closes_forall (hx _ _ hi) fun a ha id hid => constant_le
      (List.mem_of_getElem? (by rw [Array.getElem?_toList]; exact hi)) (List.mem_append_left _ ha) hid

theorem length_le_factBound {l : List Triple} (hl : l.Nodup)
    (h : ∀ t ∈ l, t.Within (c.maxId r)) : l.length ≤ c.factBound r :=
  length_le_of_within hl h

/-- What follows from the facts of the table. -/
theorem universe_factBound {rules : List Rule} {byLevels : Bool}
    (hb : RuleIndex.Builds rules byLevels c.rules) (hx : c.rules.Safe) (r : Run) :
    Universe rules (leastModel rules {t | ∃ row, r.table.fact? row = some t}) (c.factBound r) :=
  ⟨fun _ hs => closes_leastModel hs, fun _ hl h => length_le_factBound hl fun t ht =>
    within_of_leastModel hb hx (fun _ hu => hu) (h t ht)⟩

theorem factBound_lt_budget {r' : Run} (h : c.factBound r = c.factBound r') :
    c.factBound r < c.budget r' := by
  rw [budget, h]
  omega

/-- Every row may be queued once. -/
theorem size_lt_budget {r' : Run} (ht : r'.table = r.table) : r.table.size < c.budget r' := by
  rw [← ht]
  exact (Table.size_le_of_forall (U := Triple.Within (c.maxId r')) (fun _ => length_le_factBound)
    fun _ _ => within_of_fact).trans_lt (factBound_lt_budget rfl)

end Context

end Entail
