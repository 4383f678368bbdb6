import Entail.Proofs.Rule.Enumeration

/-!
# Tracing heads back

Rules are applied forward, from the body to the heads, or backward, from a head to the body. If a filter
lets in the same rows both ways (`TracesAlike`), then the ways in which a head derives a fact, as they are
found backward, are the matches of the rule under which that head is the fact, each of them once
(`RuleIndex.listsWays_ways`), and a fact can be traced back just if the evaluation of some rule hands it
out (`RuleIndex.isDerivable_iff_emitted`).
-/

namespace Entail

/-- A filter lets in the same rows while heads are traced back and while whole rules are evaluated. -/
structure TracesAlike {σ : Type} (view : View σ) (s : σ) : Prop where
  positive (o : Occurrence) (row : RowIndex) (status : Status) :
    view.accepts s .supportingPositive o row status = view.accepts s .reevaluationPositive o row status
  negative (o : Occurrence) (row : RowIndex) (status : Status) :
    view.accepts s .supportingNegative o row status = view.accepts s .reevaluationNegative o row status

namespace TracesAlike

variable {σ : Type} {view : View σ} {s : σ}

theorem rows_positive (h : TracesAlike view s) :
    (view.snapshot s).rows .supportingPositive = (view.snapshot s).rows .reevaluationPositive := by
  simp only [View.snapshot, h.positive]

theorem rows_negative (h : TracesAlike view s) :
    (view.snapshot s).rows .supportingNegative = (view.snapshot s).rows .reevaluationNegative := by
  simp only [View.snapshot, h.negative]

end TracesAlike

/-- Reads a state that has something beside it. -/
def View.beside {σ : Type} (view : View σ) (α : Type) : View (σ × α) where
  table p := view.table p.1
  classes p := view.classes p.1
  accepts p := view.accepts p.1
  observe := view.observe.map fun note sighting p => (note sighting p.1, p.2)

namespace RuleIndex

variable {σ : Type} {view : View σ} {n : Snapshot} {x : RuleIndex} {i : IndexedRule} {rule : Nat}
  {a : Atom} {t : Triple} {positive negative : Role} {τ : Assignment} {rows : List RowIndex}

/-! ## Forward -/

/-- Puts a fact behind those that were handed out before. -/
def record (_ : Nat) (t : Triple) : Eval (σ × List Triple) Unit := modify fun p => (p.1, p.2 ++ [t])

theorem forM_record (rule : Nat) (facts : List Triple) (s : σ) (out : List Triple) :
    facts.forM (record rule) (s, out) = .ok () (s, out ++ facts) := by
  induction facts generalizing out with
  | nil => rw [List.append_nil]; rfl
  | cons t facts ih =>
    rw [List.append_cons, ← ih]
    rfl

/-- Evaluating a rule hands out the heads of its matches. -/
theorem evaluateRule_record (ho : view.observe = none) (hi : x.rules[rule]? = some i) (hd : i.rule.Safe)
    (s : σ) : x.evaluateRule (view.beside _) rule record (s, []) =
      .ok () (s, emitted (view.snapshot s) i rule) := by
  have ho' : (view.beside (List Triple)).observe = none := by rw [View.beside, ho]; rfl
  have hkeep : ∀ head, Preserves ((view.beside (List Triple)).snapshot · = view.snapshot s)
      (record rule head) := fun head p hp _ p' h => by
    cases h
    exact hp
  rw [evaluateRule, hi]
  refine (derive_emits ho' hd hkeep (scopes_wholeBody_free _ _ hd) (grounded_wholeBody_free _ _ hd) []
    rfl).trans ?_
  refine Eq.trans ?_ (forM_record rule (emitted (view.snapshot s) i rule) s [])
  simp only [emitted, forM_flatMap, List.forM_eq_forM, List.forM_map]

/-! ## Backward -/

theorem chooses_supporting_iff {s : σ} (hf : TracesAlike view s) :
    Chooses (view.snapshot s) .supportingPositive .supportingNegative i rule τ rows ↔
      Chooses (view.snapshot s) .reevaluationPositive .reevaluationNegative i rule τ rows := by
  have hpresent : ∀ o u, (view.snapshot s).Present .supportingNegative o u ↔
      (view.snapshot s).Present .reevaluationNegative o u := fun o u => by
    simp only [Snapshot.Present, hf.rows_negative]
  constructor
  · exact fun h => ⟨hf.rows_positive ▸ h.found, by simpa only [hpresent] using h.unmatched⟩
  · exact fun h => ⟨hf.rows_positive ▸ h.found, by simpa only [hpresent] using h.unmatched⟩

/-- The ways in which an atom of the head derives a fact are the matches under which it is the fact. -/
theorem mem_map_ways_iff (hd : i.rule.Safe) (ha : a ∈ i.rule.head) :
    rows ∈ (ways n i rule a t).map (fun ms => ms.map (·.row)) ↔
      ∃ τ, Chooses n .supportingPositive .supportingNegative i rule τ rows ∧ a.groundIn n.classes τ = t := by
  simp only [List.mem_map, mem_ways_iff hd ha, chooses_iff]
  constructor
  · rintro ⟨ms, ⟨τ, ht, hms⟩, hrows⟩
    exact ⟨τ, ⟨ms, hms, hrows⟩, ht⟩
  · rintro ⟨τ, ⟨ms, hms, hrows⟩, ht⟩
    exact ⟨ms, ⟨τ, ht, hms⟩, hrows⟩

theorem nodup_map_ways (hn : ∀ role o, ((n.rows role o).map (·.1)).Nodup) :
    ((ways n i rule a t).map fun ms => ms.map (·.row)).Nodup := by
  rw [ways]
  split
  · exact List.nodup_nil
  · rw [List.map_map]
    exact Snapshot.nodup_solutions hn

/-- What steps for literals find, is found for the positive ones in their order. -/
theorem forall₂_of_follows {occurrence : Nat → Occurrence} {B : Nat → Prop} {l : List (Literal × Nat)}
    {more : List Match} (h : n.Follows occurrence B τ
      (l.map fun p => stepOf (fun _ => positive) (fun _ => negative) p.1 p.2) more) :
    List.Forall₂ (fun p m => m.literal = p.2 ∧ (m.row, m.fact) ∈ n.rows positive (occurrence p.2))
      (l.filterMap positive?) more := by
  induction l generalizing more with
  | nil =>
    cases h
    exact .nil
  | cons p l ih =>
    obtain ⟨literal, k⟩ := p
    cases literal with
    | positive a =>
      cases h with
      | find hrow hrest => exact .cons ⟨rfl, hrow⟩ (ih hrest)
    | negative atoms =>
      cases h with
      | absent _ hrest => exact ih hrest

/-- A list of ways in which an atom of the head of a rule derives a fact: it has the rows of each match of
the rule under which the atom is the fact, and has them once. -/
structure ListsWays (table : Table) (n : Snapshot) (i : IndexedRule) (rule : Nat) (a : Atom) (t : Triple)
    (ways : List (List Match)) : Prop where
  nodup : (ways.map fun ms => ms.map (·.row)).Nodup
  mem_iff (rows : List RowIndex) : rows ∈ (ways.map fun ms => ms.map (·.row)) ↔
    ∃ τ, Chooses n .reevaluationPositive .reevaluationNegative i rule τ rows ∧ a.groundIn n.classes τ = t
  /-- Next to the row stand the number of the literal and the fact of the row. -/
  placed : ∀ ms ∈ ways, List.Forall₂ (fun p m => m.literal = p.2 ∧ table.fact? m.row = some m.fact)
    (positives i.rule.body) ms

theorem listsWays_ways {s : σ} (hf : TracesAlike view s) (hd : i.rule.Safe) (ha : a ∈ i.rule.head) :
    ListsWays (view.table s) (view.snapshot s) i rule a t (ways (view.snapshot s) i rule a t) where
  nodup := nodup_map_ways (view.nodup_rows s)
  mem_iff rows := by
    simp only [mem_map_ways_iff hd ha, chooses_supporting_iff hf]
  placed ms hms := by
    obtain ⟨τ, -, hfollows⟩ := (mem_ways_iff hd ha).mp hms
    rw [wholeBody_eq_map] at hfollows
    exact (forall₂_of_follows hfollows).imp fun p m ⟨hl, hm⟩ =>
      ⟨hl, Table.mem_toList.mp (List.mem_filter.mp hm).1⟩

/-- A fact is derivable just if some rule fires and concludes it. -/
theorem isDerivable_iff_fires {rules : List Rule} {byLevels : Bool} (hb : Builds rules byLevels x)
    (hx : x.Safe) (ho : view.observe = none) {s : σ} (hf : TracesAlike view s) (t : Triple) :
    ∃ derivable, x.isDerivable view t s = .ok derivable s ∧ (derivable = true ↔
      ∃ (rule : Nat) (i : IndexedRule) (τ : Assignment), x.rules[rule]? = some i ∧
        i.rule.Concludes (view.classes s) τ t ∧
        Fires (view.snapshot s) .reevaluationPositive .reevaluationNegative i rule τ) := by
  obtain ⟨derivable, hderivable, hiff⟩ := isDerivable_iff view ho rfl hb hx t
  refine ⟨derivable, hderivable, hiff.trans ⟨?_, ?_⟩⟩
  · rintro ⟨head, i, a, ms, hi, ha, hms⟩
    have hmem := List.mem_of_getElem? ha
    obtain ⟨τ, h, ht⟩ := (mem_map_ways_iff (hx _ i hi) hmem).mp (List.mem_map.mpr ⟨ms, hms, rfl⟩)
    exact ⟨head.rule, i, τ, hi, ⟨a, hmem, ht⟩, exists_chooses_iff.mp ⟨_, (chooses_supporting_iff hf).mp h⟩⟩
  · rintro ⟨rule, i, τ, hi, ⟨a, ha, ht⟩, hfires⟩
    obtain ⟨rows, h⟩ := exists_chooses_iff.mpr hfires
    obtain ⟨place, hplace⟩ := List.mem_iff_getElem?.mp ha
    obtain ⟨ms, hms, -⟩ := List.mem_map.mp
      ((mem_map_ways_iff (hx _ _ hi) ha).mpr ⟨τ, (chooses_supporting_iff hf).mpr h, ht⟩)
    exact ⟨⟨rule, place⟩, i, a, ms, hi, hplace, hms⟩

/-- A fact can be traced back just if the evaluation of some rule hands it out. -/
structure DerivesAsEmitted (x : RuleIndex) (view : View σ) (s : σ) (t : Triple) (derivable : Bool)
    (emitted : Nat → List Triple) : Prop where
  derivable_eq : x.isDerivable view t s = .ok derivable s
  emitted_eq : ∀ rule < x.size,
    x.evaluateRule (view.beside _) rule record (s, []) = .ok () (s, emitted rule)
  derivable_iff : derivable = true ↔ ∃ rule < x.size, t ∈ emitted rule

/-- What is found backward from a head that a fact matches. -/
structure Traces (x : RuleIndex) (view : View σ) (s : σ) (t : Triple) (head : HeadRef) (i : IndexedRule)
    (a : Atom) (supported : Bool) (ways : List (List Match)) : Prop where
  rule_eq : x.rules[head.rule]? = some i
  head_eq : i.rule.head[head.head]? = some a
  supported_eq : x.hasSupportingInstance view head t s = .ok supported s
  ways_eq : x.supportingInstances view head t s = .ok ways s
  supported_iff : supported = true ↔ ways ≠ []
  lists : ListsWays (view.table s) (view.snapshot s) i head.rule a t ways

/-- Where a filter lets in the same rows both ways, a fact is derivable backward just if it is handed out
forward, and a head that it matches is supported by the matches under which the head is the fact, each of
which is listed once. -/
theorem isDerivable_iff_emitted {rules : List Rule} {byLevels : Bool} (hb : Builds rules byLevels x)
    (hp : ∀ r ∈ rules, r.Parsed) (ho : view.observe = none) {s : σ} (hf : TracesAlike view s) (t : Triple) :
    (∃ derivable emitted, DerivesAsEmitted x view s t derivable emitted) ∧
      ∀ head ∈ x.headsFor (view.classes s) t, ∃ i a supported ways,
        Traces x view s t head i a supported ways := by
  have hx : x.Safe := fun rule i hi => (hp _ (hb.rule_mem hi).1).safe
  constructor
  · obtain ⟨derivable, hderivable, hiff⟩ := isDerivable_iff_fires hb hx ho hf t
    refine ⟨derivable, fun rule => (x.rules[rule]?.map (emitted (view.snapshot s) · rule)).getD [],
      hderivable, fun rule hlt => ?_, hiff.trans ⟨?_, ?_⟩⟩
    · have hi := Array.getElem?_eq_getElem hlt
      rw [evaluateRule_record ho hi (hx _ _ hi), hi]
      rfl
    · rintro ⟨rule, i, τ, hi, h⟩
      refine ⟨rule, (Array.getElem?_eq_some_iff.mp hi).1, ?_⟩
      rw [hi]
      exact (mem_emitted_iff (hx _ _ hi)).mpr ⟨τ, h⟩
    · rintro ⟨rule, hlt, hmem⟩
      have hi := Array.getElem?_eq_getElem hlt
      rw [hi] at hmem
      obtain ⟨τ, h⟩ := (mem_emitted_iff (hx _ _ hi)).mp hmem
      exact ⟨rule, _, τ, hi, h⟩
  · intro head hmem
    obtain ⟨i, a, hi, ha, -⟩ := hb.mem_headsFor.mp hmem
    have hd := hx _ i hi
    refine ⟨i, a, _, _, hi, ha, hasSupportingInstance_eq view ho rfl hi hd ha,
      supportingInstances_eq view ho rfl hi hd ha, ?_, listsWays_ways hf hd (List.mem_of_getElem? ha)⟩
    rw [Bool.not_eq_true', List.isEmpty_eq_false_iff]

theorem isDerivable_iff_emitted_symmetric :
    let view := collecting (Classes.discrete.merge 5 6).2
    let s : Table × List Triple := ([⟨7, 8, 9⟩, ⟨9, 8, 10⟩, ⟨10, 4, 6⟩, ⟨9, 8, 7⟩].foldl
      (fun t fact => (t.add fact 4).2) .empty, [])
    (∃ derivable emitted, DerivesAsEmitted symmetricIndex view s ⟨9, 8, 7⟩ derivable emitted) ∧
      ∀ head ∈ symmetricIndex.headsFor (view.classes s) ⟨9, 8, 7⟩, ∃ i a supported ways,
        Traces symmetricIndex view s ⟨9, 8, 7⟩ head i a supported ways :=
  isDerivable_iff_emitted (show Builds [symmetric] false symmetricIndex from rfl)
    (fun _ hr => List.mem_singleton.mp hr ▸ parsed_symmetric) rfl ⟨fun _ _ _ => rfl, fun _ _ _ => rfl⟩ _

end RuleIndex

end Entail
