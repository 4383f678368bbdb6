import Mathlib
import Entail.Proofs.Dictionary
import Entail.Proofs.Invariant
import Entail.Proofs.Rule.Application

/-!
# Every match once

A match of a rule is a choice of one row for each positive literal (`RuleIndex.Chooses`): there is an
assignment under which the literals are the facts of the rows, and no negated literal has a match,
whatever its own variables stand for. An evaluation goes through the matches without missing one and
without repeating one (`RuleIndex.enumerates_solutions`): a row is listed once (`View.nodup_rows`), so
two matches that the search finds differ at the first literal at which it went on with different rows
(`Snapshot.nodup_solutions`). Evaluating a rule is therefore the same program as passing on the heads
of each match in turn (`RuleIndex.evaluateRule_enumerates`).
-/

namespace Entail

variable {σ : Type}

/-- A loop over lists one after the other is one loop over all of them. -/
theorem forM_flatMap {α β : Type} {m : Type → Type} [Monad m] [LawfulMonad m] (l : List α) (f : α → List β)
    (g : β → m PUnit) : (l.flatMap f).forM g = l.forM fun a => (f a).forM g := by
  induction l with
  | nil => rfl
  | cons a l ih =>
    simp only [List.flatMap_cons, List.forM_eq_forM, List.forM_append, List.forM_cons] at ih ⊢
    rw [ih]

/-! ## No match twice -/

theorem Table.nodup_toList (t : Table) : (t.toList.map (·.1)).Nodup := by
  rw [Table.toList, List.map_map]
  change (t.facts.toList.zipIdx.map ((· + 1) ∘ Prod.snd)).Nodup
  rw [← List.map_map, List.zipIdx_map_snd]
  exact (List.nodup_range' 1).map fun _ _ h => Nat.succ.inj h

/-- What an evaluation reads lists a row once. -/
theorem View.nodup_rows (view : View σ) (s : σ) (role : Role) (o : Occurrence) :
    (((view.snapshot s).rows role o).map (·.1)).Nodup :=
  (view.table s).nodup_toList.sublist (List.filter_sublist.map _)

namespace Snapshot

variable {n : Snapshot} {occurrence : Nat → Occurrence} {steps : List Step} {b : Bindings}
  {matched : List Match}

/-- What was matched before stays in front. -/
theorem prefix_of_mem_solutions {p : Bindings × List Match}
    (h : p ∈ n.solutions occurrence steps b matched) : matched <+: p.2 := by
  induction steps generalizing b matched with
  | nil =>
    obtain rfl := List.mem_singleton.mp h
    exact List.prefix_rfl
  | cons step rest ih =>
    cases step with
    | find a literal role =>
      obtain ⟨⟨row, t⟩, -, h⟩ := List.mem_flatMap.mp h
      dsimp only at h
      split at h
      · exact (List.prefix_append _ _).trans (ih h)
      · cases h
    | absent atoms literal role =>
      rw [solutions] at h
      split at h
      · cases h
      · exact ih h

/-- The row that was found for a literal stays in its place. -/
theorem getElem?_of_mem_solutions {p : Bindings × List Match} {m : Match}
    (h : p ∈ n.solutions occurrence steps b (matched ++ [m])) :
    (p.2.map (·.row))[matched.length]? = some m.row := by
  obtain ⟨more, hmore⟩ := prefix_of_mem_solutions h
  simp [← hmore]

/-- No two matches that are found have the same rows. -/
theorem nodup_solutions (hn : ∀ role o, ((n.rows role o).map (·.1)).Nodup) :
    ((n.solutions occurrence steps b matched).map fun p => p.2.map (·.row)).Nodup := by
  induction steps generalizing b matched with
  | nil => exact List.nodup_singleton _
  | cons step rest ih =>
    cases step with
    | find a literal role =>
      rw [solutions, List.map_flatMap]
      refine List.nodup_flatMap.mpr ⟨fun r _ => ?_, ?_⟩
      · dsimp only
        split
        · exact ih
        · exact List.nodup_nil
      · -- what is found with two rows differs at this literal
        refine (List.pairwise_map.mp (hn role (occurrence literal))).imp fun {r r'} hne => ?_
        refine List.disjoint_left.mpr fun rows h h' => ?_
        obtain ⟨p, hp, rfl⟩ := List.mem_map.mp h
        obtain ⟨p', hp', he⟩ := List.mem_map.mp h'
        dsimp only at hp hp' he
        split at hp <;> [skip; cases hp]
        split at hp' <;> [skip; cases hp']
        have hrow := getElem?_of_mem_solutions hp
        rw [← he, getElem?_of_mem_solutions hp'] at hrow
        exact hne (Option.some.inj hrow).symm
    | absent atoms literal role =>
      rw [solutions]
      split
      · exact List.nodup_nil
      · exact ih

end Snapshot

namespace RuleIndex

variable {view : View σ} {n : Snapshot} {x : RuleIndex} {i : IndexedRule} {rule : Nat}
  {consume : Nat → Triple → Eval σ Unit} {positive negative : Role} {τ : Assignment}
  {rows : List RowIndex}

/-! ## Choices of rows -/

/-- The atom of a positive literal, with the number of the literal. -/
def positive? : Literal × Nat → Option (Atom × Nat)
  | (.positive a, k) => some (a, k)
  | (.negative _, _) => none

/-- The positive literals of a body, with their numbers. -/
def positives (body : List Literal) : List (Atom × Nat) := body.zipIdx.filterMap positive?

/-- The rows are a match of a rule under an assignment: one accepted row for each positive literal, in
their order, with the fact that the literal becomes; and no negated literal has a match. -/
structure Chooses (n : Snapshot) (positive negative : Role) (i : IndexedRule) (rule : Nat)
    (τ : Assignment) (rows : List RowIndex) : Prop where
  found : List.Forall₂ (fun p row => (row, p.1.groundIn n.classes τ) ∈ n.rows positive (occurrence i rule p.2))
    (positives i.rule.body) rows
  unmatched : i.rule.Unmatched n.classes τ fun k u => n.Present negative (occurrence i rule k) u

/-- The list has every match of a rule once, with an assignment under which it is one. -/
structure Enumerates (n : Snapshot) (positive negative : Role) (i : IndexedRule) (rule : Nat)
    (choices : List (List RowIndex × Assignment)) : Prop where
  nodup : (choices.map (·.1)).Nodup
  chooses : ∀ p ∈ choices, Chooses n positive negative i rule p.2 p.1
  /-- A match is there, and every assignment under which it is one gives the rule's bound variables the
  same values. -/
  complete : ∀ τ rows, Chooses n positive negative i rule τ rows →
    ∃ τ', (rows, τ') ∈ choices ∧ ∀ v ∈ Rule.boundVariables i.rule.body, τ' v = τ v

/-- What steps for literals find are the rows of a choice. -/
theorem exists_follows_map_iff {occurrence : Nat → Occurrence} {B : Nat → Prop}
    (l : List (Literal × Nat)) :
    (∃ more, n.Follows occurrence B τ (l.map fun p => stepOf (fun _ => positive) (fun _ => negative) p.1 p.2)
        more ∧ more.map (·.row) = rows) ↔
      List.Forall₂ (fun p row => (row, p.1.groundIn n.classes τ) ∈ n.rows positive (occurrence p.2))
        (l.filterMap positive?) rows ∧
      ∀ k atoms, (.negative atoms, k) ∈ l → n.Absent negative (occurrence k) B τ atoms := by
  induction l generalizing rows with
  | nil =>
    constructor
    · rintro ⟨_, h, rfl⟩
      cases h
      exact ⟨.nil, fun _ _ h => (List.not_mem_nil h).elim⟩
    · rintro ⟨h, -⟩
      cases h
      exact ⟨[], .nil, rfl⟩
  | cons p l ih =>
    obtain ⟨literal, k⟩ := p
    cases literal with
    | positive a =>
      constructor
      · rintro ⟨_, h, rfl⟩
        cases h with
        | find hrow hrest =>
          obtain ⟨hfound, habsent⟩ := ih.mp ⟨_, hrest, rfl⟩
          refine ⟨.cons hrow hfound, fun j atoms h => habsent j atoms ?_⟩
          simpa using h
      · rintro ⟨h, habsent⟩
        cases h with
        | cons hrow hfound =>
          obtain ⟨more, hrest, rfl⟩ := ih.mpr ⟨hfound, fun j atoms h =>
            habsent j atoms (List.mem_cons_of_mem _ h)⟩
          exact ⟨_, .find hrow hrest, rfl⟩
    | negative atoms =>
      constructor
      · rintro ⟨_, h, rfl⟩
        cases h with
        | absent h hrest =>
          obtain ⟨hfound, habsent⟩ := ih.mp ⟨_, hrest, rfl⟩
          refine ⟨hfound, fun j as hmem => ?_⟩
          rcases List.mem_cons.mp hmem with hmem | hmem
          · cases hmem
            exact h
          · exact habsent j as hmem
      · rintro ⟨hfound, habsent⟩
        obtain ⟨more, hrest, rfl⟩ := ih.mpr ⟨hfound, fun j as h =>
          habsent j as (List.mem_cons_of_mem _ h)⟩
        exact ⟨_, .absent (habsent k atoms List.mem_cons_self) hrest, rfl⟩

theorem wholeBody_eq_map (body : List Literal) (positive negative : Role) :
    wholeBody body positive negative =
      body.zipIdx.map fun p => stepOf (fun _ => positive) (fun _ => negative) p.1 p.2 := by
  rw [wholeBody_eq, stepsOf, List.filter_true]

theorem chooses_iff : Chooses n positive negative i rule τ rows ↔
    ∃ more, n.Follows (occurrence i rule) (· ∈ Rule.boundVariables i.rule.body) τ
      (wholeBody i.rule.body positive negative) more ∧ more.map (·.row) = rows := by
  rw [wholeBody_eq_map, exists_follows_map_iff]
  simp only [List.mem_zipIdx_iff_getElem?]
  exact ⟨fun h => ⟨h.found, h.unmatched⟩, fun h => ⟨h.1, h.2⟩⟩

/-- A rule fires under an assignment just if there is a match. -/
theorem exists_chooses_iff :
    (∃ rows, Chooses n positive negative i rule τ rows) ↔ Fires n positive negative i rule τ := by
  simp only [chooses_iff, ← exists_follows_wholeBody_iff]
  exact ⟨fun ⟨_, more, hmore, _⟩ => ⟨more, hmore⟩, fun ⟨more, hmore⟩ => ⟨_, more, hmore, rfl⟩⟩

/-- The search through a body goes through its matches, each of them once. -/
theorem enumerates_solutions (hd : i.rule.Safe) (hn : ∀ role o, ((n.rows role o).map (·.1)).Nodup) :
    Enumerates n positive negative i rule
      ((n.solutions (occurrence i rule) (wholeBody i.rule.body positive negative)
        (Bindings.free i.rule.names.length) []).map fun p =>
          (p.2.map (·.row), p.1.exists_agrees.choose)) := by
  have ha := scopes_wholeBody_free positive negative hd
  have hg := grounded_wholeBody_free positive negative hd
  refine ⟨?_, fun q hq => ?_, fun τ rows h => ?_⟩
  · rw [List.map_map]
    exact Snapshot.nodup_solutions hn
  · obtain ⟨p, hp, rfl⟩ := List.mem_map.mp hq
    obtain ⟨more, hmore, hall⟩ := (Snapshot.Solves.of_mem ha hg hp).finds
    rw [List.nil_append] at hmore
    exact chooses_iff.mpr ⟨more, (hall _ p.1.exists_agrees.choose_spec).2, by rw [hmore]⟩
  · obtain ⟨more, hmore, rfl⟩ := chooses_iff.mp h
    obtain ⟨b, hmem, hb⟩ := Snapshot.exists_solution ha hg (Bindings.agrees_free _ τ) hmore []
    refine ⟨_, List.mem_map.mpr ⟨_, hmem, rfl⟩, fun v hv => ?_⟩
    exact b.exists_agrees.choose_spec.eq_of_binds hb ((Snapshot.Solves.of_mem ha hg hmem).binds v hv)

/-! ## Evaluating a rule -/

/-- A consumer that leaves alone what is read is handed the heads of a match. -/
theorem emitHeads_eq (hd : i.rule.Safe) (hc : ∀ head, Preserves (view.snapshot · = n) (consume rule head))
    {b : Bindings} (hb : ∀ v ∈ Rule.boundVariables i.rule.body, b.Binds v) (hτ : b.Agrees τ) {s : σ}
    (hs : view.snapshot s = n) :
    emitHeads view i rule consume b s =
      (i.rule.head.forM fun a => consume rule (a.groundIn n.classes τ)) s := by
  refine Preserves.forM_congr (fun a ha s hs => ?_) (fun a _ => hc _) hs
  have hclasses : view.classes s = n.classes := by rw [← hs]; rfl
  have hread : b.instantiate n.classes rule a = .ok (a.groundIn n.classes τ) :=
    Bindings.instantiate_eq hτ fun v hv => hb v (Rule.mem_boundVariables.mpr (hd.bound a ha v hv))
  simp only [Bind.bind, EStateM.bind, Eval.reads, hclasses, hread]

/-- Going through the matches of some steps hands the heads of each match to a consumer, if the steps bind
all that the body binds. -/
theorem derive_emits (ho : view.observe = none) (hd : i.rule.Safe)
    (hc : ∀ head, Preserves (view.snapshot · = n) (consume rule head)) {steps : List Step} {b : Bindings}
    (ha : ∀ step ∈ steps, ∀ a ∈ step.atoms, b.Scopes a)
    (hg : Grounded steps b (· ∈ Rule.boundVariables i.rule.body)) (matched : List Match) {s : σ}
    (hs : view.snapshot s = n) :
    derive view i rule consume steps b matched s =
      ((n.solutions (occurrence i rule) steps b matched).forM fun p =>
        i.rule.head.forM fun a => consume rule (a.groundIn n.classes p.1.toAssignment)) s := by
  have hkeep : ∀ τ : Assignment, Preserves (view.snapshot · = n)
      (i.rule.head.forM fun a => consume rule (a.groundIn n.classes τ)) := fun τ => .forM fun a _ => hc _
  have hemit : ∀ p ∈ n.solutions (occurrence i rule) steps b matched, ∀ s, view.snapshot s = n →
      emitHeads view i rule consume p.1 s =
        (i.rule.head.forM fun a => consume rule (a.groundIn n.classes p.1.toAssignment)) s :=
    fun p hmem _ => emitHeads_eq hd hc (Snapshot.Solves.of_mem ha hg hmem).binds p.1.agrees_toAssignment
  rw [derive_eq ho (fun _ => id) ha (fun p hmem s hs r s' h => hkeep _ s hs r s' (hemit p hmem s hs ▸ h)) hs]
  exact Preserves.forM_congr hemit (fun p _ => hkeep _) hs

/-- Evaluating a rule hands to a consumer, for every match of its body and once for each, all heads in
their order, and nothing else. What the consumer does must leave the rows and the classes that are read
as they are; it may fail, which ends the evaluation. -/
theorem evaluateRule_enumerates (ho : view.observe = none) (hi : x.rules[rule]? = some i)
    (hp : i.rule.Parsed) (hc : ∀ head, Preserves (view.snapshot · = n) (consume rule head)) {s : σ}
    (hs : view.snapshot s = n) :
    ∃ choices, Enumerates n .reevaluationPositive .reevaluationNegative i rule choices ∧
      x.evaluateRule view rule consume s =
        (choices.forM fun p => i.rule.head.forM fun a => consume rule (a.groundIn n.classes p.2)) s := by
  have hd := hp.safe
  have ha := scopes_wholeBody .reevaluationPositive .reevaluationNegative hd
    (Bindings.size_free i.rule.names.length)
  have hg := grounded_wholeBody .reevaluationPositive .reevaluationNegative hd
    (b := Bindings.free i.rule.names.length) fun v hv => (Bindings.not_binds_free hv).elim
  refine ⟨_, enumerates_solutions hd (hs ▸ view.nodup_rows s), ?_⟩
  generalize hsols : n.solutions (occurrence i rule)
    (wholeBody i.rule.body .reevaluationPositive .reevaluationNegative)
    (Bindings.free i.rule.names.length) [] = sols
  have hkeep : ∀ τ : Assignment, Preserves (view.snapshot · = n)
      (i.rule.head.forM fun a => consume rule (a.groundIn n.classes τ)) := fun τ => .forM fun a _ => hc _
  have hemit : ∀ p ∈ sols, ∀ s, view.snapshot s = n → emitHeads view i rule consume p.1 s =
      (i.rule.head.forM fun a => consume rule (a.groundIn n.classes p.1.exists_agrees.choose)) s := by
    intro p hmem s hs
    subst hsols
    exact emitHeads_eq hd hc (Snapshot.Solves.of_mem ha hg hmem).binds p.1.exists_agrees.choose_spec hs
  calc x.evaluateRule view rule consume s
      = derive view i rule consume (wholeBody i.rule.body .reevaluationPositive .reevaluationNegative)
          (Bindings.free i.rule.names.length) [] s := by rw [evaluateRule, hi]
    _ = (sols.forM fun p => emitHeads view i rule consume p.1) s := by
        rw [← hsols]
        refine derive_eq ho (fun _ => id) ha (fun p hmem s hs r s' h => ?_) hs
        rw [hsols] at hmem
        exact hkeep _ s hs r s' (hemit p hmem s hs ▸ h)
    _ = (sols.forM fun p =>
          i.rule.head.forM fun a => consume rule (a.groundIn n.classes p.1.exists_agrees.choose)) s :=
        Preserves.forM_congr hemit (fun p _ => hkeep _) hs
    _ = _ := by simp only [List.forM_eq_forM, List.forM_map]

/-- Whatever predicates are symmetric where they do not lead on to something private. -/
def symmetric : Rule where
  head := [⟨.var 0, .var 1, .var 2⟩, ⟨.var 2, .var 1, .var 0⟩]
  body := [.positive ⟨.var 0, .var 1, .var 2⟩,
    .negative [⟨.var 2, .var 1, .var 3⟩, ⟨.var 3, .const 4, .const 5⟩]]
  level := 0
  names := ["x", "p", "y", "z"]

theorem parsed_symmetric : symmetric.Parsed := by
  obtain ⟨d, hd⟩ := Dictionary.exists_ids (l := [.rdfType, .owlSameAs, .owlNothing, .iri "is",
    .iri "private"]) (by decide)
  have his := hd 3 (.iri "is") rfl
  have hprivate := hd 4 (.iri "private") rfl
  refine ⟨"?x ?p ?y , ?y ?p ?x :- ?x ?p ?y , not ?y ?p ?z & ?z is private", d, d, ?_⟩
  cbv
  grind

/-- An index of the rule `symmetric`. -/
def symmetricIndex : RuleIndex := (RuleIndex.build [symmetric] false).toOption.getD .empty

/-- Reads a table modulo classes, and keeps the facts that were handed out. -/
def collecting (classes : Classes) : View (Table × List Triple) where
  table s := s.1
  classes _ := some classes
  accepts _ _ _ _ status := status != 0

/-- Keeps a fact. -/
def collect (_ : Nat) (t : Triple) : Eval (Table × List Triple) Unit :=
  modify fun s => (s.1, s.2 ++ [t])

theorem evaluateRule_enumerates_symmetric :
    ∃ i, symmetricIndex.rules[0]? = some i ∧
      let view := collecting (Classes.discrete.merge 5 6).2
      let s : Table × List Triple := ([⟨7, 8, 9⟩, ⟨9, 8, 10⟩, ⟨10, 4, 6⟩, ⟨9, 8, 7⟩].foldl
        (fun t fact => (t.add fact 4).2) .empty, [])
      ∃ choices, Enumerates (view.snapshot s) .reevaluationPositive .reevaluationNegative i 0 choices ∧
        symmetricIndex.evaluateRule view 0 collect s =
          (choices.forM fun p => i.rule.head.forM fun a =>
            collect 0 (a.groundIn (view.snapshot s).classes p.2)) s :=
  ⟨_, rfl, evaluateRule_enumerates rfl rfl parsed_symmetric
    (fun head s hs r s' h => by cases h; exact hs) rfl⟩

end RuleIndex

end Entail
