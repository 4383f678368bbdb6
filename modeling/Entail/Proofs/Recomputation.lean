import Entail.Proofs.Agreement

/-!
# Recomputation

Whatever an engine was asked for before, and whatever its store holds (`Engine.Reachable`), its index is
that of its rules (`Reachable.indexed`), since a call that fails leaves the engine as it was when it
failed (`Always`), and materializing and updating keep what is `Lasting`. So without equality
`Engine.materialize` makes the perfect model of the rules over the asserted facts, or the least model if
levels are not in use (`materialize_agrees`). Neither depends on the order of the rules.
-/

namespace Entail

/-! ## Models depend on which rules there are -/

section congr

variable {rules rules' : List Rule} (h : ∀ r, r ∈ rules ↔ r ∈ rules') (base : Set Triple)

include h

theorem leastModel_congr : leastModel rules base = leastModel rules' base :=
  (leastModel_subset subset_leastModel fun _ hr => closes_leastModel ((h _).mp hr)).antisymm
    (leastModel_subset subset_leastModel fun _ hr => closes_leastModel ((h _).mpr hr))

theorem stratum_congr (n : Nat) : stratum rules base n = stratum rules' base n := by
  induction n with
  | zero => rfl
  | succ n ih =>
    have hsub : ∀ {rules rules' : List Rule} {lower t}, (∀ r, r ∈ rules → r ∈ rules') →
        DerivableAt rules n lower t → DerivableAt rules' n lower t := by
      intro rules rules' lower t hmem ht
      induction ht with
      | lower ht => exact .lower ht
      | rule hr hl _ hn ha ih => exact .rule (hmem _ hr) hl ih hn ha
    rw [stratum, stratum, ih]
    exact Set.ext fun t => ⟨hsub fun r => (h r).mp, hsub fun r => (h r).mpr⟩

theorem perfectModel_congr : perfectModel rules base = perfectModel rules' base := by
  simp only [perfectModel, stratum_congr h]

end congr

namespace Engine

/-! ## Calls -/

/-- The engine in which a computation ends or fails. -/
def afterwards {α : Type} (x : Action α) (e : Engine) : Engine :=
  match x e with
  | .ok _ e' => e'
  | .error _ e' => e'

/-- What an engine may be asked for. -/
inductive Call where
  | intern (text : String)
  | parseTriple (text : String)
  | addRule (rule : Rule)
  | addRuleText (text : String) (level : Nat)
  | addFact (t : Triple)
  | materialize
  | applyChanges (retractions assertions : List Triple) (monitored : Bool) (stop : StopPoint)
  | requestStop

/-- What a call does. -/
def Call.action : Call → Action Unit
  | intern text => discard (Engine.intern text)
  | parseTriple text => discard (Engine.parseTriple text)
  | addRule rule => Engine.addRule rule
  | addRuleText text level => Engine.addRuleText text level
  | addFact t => Engine.addFact t
  | materialize => discard Engine.materialize
  | applyChanges retractions assertions monitored stop =>
    discard (Engine.applyChanges retractions assertions monitored stop)
  | requestStop => Engine.requestStop

/-- The engines that calls lead to from one whose rules are not indexed yet, with any store. -/
inductive Reachable : Engine → Prop
  | start {e : Engine} (h : e.index = none) : Reachable e
  | call {e : Engine} (c : Call) (h : Reachable e) : Reachable (afterwards c.action e)

/-- A computation keeps a property of an engine, also if it fails. -/
def Always (P : Engine → Prop) {α : Type} (x : Action α) : Prop := ∀ e, P e → P (afterwards x e)

section Always

variable {P : Engine → Prop} {α β : Type} {x : Action α}

theorem always_pure (a : α) : Always P (pure a) := fun _ h => h

theorem always_throw (failure : Failure) : Always P (throw failure : Action α) := fun _ h => h

theorem always_get : Always P (get : Action Engine) := fun _ h => h

theorem always_modifyGet {f : Engine → α × Engine} (h : ∀ e, P e → P (f e).2) :
    Always P (modifyGet f : Action α) := h

theorem always_modify {f : Engine → Engine} (h : ∀ e, P e → P (f e)) : Always P (modify f) := h

theorem always_bind {f : α → Action β} (hx : Always P x) (hf : ∀ a, Always P (f a)) :
    Always P (x >>= f) := by
  intro e h
  have hx := hx e h
  rw [afterwards] at hx ⊢
  simp only [bind, EStateM.bind]
  cases hr : x e with
  | ok a e' =>
    rw [hr] at hx
    exact hf a e' hx
  | error failure e' =>
    rw [hr] at hx
    exact hx

/-- What is done next may depend on the engine. -/
theorem always_bind_get {f : Engine → Action β} (h : ∀ e, P e → Always P (f e)) : Always P (get >>= f) :=
  fun e he => h e he e he

theorem always_discard (hx : Always P x) : Always P (discard x) :=
  always_bind hx fun _ => always_pure _

theorem always_ite {p : Prop} [Decidable p] {y : Action α} (hx : Always P x) (hy : Always P y) :
    Always P (if p then x else y) := by
  split
  · exact hx
  · exact hy

theorem always_perform {x : Routine α} (h : ∀ e run, P e → P { e with run }) :
    Always P (perform x) := by
  intro e he
  rw [afterwards, perform]
  cases x e.run with
  | ok a run => exact h e run he
  | error failure run => exact h e run he

theorem Always.of_eq_ok {e e' : Engine} {a : α} (hx : Always P x) (h : P e) (he : x e = .ok a e') :
    P e' := by
  have := hx e h
  rwa [afterwards, he] at this

/-- A text is given an id. -/
theorem always_intern (hd : ∀ e dictionary, P e → P { e with dictionary }) (text : String) :
    Always P (intern text) :=
  always_modifyGet fun e he => hd e _ he

theorem always_parseTriple (hd : ∀ e dictionary, P e → P { e with dictionary }) (text : String) :
    Always P (parseTriple text) := by
  rw [parseTriple]
  generalize factWords text = words
  split
  · refine always_bind (always_intern hd _) fun s => ?_
    refine always_bind (always_intern hd _) fun p => ?_
    exact always_bind (always_intern hd _) fun o => always_pure _
  · exact always_throw _

theorem always_addRuleText (hd : ∀ e dictionary, P e → P { e with dictionary })
    (hrule : ∀ rule, Always P (addRule rule)) (text : String) (level : Nat) :
    Always P (addRuleText text level) := by
  refine always_bind (always_modifyGet fun e he => ?_) fun parsed => ?_
  · rcases Rule.parse text e.dictionary with ⟨parsed, dictionary⟩
    exact hd e dictionary he
  cases parsed with
  | ok rule => exact hrule _
  | error error => exact always_throw _

/-- An update may compute the materialization and then maintains it. -/
theorem always_applyChanges {retractions assertions : List Triple} {monitored : Bool} {stop : StopPoint}
    (hmaterialize : Always P materialize)
    (hmaintain : Always P (maintain retractions assertions monitored stop)) :
    Always P (applyChanges retractions assertions monitored stop) := by
  refine always_bind always_get fun e => ?_
  refine always_ite (always_bind (always_throw _) fun _ => ?_) ?_ <;>
    exact always_ite (always_bind (always_discard hmaterialize) fun _ => hmaintain) hmaintain

end Always

/-- A property of engines that has nothing to do with the store and the materialization, and that
indexing the rules keeps. -/
structure Lasting (P : Engine → Prop) : Prop where
  ensureIndex : Always P ensureIndex
  run (e : Engine) (run : Run) (h : P e) : P { e with run }
  materialized (e : Engine) (materialized : Bool) (h : P e) : P { e with materialized }

namespace Lasting

variable {P : Engine → Prop} (h : Lasting P)

include h

theorem materialize : Always P materialize :=
  always_bind h.ensureIndex fun _ => always_bind always_get fun _ =>
    always_bind (always_perform h.run) fun _ =>
      always_bind (always_modify fun e => h.materialized e true) fun _ => always_pure _

theorem maintain (retractions assertions : List Triple) (monitored : Bool) (stop : StopPoint) :
    Always P (maintain retractions assertions monitored stop) :=
  always_bind h.ensureIndex fun _ => always_bind always_get fun _ =>
    always_bind (always_perform h.run) fun _ =>
      always_ite (always_bind (always_modify fun e => h.materialized e false) fun _ => always_pure _)
        (always_pure _)

theorem applyChanges (retractions assertions : List Triple) (monitored : Bool) (stop : StopPoint) :
    Always P (applyChanges retractions assertions monitored stop) :=
  always_applyChanges h.materialize (h.maintain retractions assertions monitored stop)

end Lasting

/-- If there is an index, it is that of the rules. -/
def Indexed (e : Engine) : Prop :=
  ∀ y, e.index = some y → buildIndex e.rules.toList e.mode = .ok y

theorem Indexed.loaded {e : Engine} {x : RuleIndex} (h : Indexed e)
    (hx : buildIndex e.rules.toList e.mode = .ok x) : Loaded e.rules.toList e.mode x e :=
  ⟨rfl, rfl, fun y hy => Except.ok.inj ((h y hy).symm.trans hx)⟩

theorem lasting_indexed : Lasting Indexed where
  ensureIndex := by
    intro e h
    rw [afterwards, ensureIndex]
    cases hi : e.index with
    | some y => exact h
    | none =>
      dsimp only
      cases hb : buildIndex e.rules.toList e.mode with
      | ok y =>
        rintro z ⟨⟩
        exact hb
      | error error => exact h
  run _ _ := id
  materialized _ _ := id

/-- Two engines have the same rules and the same way to maintain them. -/
structure SameRules (e e' : Engine) : Prop where
  rules_eq : e'.rules = e.rules
  mode_eq : e'.mode = e.mode
  strategy_eq : e'.strategy = e.strategy

theorem lasting_sameRules (e : Engine) : Lasting (SameRules e) where
  ensureIndex := by
    intro e' h
    rw [afterwards, ensureIndex]
    cases e'.index with
    | some y => exact h
    | none => cases buildIndex e'.rules.toList e'.mode <;> exact ⟨h.rules_eq, h.mode_eq, h.strategy_eq⟩
  run _ _ h := ⟨h.rules_eq, h.mode_eq, h.strategy_eq⟩
  materialized _ _ h := ⟨h.rules_eq, h.mode_eq, h.strategy_eq⟩

/-- Calls keep the index that of the rules. -/
theorem Reachable.indexed {e : Engine} (h : Reachable e) : Indexed e := by
  induction h with
  | start h =>
    intro y hy
    rw [h] at hy
    cases hy
  | call c _ ih =>
    suffices hc : Always Indexed c.action from hc _ ih
    have hd : ∀ e dictionary, Indexed e → Indexed { e with dictionary } := fun _ _ => id
    -- new rules are not indexed
    have hrule : ∀ rule, Always Indexed (Engine.addRule rule) := fun _ =>
      always_modify fun _ _ _ hy => by cases hy
    cases c with
    | intern text => exact always_discard (always_intern hd text)
    | parseTriple text => exact always_discard (always_parseTriple hd text)
    | addRule rule => exact hrule rule
    | addRuleText text level => exact always_addRuleText hd hrule text level
    | addFact t => exact always_modify fun _ h => h
    | materialize => exact always_discard lasting_indexed.materialize
    | applyChanges retractions assertions monitored stop =>
      exact always_discard (lasting_indexed.applyChanges retractions assertions monitored stop)
    | requestStop => exact always_modify fun _ h => h

/-! ## Materialization -/

variable {e : Engine} {t : Triple}

/-- What is known of a fact by its status. -/
theorem any_statusOf_iff {p : Status → Bool} :
    (e.statusOf t).any p = true ↔ e.run.table.Holds (fun row => p (e.run.table.status row)) t := by
  rw [statusOf, Option.any_eq_true]
  simp only [Option.map_eq_some_iff, Table.index?_eq_some_iff]
  constructor
  · rintro ⟨_, ⟨row, hf, rfl⟩, ha⟩
    exact ⟨row, hf, ha⟩
  · rintro ⟨row, hf, ha⟩
    exact ⟨_, ⟨row, hf, rfl⟩, ha⟩

theorem isAsserted_iff : e.isAsserted t = true ↔ e.run.Asserted t := any_statusOf_iff

/-- Rules are accepted if they can be indexed and have no negation without levels. -/
theorem buildIndex_eq_ok {rules : List Rule} {mode : Mode} {x : RuleIndex}
    (h : buildIndex rules mode = .ok x) :
    RuleIndex.Builds rules mode.usesLevels x ∧
      (mode.usesLevels = false → x.hasNegation .all = false) := by
  rw [buildIndex] at h
  cases hx : RuleIndex.build rules mode.usesLevels with
  | error error =>
    rw [hx] at h
    cases h
  | ok y =>
    rw [hx] at h
    simp only [bind, Except.bind] at h
    split at h
    · cases h
    · rename_i hn
      cases h
      exact ⟨hx, fun hu => by simpa [hu] using hn⟩

/-- The rules of an engine without equality were read from texts, and they are accepted. -/
structure Accepts (e : Engine) : Prop where
  equality : e.mode.equality = .off
  parsed : ∀ r ∈ e.rules.toList, r.Parsed
  accepted : WP ensureIndex e fun _ _ => True
  /-- There is room for the rules of every level. -/
  fit (h : e.mode.byLevels = true) : ∀ r ∈ e.rules.toList, r.level < Update.levelLimit

namespace Accepts

variable (h : Accepts e)

include h

theorem usesLevels_eq : e.mode.usesLevels = e.mode.byLevels := by
  rw [Mode.usesLevels, h.equality]
  cases e.mode.byLevels <;> rfl

theorem exists_index (hi : Indexed e) :
    ∃ x, buildIndex e.rules.toList e.mode = .ok x ∧ Loaded e.rules.toList e.mode x e := by
  suffices hx : ∃ x, buildIndex e.rules.toList e.mode = .ok x by
    obtain ⟨x, hx⟩ := hx
    exact ⟨x, hx, hi.loaded hx⟩
  obtain ⟨x, e', hx, -⟩ := h.accepted
  rw [ensureIndex] at hx
  cases he : e.index with
  | some y => exact ⟨y, hi y he⟩
  | none =>
    rw [he] at hx
    dsimp only at hx
    cases hb : buildIndex e.rules.toList e.mode with
    | ok y => exact ⟨y, rfl⟩
    | error error =>
      rw [hb] at hx
      cases hx

/-- What the rules make of base facts is the perfect model, or the least model without levels. -/
theorem meaning {x : RuleIndex} (hx : buildIndex e.rules.toList e.mode = .ok x) :
    Meaning e.rules.toList e.mode x fun base =>
      if e.mode.byLevels then perfectModel e.rules.toList base else leastModel e.rules.toList base := by
  obtain ⟨hb, hneg⟩ := buildIndex_eq_ok hx
  have hsafe : x.Safe := fun _ _ hi => (h.parsed _ (hb.rule_mem hi).1).safe
  have hdefinite : e.mode.usesLevels = false → x.Definite := fun hu rule i hi => by
    refine ⟨hsafe rule i hi, ?_⟩
    have hno := hneg hu
    rw [RuleIndex.hasNegation, ← Array.any_toList, List.any_eq_false] at hno
    have hmem : i ∈ x.rules.toList := List.mem_of_getElem? (by rwa [Array.getElem?_toList])
    simpa [Scope.includes] using hno i hmem
  refine ⟨hb, h.equality, hsafe, hdefinite, fun hu => h.fit (h.usesLevels_eq ▸ hu), fun base => ?_⟩
  cases hl : e.mode.byLevels with
  | true =>
    rw [h.usesLevels_eq, hl] at hb ⊢
    exact hb.models_perfectModel
  | false =>
    rw [h.usesLevels_eq, hl] at hb hdefinite ⊢
    exact hb.models_leastModel (hdefinite rfl)

end Accepts

/-- What is materialized is the perfect model of the rules over the asserted facts, or the least model
without levels, whatever the engine was asked for before. The order of the rules does not matter. -/
theorem materialize_agrees (hreach : Reachable e) (h : Accepts e) {rules : List Rule}
    (hrules : ∀ r, r ∈ rules ↔ r ∈ e.rules.toList) {base : Set Triple}
    (hbase : ∀ t, t ∈ base ↔ e.isAsserted t = true) :
    WP materialize e fun _ e' =>
      (e.mode.byLevels = true → AgreesPerfectly rules e'.facts base) ∧
      (e.mode.byLevels = false → Agrees rules e'.facts base) := by
  obtain ⟨x, hx, hloaded⟩ := h.exists_index hreach.indexed
  have hm := h.meaning hx
  have hU := Context.universe_factBound (c := e.context x false .never) hm.builds hm.safe e.run
  have hE : {t | e.run.Asserted t} = base := Set.ext fun t => (hbase t).trans isAsserted_iff |>.symm
  refine (hm.materialize_wp hU hloaded fun row t hf => subset_leastModel ⟨row, hf⟩).mono ?_
  rintro _ e' ⟨_, hbefore, _⟩
  rw [hE] at hbefore
  refine ⟨fun hl t => ?_, fun hl t => ?_⟩
  · rw [mem_facts, hbefore, if_pos hl, perfectModel_congr hrules]
  · rw [mem_facts, hbefore, if_neg (by rw [hl]; decide), leastModel_congr hrules]

/-- What is linked is linked over steps. -/
def linking : Rule where
  head := [⟨.var 0, .const 4, .var 1⟩]
  body := [.positive ⟨.var 0, .const 4, .var 2⟩, .positive ⟨.var 2, .const 4, .var 1⟩]
  level := 0
  names := ["x", "z", "y"]

/-- What is mentioned but not linked to anything that is linked on is an end. -/
def ending : Rule where
  head := [⟨.var 0, .const 5, .var 1⟩]
  body := [.positive ⟨.var 0, .var 2, .var 1⟩,
    .negative [⟨.var 1, .const 4, .var 3⟩, ⟨.var 3, .const 4, .var 4⟩]]
  level := 1
  names := ["x", "y", "p", "z", "w"]

/-- An engine that was given rules and facts and was then asked to stop. -/
def linked : Engine :=
  [.addRule linking, .addFact ⟨7, 4, 8⟩, .addRule ending, .addFact ⟨8, 4, 9⟩, .addFact ⟨7, 6, 9⟩,
    .addFact ⟨9, 6, 7⟩, .requestStop].foldl (fun e (c : Call) => afterwards c.action e) {}

theorem accepts_linked : Accepts linked where
  equality := rfl
  parsed := by
    obtain ⟨d, hd⟩ := Dictionary.exists_ids (l := [.rdfType, .owlSameAs, .owlNothing, .iri "linked",
      .iri "end"]) (by decide)
    have hlinked := hd 3 (.iri "linked") rfl
    have hend := hd 4 (.iri "end") rfl
    rintro r hr
    rcases List.mem_pair.mp hr with rfl | rfl
    · refine ⟨"?x linked ?z :- ?x linked ?y , ?y linked ?z", d, d, ?_⟩
      cbv
      grind
    · refine ⟨"?x end ?y :- ?x ?p ?y , not ?y linked ?z & ?z linked ?w", d, d, ?_⟩
      cbv
      grind
  accepted := ⟨_, _, rfl, trivial⟩
  fit _ := by
    rintro r hr
    rcases List.mem_pair.mp hr with rfl | rfl <;> decide

theorem materialize_agrees_linked :
    WP materialize linked fun _ e' =>
      (linked.mode.byLevels = true →
        AgreesPerfectly [ending, linking] e'.facts {t | linked.isAsserted t = true}) ∧
      (linked.mode.byLevels = false →
        Agrees [ending, linking] e'.facts {t | linked.isAsserted t = true}) :=
  materialize_agrees (e := linked)
    (.call .requestStop (.call (.addFact ⟨9, 6, 7⟩) (.call (.addFact ⟨7, 6, 9⟩)
      (.call (.addFact ⟨8, 4, 9⟩) (.call (.addRule ending) (.call (.addFact ⟨7, 4, 8⟩)
        (.call (.addRule linking) (.start rfl))))))))
    accepts_linked (fun _ => by rw [List.mem_pair, or_comm]; exact List.mem_pair.symm) fun _ => Iff.rfl

end Engine

end Entail
