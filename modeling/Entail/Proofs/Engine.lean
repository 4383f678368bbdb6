import Entail.Engine
import Entail.Proofs.Maintenance.Update
import Entail.Proofs.Rule.Safety

/-!
# The engine and recomputation

An engine without equality materializes rules with a model over any base facts (`Engine.Meaning`),
whatever its store holds by then (`Meaning.materialize_wp`). It can maintain them if their negation is
simple (`Engine.Setting`); rules without negation have a model (`Maintainable.setting`). Between two
calls an engine keeps its rules, and its materialization, if it is up to date, is the model over the
asserted facts (`Engine.Keeps`). Bringing it up to date after a batch of changes keeps this
(`applyChanges_wp`), provided that the strategy deletes what has lost its support (`Reliable`).
-/

namespace Entail.Engine

open Maintenance (Revision Deletes LevelsFit revised)

variable {rules : List Rule} {mode : Mode} {strategy : Strategy} {x : RuleIndex} {U E : Set Triple}
  {M : Set Triple → Set Triple} {e : Engine} {t : Triple} {N : Nat}

/-! ## Rules -/

/-- Rules that can be indexed are accepted, if they have no negation without levels. -/
theorem buildIndex_of_definite (hb : RuleIndex.Builds rules mode.usesLevels x)
    (hd : mode.usesLevels = false → x.Definite) : buildIndex rules mode = .ok x := by
  have hneg : (!mode.usesLevels && x.hasNegation .all) = false := by
    cases hu : mode.usesLevels with
    | true => rfl
    | false =>
      rw [Bool.not_false, Bool.true_and, RuleIndex.hasNegation, ← Array.any_toList, List.any_eq_false]
      intro i hi hh
      obtain ⟨rule, hrule⟩ := List.mem_iff_getElem?.mp hi
      rw [Array.getElem?_toList] at hrule
      rw [(hd hu rule i hrule).positive, Bool.and_false] at hh
      cases hh
  have hx : RuleIndex.build rules mode.usesLevels = .ok x := hb
  simp only [buildIndex, hx, bind, Except.bind, hneg]
  rfl

/-- Rules that can be materialized: `M` is what they make of base facts. -/
structure Meaning (rules : List Rule) (mode : Mode) (x : RuleIndex) (M : Set Triple → Set Triple) :
    Prop where
  builds : RuleIndex.Builds rules mode.usesLevels x
  equality : mode.equality = .off
  safe : x.Safe
  definite (h : mode.usesLevels = false) : x.Definite
  /-- There is room for the work lists of every level. -/
  fit (h : mode.usesLevels = true) : ∀ r ∈ rules, r.level < Update.levelLimit
  models (E : Set Triple) : x.Models rules mode.usesLevels E (M E)

/-- Rules that can be maintained: their negation is simple, and there is room for one more level. -/
structure Setting (rules : List Rule) (mode : Mode) (x : RuleIndex) (M : Set Triple → Set Triple) :
    Prop extends Meaning rules mode x M where
  simple : x.Simple
  spare (h : mode.usesLevels = true) : ∀ r ∈ rules, r.level + 1 < Update.levelLimit

namespace Meaning

variable (h : Meaning rules mode x M)

include h

/-- The rules are accepted. -/
theorem buildIndex_eq : buildIndex rules mode = .ok x := buildIndex_of_definite h.builds h.definite

theorem discrete {c : Context} (hx : c.rules = x) (hm : c.mode = mode) : c.Discrete rules := by
  subst hx hm
  refine ⟨?_, h.builds, h.safe, h.definite⟩
  rw [h.equality]
  rfl

theorem models_context {c : Context} (hx : c.rules = x) (hm : c.mode = mode) (E : Set Triple) :
    c.rules.Models rules c.mode.usesLevels E (M E) := by
  subst hx hm
  exact h.models E

theorem maxLevel_lt (hu : mode.usesLevels = true) : x.maxLevel < Update.levelLimit := by
  have hle : x.maxLevel ≤ Update.levelLimit - 1 :=
    h.builds.maxLevel_le fun r hr => Nat.le_sub_one_of_lt (h.fit hu r hr)
  have hpos : 0 < Update.levelLimit := Nat.two_pow_pos 32
  omega

end Meaning

namespace Setting

variable (h : Setting rules mode x M)

include h

theorem basic {c : Context} (hx : c.rules = x) (hm : c.mode = mode) (hs : c.stop = .never) :
    c.Basic rules :=
  { h.discrete hx hm with stop := hs, simple := hx ▸ h.simple }

theorem levelsFit (he : e.mode = mode) (monitored : Bool) :
    LevelsFit (e.context x monitored .never) := by
  intro hu
  have hle : x.maxLevel ≤ Update.levelLimit - 2 := h.builds.maxLevel_le fun r hr => by
    have := h.spare (he ▸ hu) r hr
    omega
  have hpos : 2 ≤ Update.levelLimit := Nat.le_self_pow (by decide) 2
  show x.maxLevel + 1 < Update.levelLimit
  omega

/-- A revision of what the rules make of asserted facts. -/
def revision (hU : Universe rules U N) (hroom : N < Marks.room) (he : e.mode = mode) (old new : Set Triple)
    (monitored : Bool) : Revision (e.context x monitored .never) where
  rules
  strategy := e.strategy
  old
  new
  before := M old
  after := M new
  all := U
  bound := N
  basic := h.basic rfl he rfl
  covers := hU
  room := hroom
  models_before := h.models_context rfl he old
  models_after := h.models_context rfl he new

end Setting

/-- Rules without negation that were read from texts and can be maintained. -/
structure Maintainable (rules : List Rule) (mode : Mode) : Prop where
  parsed : ∀ r ∈ rules, r.Parsed
  positive : ∀ r ∈ rules, r.hasNegation = false
  equality : mode.equality = .off
  stratified (h : mode.byLevels = true) : ∃ x, RuleIndex.build rules true = .ok x
  /-- There is room for the work lists of every level. -/
  fit (h : mode.byLevels = true) : ∀ r ∈ rules, r.level + 1 < Update.levelLimit

namespace Maintainable

theorem usesLevels_eq (h : Maintainable rules mode) : mode.usesLevels = mode.byLevels := by
  rw [Mode.usesLevels, h.equality]
  cases mode.byLevels <;> rfl

theorem definite (h : Maintainable rules mode) {byLevels : Bool}
    (hb : RuleIndex.Builds rules byLevels x) : x.Definite := fun _ _ hi =>
  have hmem := (hb.rule_mem hi).1
  ⟨(h.parsed _ hmem).safe, h.positive _ hmem⟩

/-- The rules can be indexed. -/
theorem exists_index (h : Maintainable rules mode) :
    ∃ x, RuleIndex.Builds rules mode.usesLevels x := by
  rw [h.usesLevels_eq]
  cases hb : mode.byLevels with
  | true => exact h.stratified hb
  | false => exact ⟨_, rfl⟩

/-- What the rules make of base facts is the least model. -/
theorem setting (h : Maintainable rules mode) (hx : RuleIndex.Builds rules mode.usesLevels x) :
    Setting rules mode x (leastModel rules) where
  builds := hx
  equality := h.equality
  safe := (h.definite hx).simple.safe
  simple := (h.definite hx).simple
  definite _ := h.definite hx
  fit hu r hr := Nat.lt_of_succ_lt (h.fit (h.usesLevels_eq ▸ hu) r hr)
  spare hu := h.fit (h.usesLevels_eq ▸ hu)
  models _ := hx.models_leastModel (h.definite hx)

theorem basic (h : Maintainable rules mode) {c : Context}
    (hx : RuleIndex.Builds rules mode.usesLevels c.rules) (hm : c.mode = mode)
    (hs : c.stop = .never) : c.Basic rules :=
  (h.setting hx).basic rfl hm hs

end Maintainable

/-! ## Between two calls -/

/-- An engine has rules; if they are indexed, `x` is the index. -/
structure Loaded (rules : List Rule) (mode : Mode) (x : RuleIndex) (e : Engine) : Prop where
  mode_eq : e.mode = mode
  rules_eq : e.rules.toList = rules
  index_eq (y : RuleIndex) (h : e.index = some y) : y = x

/-- What holds of an engine between two calls: `E` is asserted. -/
structure Keeps (rules : List Rule) (mode : Mode) (strategy : Strategy) (x : RuleIndex)
    (M : Set Triple → Set Triple) (U E : Set Triple) (e : Engine) : Prop
    extends Loaded rules mode x e where
  strategy_eq : e.strategy = strategy
  stored : e.run.Stored U E
  before_iff (h : e.materialized = true) (t : Triple) : e.run.Before t ↔ t ∈ M E

theorem mem_facts : t ∈ e.facts ↔ e.run.Before t := Table.mem_map_select

theorem perform_wp {α : Type} {x : Routine α} {Q : α → Engine → Prop}
    (h : WP x e.run fun a run => Q a { e with run }) : WP (perform x) e Q := by
  obtain ⟨a, run, hx, hq⟩ := h
  exact ⟨a, { e with run }, by simp only [perform, hx], hq⟩

theorem ensureIndex_wp (hx : buildIndex rules mode = .ok x) (h : Loaded rules mode x e) :
    WP ensureIndex e fun y e' => y = x ∧ e' = { e with index := some x } := by
  cases hi : e.index with
  | some y =>
    obtain rfl := h.index_eq y hi
    exact ⟨y, e, by simp only [ensureIndex, hi], rfl, by rw [← hi]⟩
  | none => exact ⟨x, _, by simp only [ensureIndex, hi, h.rules_eq, h.mode_eq, hx], rfl, rfl⟩

theorem Keeps.indexed (h : Keeps rules mode strategy x M U E e) :
    Keeps rules mode strategy x M U E { e with index := some x } :=
  { h with index_eq := fun _ hy => (Option.some.inj hy).symm }

/-- `T'` is `T` with every fact taken out of the materialization. -/
structure Cleared (T T' : Table) : Prop where
  fact?_eq (row : Nat) : T'.fact? row = T.fact? row
  derived (row : Nat) : (T'.status row).any Status.derived = false
  merged (row : Nat) : (T'.status row).any Status.merged = false
  asserted (row : Nat) : (T'.status row).any Status.asserted = (T.status row).any Status.asserted

/-- `T'` is `T` with some facts taken out of the materialization. -/
structure Clearing (T T' : Table) : Prop where
  fact?_eq (row : Nat) : T'.fact? row = T.fact? row
  left (row : Nat) (h : (T'.status row).any (Status.derived ||| Status.merged) = true) :
    (T.status row).any (Status.derived ||| Status.merged) = true
  asserted (row : Nat) : (T'.status row).any Status.asserted = (T.status row).any Status.asserted

namespace Clearing

variable {T T₁ T' : Table} {row : Nat}

theorem refl (T : Table) : Clearing T T := ⟨fun _ => rfl, fun _ => id, fun _ => rfl⟩

/-- The bits of a row's status that say that its fact is in the materialization are taken away. -/
theorem status_any (hT : T.Sets row ((T.status row).update (Status.derived ||| Status.merged) 0) T')
    {b : Status} (hb : Bits.IsBit b) (other : Nat) : (T'.status other).any b =
      ((T.status other).any b && !(other == row && (Status.derived ||| Status.merged).any b)) := by
  rw [hT.status_eq]
  split
  · rename_i he
    rw [Bits.any_update hb, Bits.zero_any, Bool.or_false, he, beq_self_eq_true, Bool.true_and]
  · rename_i he
    simp [he]

theorem status_any_mask
    (hT : T.Sets row ((T.status row).update (Status.derived ||| Status.merged) 0) T') (other : Nat) :
    (T'.status other).any (Status.derived ||| Status.merged) =
      ((T.status other).any (Status.derived ||| Status.merged) && other != row) := by
  rw [Bits.any_mask_or, Bits.any_mask_or, status_any hT Bits.isBit_derived,
    status_any hT Bits.isBit_merged, show (Status.derived ||| Status.merged).any Status.derived = true
    from rfl, show (Status.derived ||| Status.merged).any Status.merged = true from rfl]
  simp only [Bool.and_true, ← Bool.and_or_distrib_right]
  rfl

/-- One more fact is taken out. -/
theorem step (h : Clearing T T₁)
    (hT : T₁.Sets row ((T₁.status row).update (Status.derived ||| Status.merged) 0) T') :
    Clearing T T' := by
  refine ⟨fun other => (hT.fact?_eq other).trans (h.fact?_eq other), fun other ho => ?_,
    fun other => ?_⟩
  · rw [status_any_mask hT, Bool.and_eq_true] at ho
    exact h.left other ho.1
  · rw [status_any hT Bits.isBit_asserted, ← h.asserted other,
      show (Status.derived ||| Status.merged).any Status.asserted = false from rfl]
    simp

/-- All facts are taken out once those are that were in. -/
theorem cleared (h : Clearing T T')
    (hdone : ∀ p ∈ T.select fun s => s.any (Status.derived ||| Status.merged),
      (T'.status p.1).any (Status.derived ||| Status.merged) = false) : Cleared T T' := by
  have hnone : ∀ row, (T'.status row).any (Status.derived ||| Status.merged) = false := fun row => by
    by_contra hne
    have hin := h.left row (by simpa using hne)
    cases hrow : T.fact? row with
    | none =>
      rw [Table.status_of_none hrow, Bits.zero_any] at hin
      cases hin
    | some t =>
      exact hne (hdone (row, t) (List.mem_filter.mpr ⟨Table.mem_toList.mpr hrow, hin⟩))
  have hboth := fun row => Bool.or_eq_false_iff.mp ((Bits.any_mask_or _ _ _).symm.trans (hnone row))
  exact ⟨h.fact?_eq, fun row => (hboth row).1, fun row => (hboth row).2, h.asserted⟩

end Clearing

/-- Nothing is left in the materialization, nor of its classes. -/
theorem clearMaterialization_wp (r : Run) : WP clearMaterialization r fun _ r' =>
    ∃ T, Cleared r.table T ∧ r' = { r with table := T, steady := .discrete } := by
  rw [clearMaterialization, WP.bind_iff]
  refine Routine.reads_wp ?_
  rw [WP.bind_iff]
  refine (WP.forM (l := r.table.select fun s => s.any (Status.derived ||| Status.merged))
    (fun r' => ∃ T, r' = { r with table := T } ∧ Clearing r.table T)
    (fun p r' => (r'.table.status p.1).any (Status.derived ||| Status.merged) = false)
    (fun p hp r₁ h₁ => ?_) ⟨r.table, rfl, .refl _⟩).mono ?_
  · obtain ⟨row, t⟩ := p
    obtain ⟨T₁, rfl, h₁⟩ := h₁
    have hf : T₁.fact? row = some t :=
      (h₁.fact?_eq row).trans (Table.mem_toList.mp (List.mem_filter.mp hp).1)
    rw [WP.discard_iff]
    refine Routine.updateStatus_wp hf fun T hT => ⟨⟨T, rfl, h₁.step hT⟩, ?_, fun q _ hq => ?_⟩
    · show (T.status row).any _ = false
      rw [Clearing.status_any_mask hT]
      simp
    · show (T.status q.1).any _ = false
      rw [Clearing.status_any_mask hT, hq, Bool.false_and]
  · rintro _ r' ⟨⟨T, rfl, h⟩, hdone⟩
    exact WP.modify_iff.mpr ⟨T, h.cleared hdone, rfl⟩

/-- The asserted facts are what is left. -/
theorem Cleared.stored {r : Run} {T : Table} (h : Cleared r.table T) (journal : Array Entry)
    (hU : ∀ row t, r.table.fact? row = some t → t ∈ U) :
    Run.Stored U {t | r.Asserted t} { r with journal, table := T, steady := .discrete } ∧
      ∀ t, ¬ Run.Before { r with journal, table := T, steady := .discrete } t := by
  refine ⟨⟨fun row t hf => hU row t ((h.fact?_eq row).symm.trans hf), h.merged, fun t => ?_⟩, ?_⟩
  · simp only [Run.Asserted, Table.Holds, h.fact?_eq, h.asserted, Set.mem_ofPred_eq]
  · rintro t ⟨row, -, hb⟩
    dsimp only at hb
    rw [Standing.before_iff, h.derived] at hb
    cases hb

/-- The materialization is computed after every fact was taken out of it. -/
theorem materialize_wp_of_cleared (hx : buildIndex rules mode = .ok x) (hl : Loaded rules mode x e)
    {Q : Nat → Engine → Prop}
    (h : ∀ journal T, Cleared e.run.table T → WP (Materialization.materialize (e.context x false .never))
      { e.run with journal, table := T, steady := .discrete }
      fun size run => Q size { e with index := some x, materialized := true, run }) :
    WP materialize e Q := by
  rw [materialize, WP.bind_iff]
  refine (ensureIndex_wp hx hl).mono ?_
  rintro _ _ ⟨rfl, rfl⟩
  rw [WP.bind_iff, WP.get_iff, WP.bind_iff]
  refine perform_wp ?_
  rw [WP.bind_iff]
  refine Routine.note_wp fun journal => ?_
  rw [WP.bind_iff]
  refine (clearMaterialization_wp _).mono ?_
  rintro _ _ ⟨T, hT, rfl⟩
  refine (h journal T hT).mono fun size run hQ => ?_
  rw [WP.bind_iff, WP.modify_iff, WP.pure_iff]
  exact hQ

/-- The materialization is computed from scratch, whatever the store held of one before. -/
theorem Meaning.materialize_wp (hr : Meaning rules mode x M) (hU : Universe rules U N)
    (h : Loaded rules mode x e) (hfacts : ∀ row t, e.run.table.fact? row = some t → t ∈ U) :
    WP materialize e fun _ e' => e'.run.Stored U {t | e.run.Asserted t} ∧
      (∀ t, e'.run.Before t ↔ t ∈ M {t | e.run.Asserted t}) ∧
      ∃ run, e' = { e with index := some x, materialized := true, run } := by
  refine materialize_wp_of_cleared hr.buildIndex_eq h fun journal T hT => ?_
  obtain ⟨hs, hn⟩ := Cleared.stored (r := e.run) hT journal hfacts
  refine (Materialization.materialize_wp (hr.discrete rfl h.mode_eq) hU
    (hr.models_context rfl h.mode_eq _) (fun hu => hr.maxLevel_lt (h.mode_eq ▸ hu)) hs hn).mono ?_
  rintro size r₂ ⟨hs₂, hb₂, _⟩
  exact ⟨hs₂, hb₂, r₂, rfl⟩

/-- The materialization is up to date once it is computed. -/
theorem Meaning.materialize_keeps (hr : Meaning rules mode x M) (hU : Universe rules U N)
    (h : Loaded rules mode x e) (hfacts : ∀ row t, e.run.table.fact? row = some t → t ∈ U) :
    WP materialize e fun _ e' =>
      Keeps rules mode e.strategy x M U {t | e.run.Asserted t} e' ∧ e'.materialized = true := by
  refine (hr.materialize_wp hU h hfacts).mono ?_
  rintro _ _ ⟨hs, hb, run, rfl⟩
  exact ⟨{ h with index_eq := fun _ hy => (Option.some.inj hy).symm, strategy_eq := rfl, stored := hs
                  before_iff := fun _ => hb }, rfl⟩

/-- What is left of `applyChanges` once the materialization is up to date. -/
def maintain (retractions assertions : List Triple) (monitored : Bool) (stop : StopPoint) :
    Action Stats := do
  let rules ← ensureIndex
  let e ← get
  let stats ← perform do
    modify fun r => { r with stopped := false }
    Maintenance.update (e.context rules monitored stop) e.strategy retractions assertions
  if stats.cancelled then modify fun e => { e with materialized := false }
  pure stats

/-- Without equality no strategy is refused. -/
theorem applyChanges_eq {retractions assertions : List Triple} {monitored : Bool} {stop : StopPoint}
    (h : e.mode.equality.enabled = false) :
    applyChanges retractions assertions monitored stop e =
      (do
        if !e.materialized then discard materialize
        maintain retractions assertions monitored stop) e := by
  have hno : ¬ (e.strategy = .dred ∧ e.mode.equality.enabled = true) := fun hh =>
    Bool.false_ne_true (h.symm.trans hh.2)
  rw [applyChanges]
  show (if e.strategy = .dred ∧ e.mode.equality.enabled = true then _ else _ : Action Stats) e = _
  rw [if_neg hno]
  rfl

section calls

variable (hr : Setting rules mode x M) (hU : Universe rules U N)

include hr hU

/-- The materialization is computed from scratch. -/
theorem materialize_wp (h : Keeps rules mode strategy x M U E e) :
    WP materialize e fun _ e' => Keeps rules mode strategy x M U E e' ∧ e'.materialized = true := by
  have hE : {t | e.run.Asserted t} = E := Set.ext h.stored.asserted_iff
  rw [← hE, ← h.strategy_eq]
  exact hr.toMeaning.materialize_keeps hU h.toLoaded h.stored.facts

/-- The strategy deletes what has lost its support, whatever the changes. -/
def Reliable (rules : List Rule) (mode : Mode) (strategy : Strategy) (x : RuleIndex) : Prop :=
  ∀ (e : Engine) (monitored : Bool), e.mode = mode →
    ∀ v : Revision (e.context x monitored .never), v.rules = rules → v.strategy = strategy → Deletes v

variable (hroom : N < Marks.room) (hs : Reliable rules mode strategy x)
  (h : Keeps rules mode strategy x M U E e) {retractions assertions : List Triple}
  (hall : ∀ t ∈ assertions, t ∈ U) (monitored : Bool)

include hroom hs h hall

/-- A materialization that is up to date stays so. -/
theorem maintain_wp (hm : e.materialized = true) :
    WP (maintain retractions assertions monitored .never) e fun stats e' => stats.cancelled = false ∧
      Keeps rules mode strategy x M U (revised E retractions assertions) e' ∧
      e'.materialized = true := by
  rw [maintain, WP.bind_iff]
  refine (ensureIndex_wp hr.buildIndex_eq h.toLoaded).mono ?_
  rintro y e₁ ⟨hy, he₁⟩
  subst hy
  have h₁ : Keeps rules mode strategy y M U E e₁ := he₁ ▸ h.indexed
  have hm₁ : e₁.materialized = true := by rw [he₁, hm]
  let v := hr.revision hU hroom h₁.mode_eq E (revised E retractions assertions) monitored
  rw [WP.bind_iff, WP.get_iff, WP.bind_iff]
  refine perform_wp ?_
  rw [WP.bind_iff, WP.modify_iff]
  refine (Maintenance.update_wp (v := v) (r := { e₁.run with stopped := false })
    (hr.levelsFit h₁.mode_eq monitored) (hs e₁ monitored h₁.mode_eq v rfl h₁.strategy_eq) rfl hall
    { h₁.stored with } (h₁.before_iff hm₁) rfl).mono ?_
  rintro stats r₂ ⟨hc₂, hs₂, hb₂⟩
  rw [hc₂]
  simp only [Bool.false_eq_true, if_false]
  exact WP.pure_iff.mpr ⟨hc₂, { h₁ with stored := hs₂, before_iff := fun _ => hb₂ }, hm₁⟩

/-- The materialization is brought up to date. -/
theorem applyChanges_wp :
    WP (applyChanges retractions assertions monitored) e fun stats e' => stats.cancelled = false ∧
      Keeps rules mode strategy x M U (revised E retractions assertions) e' ∧
      e'.materialized = true := by
  have hoff : e.mode.equality.enabled = false := by
    rw [h.mode_eq, hr.equality]
    rfl
  rw [WP, applyChanges_eq hoff]
  cases hm : e.materialized with
  | true => exact maintain_wp hr hU hroom hs h hall monitored hm
  | false =>
    simp only [Bool.not_false, if_true]
    refine WP.bind_iff.mpr (WP.discard_iff.mpr ((materialize_wp hr hU h).mono ?_))
    rintro _ e₁ ⟨h₁, hm₁⟩
    exact maintain_wp hr hU hroom hs h₁ hall monitored hm₁

end calls

end Entail.Engine
