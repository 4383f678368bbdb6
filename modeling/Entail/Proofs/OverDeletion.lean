import Entail.Proofs.Difference
import Entail.Proofs.Maintenance.Verdicts

/-!
# Deleting first and searching for proofs

Two engines without negation and levels that have the same rules and the same asserted facts and are up to date
(`Engine.Ready`) are given the same changes. What one of them finds to be deleted with FBF the other finds to be
deleted with DRed (`dred_confirms_what_fbf_confirms`). The two go through the facts in different orders, and
they need not have stored them in the same order. But FBF deletes only facts that do not follow any more from
those of the materialization which are still asserted, and DRed deletes all of these, whatever the order is
(`Ready.applyChanges_confirms`).
-/

namespace Entail.Engine

open Maintenance
open Flag.Update

variable {rules : List Rule} {mode : Mode} {strategy : Strategy} {x : RuleIndex} {U E : Set Triple}
  {M : Set Triple → Set Triple} {N : Nat} {e : Engine} {facts retractions assertions : List Triple} {b : Batch}
  {batches later : List Batch}

/-- What an update of a materialization that is up to date finds to be deleted is bounded by what has lost its
support. -/
theorem maintain_confirms (hr : Setting rules mode x M) (hU : Universe rules U N) (hroom : N < Marks.room)
    (h : Keeps rules mode strategy x M U E e) (hm : e.materialized = true) (hu : mode.usesLevels = false)
    (hall : ∀ t ∈ assertions, t ∈ U) (monitored : Bool) :
    WLP (maintain retractions assertions monitored .never) e fun _ e' => ∃ D,
      e'.run.Confirmed monitored (e.run.announced Event.judged?) D ∧
      Bounds (unsupported rules (M E) (revised E retractions assertions)) D strategy := by
  refine maintain_run_wlp (Q := fun _ r => ∃ D, r.Confirmed monitored (e.run.announced Event.judged?) D ∧
    Bounds (unsupported rules (M E) (revised E retractions assertions)) D strategy)
    ((ensureIndex_wp hr.buildIndex_eq h.toLoaded).wlp.mono ?_)
  rintro y _ ⟨rfl, rfl⟩
  have hupdate := update_confirms (r := { e.run with stopped := false })
    (v := hr.revision hU hroom h.mode_eq E (revised E retractions assertions) monitored)
    ((congrArg Mode.usesLevels h.mode_eq).trans hu) rfl hall { h.stored with } (h.before_iff hm) rfl
  exact h.strategy_eq ▸ hupdate

/-- An engine that can maintain its rules: its materialization is known to be up to date, and it is the least
model over the asserted facts. There is room for batches of changes. -/
structure Ready (mode : Mode) (strategy : Strategy) (batches : List Batch) (e : Engine) : Prop where
  arises : Arises mode e
  strategy_eq : e.strategy = strategy
  maintainable : Maintainable e.rules.toList mode
  known : e.materialized = true
  agrees : Agrees e.rules.toList e.facts {t | e.isAsserted t = true}
  fits : Fits e.rules.toList e.run.table.facts.toList batches

theorem Keeps.ready (h : Keeps rules mode strategy x (leastModel rules)
      (leastModel rules {t | t ∈ everAsserted facts batches}) E e) (hm : e.materialized = true)
    (harises : Arises mode e) (hr : Maintainable rules mode) (hfits : Fits rules facts batches)
    (hlater : later ⊆ batches) : Ready mode strategy later e := by
  obtain rfl := h.rules_eq
  have hE : {t | e.isAsserted t = true} = E := Set.ext fun t => isAsserted_iff.trans (h.stored.asserted_iff t)
  refine ⟨harises, h.strategy_eq, hr, hm, fun t => ?_, hfits.of_stored h.stored.facts hlater⟩
  rw [mem_facts, h.before_iff hm, hE]

theorem Arises.loaded (harises : Arises mode e) (hr : Maintainable e.rules.toList mode)
    (hx : RuleIndex.Builds e.rules.toList mode.usesLevels x) : Loaded e.rules.toList mode x e := by
  have hmode : e.mode = mode := (harises.unmerged hr.equality).1
  have hb := (hr.setting hx).toMeaning.buildIndex_eq
  rw [← hmode] at hb ⊢
  exact harises.reachable.indexed.loaded hb

/-- Computing the materialization makes an engine ready, whatever it was asked for before. -/
theorem materialize_ready (harises : Arises mode e) (hr : Maintainable e.rules.toList mode)
    (hfits : Fits e.rules.toList e.run.table.facts.toList batches) :
    WP materialize e fun _ e' => Ready mode e.strategy batches e' ∧ e'.rules = e.rules ∧
      ∀ t, e'.isAsserted t = e.isAsserted t := by
  obtain ⟨x, hx⟩ := hr.exists_index
  obtain ⟨n, e', he, h, hm⟩ := (hr.setting hx).toMeaning.materialize_keeps hfits.universe_room
    (harises.loaded hr hx) fun _ _ => stored_mem_leastModel
  have harises' : Arises mode e' := WLP.discard_iff.mp (Arises.preserves .materialize e harises) n e' he
  refine ⟨n, e', he, h.ready hm harises' hr hfits (List.Subset.refl _), Array.toList_inj.mp h.rules_eq,
    fun t => Bool.eq_iff_iff.mpr ?_⟩
  exact (isAsserted_iff.trans (h.stored.asserted_iff t)).trans isAsserted_iff.symm

/-- Gives an engine rules and facts and computes the materialization. -/
def ready (rules : List Rule) (facts : List Triple) : Action Nat := do
  rules.forM addRule
  facts.forM addFact
  materialize

/-- Any rules and facts make an engine without any ready, if the rules can be maintained and there is room. -/
theorem ready_wp (hr : Maintainable rules mode) (hfits : Fits rules facts batches) (strategy : Strategy)
    (workers : Nat) (dictionary : Dictionary) :
    WP (ready rules facts) { strategy, mode, workers, dictionary } fun _ e => Ready mode strategy batches e ∧
      e.rules = rules.toArray ∧ ∀ t, e.isAsserted t = true ↔ t ∈ facts := by
  obtain ⟨x, -⟩ := hr.exists_index
  have hpreserves : Preserves (Arises mode) (do
      rules.forM addRule
      facts.forM addFact) :=
    .bind (.forM fun rule _ => .preserves (.addRule rule)) fun _ => .forM fun t _ => .preserves (.addFact t)
  rw [ready, ← bind_assoc, WP.bind_iff]
  refine ((setUp_wp (x := x) (M := leastModel rules) rules facts batches workers dictionary).and_wlp
    (hpreserves _ (.start strategy workers dictionary))).mono ?_
  rintro _ e ⟨h, harises⟩
  obtain rfl := h.rules_eq
  refine (materialize_ready harises hr (hfits.of_stored h.stored.facts (List.Subset.refl _))).mono ?_
  rintro _ e' ⟨hready, hrules, hasserted⟩
  refine ⟨h.strategy_eq ▸ hready, by rw [hrules, Array.toArray_toList], fun t => ?_⟩
  rw [hasserted, isAsserted_iff, h.stored.asserted_iff]
  exact Iff.rfl

namespace Ready

theorem keeps (h : Ready mode strategy batches e) (hx : RuleIndex.Builds e.rules.toList mode.usesLevels x) :
    Keeps e.rules.toList mode strategy x (leastModel e.rules.toList)
      (leastModel e.rules.toList {t | t ∈ everAsserted e.run.table.facts.toList batches})
      {t | e.isAsserted t = true} e where
  toLoaded := h.arises.loaded h.maintainable hx
  strategy_eq := h.strategy_eq
  stored := ⟨fun _ _ => stored_mem_leastModel, (h.arises.unmerged h.maintainable.equality).2,
    fun _ => isAsserted_iff.symm⟩
  before_iff _ t := mem_facts.symm.trans (h.agrees t)

/-- A batch leaves an engine ready for those after it, and what is found to be deleted is bounded by what has
lost its support. -/
theorem applyChanges_confirms (h : Ready mode strategy (b :: batches) e) (hlevels : mode.byLevels = false)
    (hs : ∀ x, RuleIndex.Builds e.rules.toList mode.usesLevels x → Reliable e.rules.toList mode strategy x) :
    WP (applyChanges b.retractions b.assertions b.monitored) e fun _ e' => Ready mode strategy batches e' ∧
      ∃ D, e'.run.Confirmed b.monitored (e.run.announced Event.judged?) D ∧
        Bounds (unsupported e.rules.toList (leastModel e.rules.toList {t | e.isAsserted t = true})
          (b.revise {t | e.isAsserted t = true})) D strategy := by
  have hr := h.maintainable
  obtain ⟨x, hx⟩ := hr.exists_index
  have hu : mode.usesLevels = false := hr.usesLevels_eq.trans hlevels
  have hroom : Marks.room - 1 < Marks.room := Nat.sub_one_lt (by decide)
  have hkeeps := h.keeps hx
  have hall : ∀ t ∈ b.assertions, t ∈ leastModel e.rules.toList
      {t | t ∈ everAsserted e.run.table.facts.toList (b :: batches)} := fun _ =>
    asserted_mem_leastModel List.mem_cons_self
  obtain ⟨stats, e', he, -, hkeeps', hm⟩ :=
    Engine.applyChanges_wp (hr.setting hx) h.fits.universe_room hroom (hs x hx) hkeeps hall b.monitored
  have harises : Arises mode e' := WLP.discard_iff.mp
    (Arises.preserves (.applyChanges b.retractions b.assertions b.monitored .never) e h.arises) stats e' he
  refine ⟨stats, e', he, hkeeps'.ready hm harises hr h.fits (List.subset_cons_self b batches), ?_⟩
  exact applyChanges_wlp (fun _ _ hno => absurd (h.known.symm.trans hno) (by decide)) (fun hm =>
    maintain_confirms (hr.setting hx) h.fits.universe_room hroom hkeeps hm hu hall b.monitored) stats e' he

end Ready

/-- Whatever an engine with FBF finds to be deleted, one with DRed that has the same rules and the same asserted
facts finds to be deleted as well: it is flagged as deleted, and so it is announced if anything is. -/
theorem dred_confirms_what_fbf_confirms {e₁ e₂ : Engine} (h₁ : Ready mode .fbf [b] e₁)
    (h₂ : Ready mode .dred [b] e₂) (hlevels : mode.byLevels = false) (hrules : e₁.rules = e₂.rules)
    (hasserted : ∀ t, e₁.isAsserted t = e₂.isAsserted t) :
    WP (applyChanges b.retractions b.assertions b.monitored) e₁ fun _ e₁' =>
      WP (applyChanges b.retractions b.assertions b.monitored) e₂ fun _ e₂' =>
        (∀ t, e₁'.run.Has deleted t → e₂'.run.Has deleted t) ∧
        ∃ found₁ found₂, e₁'.run.announced Event.judged? = e₁.run.announced Event.judged? ++ found₁ ∧
          e₂'.run.announced Event.judged? = e₂.run.announced Event.judged? ++ found₂ ∧ found₁ ⊆ found₂ := by
  have hu : mode.usesLevels = false := h₁.maintainable.usesLevels_eq.trans hlevels
  refine (h₁.applyChanges_confirms hlevels fun x _ e monitored he v _ hv => deletes_of_fbf hv
    fun _ _ _ _ => owns_of_not_usesLevels ((congrArg Mode.usesLevels he).trans hu)).mono ?_
  rintro _ e₁' ⟨-, D₁, hD₁, hsearched⟩
  refine (h₂.applyChanges_confirms hlevels fun x _ _ _ _ _ _ hv => deletes_of_dred hv).mono ?_
  rintro _ e₂' ⟨-, D₂, hD₂, hdeleted⟩
  -- the same facts have lost their support
  simp only [hrules, hasserted] at hsearched
  have hsub : D₁ ⊆ D₂ := hsearched.trans hdeleted
  obtain ⟨found₁, ha₁, hmem₁⟩ := hD₁.announced_eq
  obtain ⟨found₂, ha₂, hmem₂⟩ := hD₂.announced_eq
  refine ⟨fun t ht => ?_, found₁, found₂, ha₁, ha₂, fun t ht => ?_⟩
  · exact (hD₂.has_iff t).mpr (hsub ((hD₁.has_iff t).mp ht))
  · exact (hmem₂ t).mpr (((hmem₁ t).mp ht).imp_right fun hd => hsub hd)

/-- What breaks a cycle. -/
def breaking : Batch := ⟨[⟨3, 9, 1⟩, ⟨1, 9, 3⟩], [], true⟩

theorem fits_breaking : Fits [transitive] cycle [breaking] :=
  .of_within (n := 9) (maintainable_transitive false).parsed (by decide) (by decide) (by decide)

/-- The cycle is broken. -/
theorem dred_confirms_what_fbf_confirms_cycle :
    WP (ready [transitive] cycle) { strategy := .fbf, mode := { byLevels := false } } fun _ e₁ =>
      WP (ready [transitive] cycle) { strategy := .dred, mode := { byLevels := false } } fun _ e₂ =>
        WP (applyChanges breaking.retractions breaking.assertions) e₁ fun _ e₁' =>
          WP (applyChanges breaking.retractions breaking.assertions) e₂ fun _ e₂' =>
            (∀ t, e₁'.run.Has deleted t → e₂'.run.Has deleted t) ∧
            ∃ found₁ found₂, e₁'.run.announced Event.judged? = e₁.run.announced Event.judged? ++ found₁ ∧
              e₂'.run.announced Event.judged? = e₂.run.announced Event.judged? ++ found₂ ∧ found₁ ⊆ found₂ := by
  have hready := fun strategy => ready_wp (maintainable_transitive false) fits_breaking strategy 1 .vocabulary
  refine (hready .fbf).mono ?_
  rintro _ e₁ ⟨h₁, hrules₁, hasserted₁⟩
  refine (hready .dred).mono ?_
  rintro _ e₂ ⟨h₂, hrules₂, hasserted₂⟩
  exact dred_confirms_what_fbf_confirms h₁ h₂ rfl (hrules₁.trans hrules₂.symm) fun t =>
    Bool.eq_iff_iff.mpr ((hasserted₁ t).trans (hasserted₂ t).symm)

end Entail.Engine
