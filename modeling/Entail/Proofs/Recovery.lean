import Entail.Proofs.Invariant
import Entail.Proofs.Recomputation

/-!
# After an update that was cancelled

An update that is cancelled leaves the engine knowing that its materialization is not up to date
(`outdated_of_cancelled`). The next update then computes it from scratch before it begins, whatever the
store holds by then (`Setting.applyChanges_wp_of_outdated`). So without negation DRed ends in the least
model over the asserted facts with the next update that is not stopped (`dred_recovers`).
-/

namespace Entail.Engine

open Maintenance

variable {rules : List Rule} {mode : Mode} {strategy : Strategy} {x : RuleIndex} {U : Set Triple}
  {M : Set Triple → Set Triple} {e e' : Engine} {stats : Stats} {retractions assertions : List Triple}
  {monitored : Bool} {stop : StopPoint} {N : Nat}

theorem perform_wlp {α : Type} {x : Routine α} {Q : α → Engine → Prop}
    (h : WLP x e.run fun a run => Q a { e with run }) : WLP (perform x) e Q := by
  intro a e' hx
  simp only [perform] at hx
  split at hx <;> cases hx
  exact h _ _ ‹_›

/-- What holds once the materialization is maintained, if it is up to date or was just computed. -/
theorem applyChanges_wlp {Q : Stats → Engine → Prop}
    (hcomputed : ∀ n e₁, e.materialized = false → materialize e = .ok n e₁ →
      WLP (maintain retractions assertions monitored stop) e₁ Q)
    (hcurrent : e.materialized = true → WLP (maintain retractions assertions monitored stop) e Q) :
    WLP (applyChanges retractions assertions monitored stop) e Q := by
  refine WLP.bind_iff.mpr (WLP.get_iff.mpr (WLP.ite (fun _ => WLP.throw _) fun _ => ?_))
  refine WLP.ite (fun hm => WLP.bind_iff.mpr (WLP.discard_iff.mpr fun n e₁ h₁ => ?_)) fun hm => ?_
  · exact hcomputed n e₁ ((Bool.not_eq_true' _).mp hm) h₁
  · exact hcurrent (Bool.not_eq_false' .. |>.mp (Bool.eq_false_iff.mpr hm))

/-- What holds of the run once the materialization is maintained. -/
theorem maintain_run_wlp {Q : Stats → Run → Prop} (h : WLP ensureIndex e fun x e₁ =>
      WLP (Maintenance.update (e₁.context x monitored stop) e₁.strategy retractions assertions)
        { e₁.run with stopped := false } Q) :
    WLP (maintain retractions assertions monitored stop) e fun stats e' => Q stats e'.run := by
  refine WLP.bind_iff.mpr (h.mono fun x e₁ hupdate => WLP.bind_iff.mpr (WLP.get_iff.mpr (WLP.bind_iff.mpr ?_)))
  refine perform_wlp (WLP.bind_iff.mpr (WLP.modify_iff.mpr (hupdate.mono fun stats run hQ => ?_)))
  exact WLP.ite (fun _ => WLP.bind_iff.mpr (WLP.modify_iff.mpr (WLP.pure_iff.mpr hQ)))
    fun _ => WLP.pure_iff.mpr hQ

/-- After an update that was cancelled the materialization is known not to be up to date. -/
theorem outdated_of_cancelled (h : applyChanges retractions assertions monitored stop e = .ok stats e')
    (hc : stats.cancelled = true) : e'.materialized = false := by
  have hmaintain : ∀ e, WLP (maintain retractions assertions monitored stop) e fun stats e' =>
      stats.cancelled = true → e'.materialized = false := by
    refine fun e => WLP.bind_iff.mpr fun x e₁ _ => WLP.bind_iff.mpr (WLP.get_iff.mpr ?_)
    refine WLP.bind_iff.mpr fun stats e₂ _ => WLP.ite (fun _ => ?_) fun hnot => ?_
    · exact WLP.bind_iff.mpr (WLP.modify_iff.mpr (WLP.pure_iff.mpr fun _ => rfl))
    · exact WLP.pure_iff.mpr fun hc => absurd hc hnot
  suffices hall : WLP (applyChanges retractions assertions monitored stop) e fun stats e' =>
      stats.cancelled = true → e'.materialized = false from hall stats e' h hc
  exact applyChanges_wlp (fun _ e₁ _ _ => hmaintain e₁) fun _ => hmaintain e

/-- A materialization that is not up to date is computed anew by an update, whatever the store held. -/
theorem Setting.applyChanges_wp_of_outdated (hr : Setting rules mode x M) (hU : Universe rules U N)
    (hroom : N < Marks.room) (hs : Reliable rules mode strategy x) (hl : Loaded rules mode x e)
    (hstrategy : e.strategy = strategy) (hout : e.materialized = false)
    (hfacts : ∀ row t, e.run.table.fact? row = some t → t ∈ U) (hall : ∀ t ∈ assertions, t ∈ U)
    (monitored : Bool) :
    WP (applyChanges retractions assertions monitored) e fun stats e' => stats.cancelled = false ∧
      ∀ t, t ∈ e'.facts ↔ t ∈ M (revised {t | e.isAsserted t = true} retractions assertions) := by
  have hoff : e.mode.equality.enabled = false := by
    rw [hl.mode_eq, hr.equality]
    rfl
  have hE : {t | e.isAsserted t = true} = {t | e.run.Asserted t} := Set.ext fun _ => isAsserted_iff
  rw [hE, WP, applyChanges_eq hoff, hout]
  simp only [Bool.not_false, if_true]
  refine WP.bind_iff.mpr (WP.discard_iff.mpr ((hr.toMeaning.materialize_keeps hU hl hfacts).mono ?_))
  rintro _ e₁ ⟨h₁, hm₁⟩
  refine (maintain_wp hr hU hroom (hstrategy ▸ hs) h₁ hall monitored hm₁).mono ?_
  rintro stats e' ⟨hc, h', hm⟩
  exact ⟨hc, fun t => mem_facts.trans (h'.before_iff hm t)⟩

/-- Whenever an update with DRed was cancelled, the next update that is not stopped ends in the least model
of the rules over the asserted facts. -/
theorem dred_recovers (hreach : Reachable e) (hr : Maintainable e.rules.toList e.mode)
    (hstrategy : e.strategy = .dred)
    (h : applyChanges retractions assertions monitored stop e = .ok stats e')
    (hc : stats.cancelled = true) (b : Batch)
    (hfits : Fits e.rules.toList e'.run.table.facts.toList [b]) :
    WP (applyChanges b.retractions b.assertions b.monitored) e' fun stats e'' =>
      stats.cancelled = false ∧
        Agrees e.rules.toList e''.facts (b.revise {t | e'.isAsserted t = true}) := by
  have hsame := ((lasting_sameRules e).applyChanges _ _ _ _).of_eq_ok ⟨rfl, rfl, rfl⟩ h
  have hindexed := (lasting_indexed.applyChanges _ _ _ _).of_eq_ok hreach.indexed h
  obtain ⟨x, hx⟩ := hr.exists_index
  have hset := hr.setting hx
  have hl : Loaded e.rules.toList e.mode x e' := by
    have hb := hset.toMeaning.buildIndex_eq
    rw [← hsame.rules_eq, ← hsame.mode_eq] at hb ⊢
    exact hindexed.loaded hb
  refine hset.applyChanges_wp_of_outdated hfits.universe_room (Nat.sub_one_lt (by decide))
    (fun _ _ _ _ _ hv => deletes_of_dred hv) hl (hsame.strategy_eq.trans hstrategy)
    (outdated_of_cancelled h hc) (fun _ _ => stored_mem_leastModel)
    (fun _ => asserted_mem_leastModel (List.mem_singleton_self b)) b.monitored

end Entail.Engine
