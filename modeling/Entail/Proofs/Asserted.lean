import Entail.Proofs.Calls
import Entail.Proofs.WorkLists

/-!
# Asserted facts

Which facts are asserted is what the calls say, in every mode and whatever was asked for before: a call
that returns turns the asserted facts into those it says (`Call.revise`), and nothing else does, be it a
phase of an update (`Engine.Phase`), a computation of the materialization or a call that fails. An update
counts the retractions it was given and the facts that were not asserted before, and a request that is
refused because of the rules or the mode leaves the store as it was (`asserts_what_calls_say`).
-/

namespace Entail

variable {c : Context} {r r' : Run} {free cleared set : Status} {T T' : Table} {row : RowIndex} {t : Triple}
  {S A A' : Set Triple}

/-! ## The asserted facts of a store -/

/-- Facts of `S` are asserted if they are in `A`. -/
def Table.Asserts (S A : Set Triple) (T : Table) : Prop :=
  ∀ t ∈ S, T.Holds (fun row => (T.status row).any Status.asserted) t ↔ t ∈ A

namespace Table.Asserts

theorem congr (h : T.Asserts S A) (hA : ∀ t ∈ S, t ∈ A ↔ t ∈ A') : T.Asserts S A' := fun t ht =>
  (h t ht).trans (hA t ht)

/-- Rows are kept and so are their bits. -/
theorem of_keeps (h : T.Asserts S A) (hf : ∀ row t, T.fact? row = some t → T'.fact? row = some t)
    (hs : ∀ row, (T'.status row).any Status.asserted = (T.status row).any Status.asserted) :
    T'.Asserts S A :=
  fun t ht => (holds_status_of_keeps (p := fun s => s.any Status.asserted) rfl hf hs).trans (h t ht)

theorem of_calm (hfree : free.any Status.asserted = false) (hc : r.Calm free r') (h : r.table.Asserts S A) :
    r'.table.Asserts S A :=
  h.of_keeps hc.fact? fun row => hc.status row _ Bits.isBit_asserted rfl hfree

theorem updateStatus (h : T.Asserts S A) (hc : cleared.any Status.asserted = false)
    (hs : set.any Status.asserted = false) : (T.updateStatus row cleared set).2.Asserts S A :=
  h.of_keeps (fun _ _ hf => fact?_updateStatus.trans hf) fun _ =>
    any_updateStatus Bits.isBit_asserted hc hs

theorem retract (h : T.Asserts S A) (hf : T.fact? row = some t) :
    (T.updateStatus row Status.asserted 0).2.Asserts S (A \ {t}) := by
  refine fun u hu => ((updateStatus_sets hf Status.asserted 0).holds_status_iff hf
    (p := fun s => s.any Status.asserted)).trans ?_
  have hno : ((T.status row).update Status.asserted 0).any Status.asserted = false := by
    rw [Bits.any_update Bits.isBit_asserted, Bits.isBit_asserted.any_self, Bits.zero_any, Bool.not_true,
      Bool.and_false, Bool.or_false]
  rw [hno, h u hu]
  by_cases he : u = t
  · rw [if_pos he]
    exact iff_of_false Bool.false_ne_true fun hh => hh.2 he
  · rw [if_neg he]
    exact (and_iff_left he).symm

theorem assert (h : T.Asserts S A) : (T.add t Status.asserted).2.Asserts S (A ∪ {t}) := by
  obtain ⟨row, T', hadd, hT⟩ := add_stores Bits.isBit_asserted T t
  rw [hadd]
  intro u hu
  refine (hT.holds_status_iff (b := Status.asserted) rfl).trans ?_
  rw [h u hu]
  exact or_congr_right (and_iff_right rfl)

end Table.Asserts

theorem Context.unsettled_any_asserted (c : Context) : c.unsettled.any Status.asserted = false := by
  rw [unsettled]
  split <;> rfl

/-! ## Phases -/

section phases

variable (c S A)

/-- What is asserted stays asserted while levels are worked off. -/
theorem Maintenance.withstands_asserts :
    Withstands c (fun r => r.table.Asserts S A) fun _ r => r.table.Asserts S A :=
  .ofTable fun _ _ => .of_calm c.unsettled_any_asserted

/-- What is asserted stays asserted when the outcome of an update is written. -/
theorem Changes.withstands_asserts :
    Withstands c (fun r => r.table.Asserts S A) fun _ r => r.table.Asserts S A :=
  .ofTable (fun _ _ h => .of_calm (show (0 : Status).any Status.asserted = false from rfl) h.calm)
    (fun _ _ h => h.updateStatus rfl rfl) (fun _ _ h => h.updateStatus rfl rfl)
    fun _ _ _ h => h.updateStatus rfl rfl

end phases

/-! ## Changes of base facts -/

namespace Changes

variable {facts : List Triple}

theorem retractOne_asserts (h : r.table.Asserts .univ A) :
    WLP (retractOne c t) r fun _ r' => r'.table.Asserts .univ (A \ {t}) := by
  have hw := (Maintenance.withstands_asserts c .univ (A \ {t})).calm
  refine WLP.bind_iff.mpr (Routine.reads_wlp ?_)
  cases hrow : r.table.index? t with
  | none =>
    refine WLP.pure_iff.mpr (h.congr fun u _ => ⟨fun hu => ⟨hu, ?_⟩, And.left⟩)
    rintro rfl
    obtain ⟨row, hf, -⟩ := (h u (Set.mem_univ u)).mpr hu
    rw [Table.index?_eq_some_iff.mpr hf] at hrow
    cases hrow
  | some row =>
    refine WLP.bind_iff.mpr (WLP.modifyGet_iff.mpr ?_)
    exact (Within.ite (fun _ => .bind (standIn_within hw) fun p => .bind (queueDeleted_within hw) fun _ => .pure _)
      (fun _ => .pure _) _ (h.retract (Table.index?_eq_some_iff.mp hrow))).wlp

/-- Every retraction is counted, and the facts retracted are not asserted any more. -/
theorem retract_asserts (h : r.table.Asserts .univ A) : WLP (retract c facts) r fun n r' =>
    n.seeded + n.ignored = facts.length ∧ r'.table.Asserts .univ (A \ {t | t ∈ facts}) := by
  refine WLP.bind_iff.mpr ((WLP.foldlM (fun front (n : Retracted) r =>
    n.seeded + n.ignored = front.length ∧ r.table.Asserts .univ (A \ {t | t ∈ front}))
    (fun front t n r hr => ?_) ⟨rfl, h.congr fun u _ => ?_⟩).mono fun n r' hr => ?_)
  · refine WLP.bind_iff.mpr ((retractOne_asserts hr.2).mono fun seeded r' h' => ?_)
    have hA : r'.table.Asserts .univ (A \ {u | u ∈ front ++ [t]}) := h'.congr fun u _ => by
      simp only [Set.mem_sdiff, Set.mem_ofPred_eq, Set.mem_singleton_iff, List.mem_append, List.mem_singleton,
        not_or, and_assoc]
    refine WLP.ite (fun _ => WLP.pure_iff.mpr ⟨?_, hA⟩) fun _ => WLP.pure_iff.mpr ⟨?_, hA⟩
    · rw [List.length_append, ← hr.1]
      exact Nat.add_right_comm _ _ _
    · rw [List.length_append, ← hr.1]
      rfl
  · simp
  · exact WLP.bind_iff.mpr (Routine.note_wlp fun r₂ ht _ => WLP.pure_iff.mpr ⟨hr.1, ht ▸ hr.2⟩)

theorem assertOne_asserts (h : r.table.Asserts .univ A) : WLP (assertOne c t) r fun isNew r' =>
    (isNew = true ↔ t ∉ A) ∧ r'.table.Asserts .univ (A ∪ {t}) := by
  have hw := (Maintenance.withstands_asserts c .univ (A ∪ {t})).calm
  obtain ⟨row, T, hadd, hT⟩ := Table.add_stores Bits.isBit_asserted r.table t
  have h' := h.assert (t := t)
  have hnew : (!(r.table.status row).any Status.asserted) = true ↔ t ∉ A := by
    rw [Bool.not_eq_true', ← h t (Set.mem_univ t), ← hT.any_iff, Bool.not_eq_true]
  refine WLP.bind_iff.mpr (WLP.modifyGet_iff.mpr ?_)
  rw [hadd] at h' ⊢
  refine WLP.ite (fun _ => WLP.bind_iff.mpr ?_) fun _ => WLP.pure_iff.mpr ⟨hnew, h'⟩
  exact (queueAdded_within hw _ h').wlp.mono fun _ r' hr' => WLP.pure_iff.mpr ⟨hnew, hr'⟩

/-- The facts that were not asserted are counted once each, and all are asserted then. -/
theorem assert_asserts (h : r.table.Asserts .univ A) : WLP (assert c facts) r fun n r' =>
    n = {t | t ∈ facts ∧ t ∉ A}.ncard ∧ r'.table.Asserts .univ (A ∪ {t | t ∈ facts}) := by
  refine WLP.bind_iff.mpr ((WLP.foldlM (fun front n r =>
    n = {t | t ∈ front ∧ t ∉ A}.ncard ∧ r.table.Asserts .univ (A ∪ {t | t ∈ front}))
    (fun front t n r hr => ?_) ⟨?_, h.congr fun u _ => ?_⟩).mono fun n r' hr => ?_)
  · refine WLP.bind_iff.mpr ((assertOne_asserts hr.2).mono fun isNew r' h' => ?_)
    have hA : r'.table.Asserts .univ (A ∪ {u | u ∈ front ++ [t]}) := h'.2.congr fun u _ => by
      simp only [Set.mem_union, Set.mem_ofPred_eq, Set.mem_singleton_iff, List.mem_append, List.mem_singleton,
        or_assoc]
    have hfinite : {u | u ∈ front ∧ u ∉ A}.Finite := (List.finite_toSet front).subset fun _ => And.left
    refine WLP.ite (fun hnew => WLP.pure_iff.mpr ⟨?_, hA⟩) fun hnew => WLP.pure_iff.mpr ⟨?_, hA⟩
    · have hno := h'.1.mp hnew
      rw [Set.mem_union, not_or] at hno
      have hset : {u | u ∈ front ++ [t] ∧ u ∉ A} = Insert.insert t {u | u ∈ front ∧ u ∉ A} := by
        ext u
        simp only [Set.mem_ofPred_eq, Set.mem_insert_iff, List.mem_append, List.mem_singleton]
        grind
      rw [hset, Set.ncard_insert_of_notMem (fun hu => hno.2 hu.1) hfinite, hr.1]
    · have hold := mt h'.1.mpr hnew
      rw [not_not] at hold
      have hset : {u | u ∈ front ++ [t] ∧ u ∉ A} = {u | u ∈ front ∧ u ∉ A} := by
        ext u
        simp only [Set.mem_ofPred_eq, List.mem_append, List.mem_singleton]
        grind
      rw [hset, hr.1]
  · simp
  · simp
  · exact WLP.bind_iff.mpr (Routine.note_wlp fun r₂ ht _ => WLP.pure_iff.mpr ⟨hr.1, ht ▸ hr.2⟩)

end Changes

namespace Maintenance

/-- What an update does to the asserted facts, and what it counts. -/
structure Revises (A : Set Triple) (retractions assertions : List Triple) (stats : Stats) (T : Table) :
    Prop where
  asserts : T.Asserts .univ (revised A retractions assertions)
  retracted : stats.retracted + stats.ignored = retractions.length
  asserted : stats.asserted = {t | t ∈ assertions ∧ ¬ (t ∈ A ∧ t ∉ retractions)}.ncard

theorem Revises.keeps {retractions assertions : List Triple} {stats stats' : Stats}
    (h : Revises A retractions assertions stats T) (hs : SameBase stats stats')
    (hT : T'.Asserts .univ (revised A retractions assertions)) : Revises A retractions assertions stats' T' := by
  refine ⟨hT, ?_, hs.asserted.trans h.asserted⟩
  rw [hs.retracted, hs.ignored, h.retracted]

theorem seed_revises (strategy : Strategy) (retractions assertions : List Triple)
    (h : r.table.Asserts .univ A) : WLP (seed c strategy retractions assertions) r fun p r' =>
      Revises A retractions assertions p.2 r'.table := by
  refine WLP.bind_iff.mpr (Routine.note_wlp fun r₁ ht₁ _ => WLP.bind_iff.mpr ?_)
  refine (startUpdate_ends (E := fun _ _ => True) (fun u _ => ?_) trivial).wlp
  refine WLP.bind_iff.mpr (WLP.modify_iff.mpr (WLP.bind_iff.mpr (Routine.lift_wlp fun levels _ => ?_)))
  have h₁ : ({ r₁ with update := u, proving := .discrete } : Run).table.Asserts .univ A := ht₁ ▸ h
  refine WLP.bind_iff.mpr ((Changes.retract_asserts h₁).mono ?_)
  rintro retracted r₂ ⟨hretracted, h₂⟩
  refine WLP.bind_iff.mpr ((Changes.assert_asserts h₂).mono ?_)
  rintro asserted r₃ ⟨rfl, h₃⟩
  exact WLP.pure_iff.mpr ⟨h₃, hretracted, rfl⟩

/-- An update that returns, stopped or not, revises the asserted facts. -/
theorem update_revises (strategy : Strategy) (retractions assertions : List Triple)
    (h : r.table.Asserts .univ A) : WLP (update c strategy retractions assertions) r fun stats r' =>
      Revises A retractions assertions stats r'.table := by
  have hw := withstands_asserts c .univ (revised A retractions assertions)
  have hsettles := Changes.withstands_asserts c .univ (revised A retractions assertions)
  rw [update_eq, prepare, bind_assoc]
  refine WLP.bind_iff.mpr ((seed_revises strategy retractions assertions h).mono ?_)
  rintro ⟨levels, stats⟩ r₁ h₁
  -- from here on nothing is asserted or retracted
  refine WLP.bind_iff.mpr ((WLP.and (updateLevels_sameCounts levels stats)
    (updateLevels_within hw stats levels r₁ h₁.asserts).wlp).mono ?_)
  rintro stats₂ r₂ ⟨hstats₂, h₂⟩
  refine (WLP.and (finish_sameBase stats₂) (finish_within hsettles stats₂ r₂ h₂).wlp).mono ?_
  rintro stats₃ r₃ ⟨hstats₃, h₃⟩
  exact (h₁.keeps hstats₂.toSameBase h₂).keeps hstats₃ h₃

end Maintenance

namespace Engine

open Maintenance (revised Revises)

/-- The parts of a materialization and of an update between the changes of base facts and the next call. -/
inductive Phase where
  | clear
  | materialize
  | overdelete (level : Option Nat)
  | rederive (level : Option Nat)
  | search (level : Option Nat)
  | copyClasses
  | insert (level : Option Nat)
  | propagate

/-- What a phase does. -/
def Phase.task (c : Context) : Phase → Routine Unit
  | clear => clearMaterialization
  | materialize => discard (Materialization.materialize c)
  | overdelete level => Rederivation.delete c level
  | rederive level => discard (Rederivation.rederive c level)
  | search level => discard (Search.delete c level)
  | copyClasses => discard (Changes.copyClasses c)
  | insert level => discard (Entail.insert c level)
  | propagate => discard (Changes.propagate c)

theorem Phase.task_within (phase : Phase) :
    Within (fun r => r.table.Asserts S A) (fun _ r => r.table.Asserts S A) (phase.task c) := by
  have hw := Maintenance.withstands_asserts c S A
  have hs := Changes.withstands_asserts c S A
  cases phase with
  | clear =>
    rw [task, clearMaterialization]
    refine .bind (Routine.reads_within _) fun rows => .bind (.forM fun p _ => ?_) fun _ => ?_
    · exact .discard (hs.leave p.1)
    · exact hw.calm.adjust (fun _ => rfl) (fun _ => rfl) fun _ => rfl
  | materialize =>
    refine .discard (Materialization.materialize_within (.ofTable fun _ _ => .of_calm ?_))
    rw [Bits.any_or, c.unsettled_any_asserted]
    rfl
  | overdelete level => exact Rederivation.delete_within hw level
  | rederive level => exact .discard (Rederivation.rederive_within hw.calm level)
  | search level => exact .discard (Search.delete_within hw level)
  | copyClasses => exact .discard (Changes.copyClasses_within hw.calm)
  | insert level => exact .discard (insert_within hw.calm level)
  | propagate => exact .discard (Changes.propagate_within hs)

/-! ## Calls -/

variable {e e' : Engine} {call : Call} {calls : List Call} {stats : Stats} {retractions assertions : List Triple}
  {monitored : Bool} {stop : StopPoint} {f : Failure}

/-- The facts that are asserted. -/
def asserted (e : Engine) : Set Triple := {t | e.isAsserted t = true}

theorem asserts_iff : e.run.table.Asserts S A ↔ ∀ t ∈ S, t ∈ e.asserted ↔ t ∈ A :=
  forall₂_congr fun _ _ => iff_congr isAsserted_iff.symm Iff.rfl

theorem asserted_eq_iff : e.asserted = A ↔ e.run.table.Asserts .univ A :=
  asserts_iff.trans ⟨fun h => Set.ext fun t => h t (Set.mem_univ t), fun h t _ => by rw [h]⟩ |>.symm

/-! ### What calls assert -/

theorem compute_asserts (c : Context) : Within (fun r => r.table.Asserts S A) (fun _ r => r.table.Asserts S A) (do
    Routine.note .materializing
    clearMaterialization
    Materialization.materialize c) := by
  refine compute_within (.ofTable fun _ _ => .of_calm ?_) (Changes.withstands_asserts c S A).leave
  rw [Bits.any_or, c.unsettled_any_asserted]
  rfl

/-- A call, also one that fails, asserts and retracts no facts but those it brings. -/
theorem Call.always_asserts (call : Call) (hS : ∀ t ∈ S, t ∉ call.batch) :
    Always (fun e => e.run.table.Asserts S A) call.action := by
  refine With.of_all fun mode => call.always_with (fun c _ => compute_asserts c) (fun c _ => ?_) fun _ _ => id
  refine .ofTable (fun _ _ => .of_calm c.unsettled_any_asserted) (Changes.withstands_asserts c S A)
    (fun t ht T row hf h => (h.retract hf).congr fun u hu => ?_) fun t ht T h => h.assert.congr fun u hu => ?_
  · exact ⟨And.left, fun hA => ⟨hA, fun he => hS u hu (he ▸ ht)⟩⟩
  · exact ⟨fun hA => hA.resolve_right fun he => hS u hu (he ▸ ht), .inl⟩

/-- An update that returns revises the asserted facts. -/
theorem applyChanges_revises (h : applyChanges retractions assertions monitored stop e = .ok stats e') :
    Revises e.asserted retractions assertions stats e'.run.table := by
  have hmaintain : ∀ e₁ : Engine, e₁.run.table.Asserts .univ e.asserted →
      WLP (maintain retractions assertions monitored stop) e₁ fun stats e' =>
        Revises e.asserted retractions assertions stats e'.run.table := by
    intro e₁ h₁
    refine maintain_run_wlp (Q := fun stats r => Revises e.asserted retractions assertions stats r.table)
      (ensureIndex_same.mono fun x e₂ h₂ => ?_)
    rw [h₂.2]
    exact Maintenance.update_revises (r := { e₁.run with stopped := false }) _ _ _ h₁
  have hbefore := asserted_eq_iff.mp (rfl : e.asserted = e.asserted)
  have hmaterialize : Always (With e.mode fun r => r.table.Asserts .univ e.asserted) materialize :=
    always_materialize fun c _ => compute_asserts c
  exact applyChanges_wlp (fun _ e₁ _ h₁ => hmaintain e₁ (hmaterialize.of_eq_ok ⟨rfl, hbefore⟩ h₁).2)
    (fun _ => hmaintain e hbefore) stats e' h

/-! ## What calls say -/

/-- The asserted facts after a call. -/
def Call.revise (base : Set Triple) : Call → Set Triple
  | addFact t => base ∪ {t}
  | applyChanges retractions assertions _ _ => revised base retractions assertions
  | _ => base

/-- `calls` return one after the other and lead from `e` to `e'`. Between them are calls that fail: calls that
bring no facts, and requests that are refused. -/
inductive Served (e : Engine) : List Call → Engine → Prop
  | start : Served e [] e
  | returned {calls : List Call} {call : Call} {e₁ e' : Engine} (h : Served e calls e₁)
    (hc : call.action e₁ = .ok () e') : Served e (calls ++ [call]) e'
  | failed {calls : List Call} {call : Call} {e₁ e' : Engine} {f : Failure} (h : Served e calls e₁)
    (hc : call.action e₁ = .error f e') (hf : call.batch = [] ∨ Refuses f) : Served e calls e'

/-- A call that returns does what it says. -/
theorem Call.asserted_of_ok (h : call.action e = .ok () e') : e'.asserted = call.revise e.asserted := by
  have hbefore : e.run.table.Asserts .univ e.asserted := asserted_eq_iff.mp rfl
  refine asserted_eq_iff.mpr ?_
  cases call with
  | addFact t =>
    cases h
    exact hbefore.assert
  | applyChanges retractions assertions monitored stop =>
    obtain ⟨stats, e₁, he, h⟩ := bind_eq_ok.mp h
    cases h
    exact (applyChanges_revises he).asserts
  | _ => exact (Call.always_asserts _ fun _ _ => List.not_mem_nil).of_eq_ok hbefore h

/-- A call that fails asserts and retracts no facts but those it brings. -/
theorem Call.asserted_of_error (h : call.action e = .error f e') (ht : t ∉ call.batch) :
    t ∈ e'.asserted ↔ t ∈ e.asserted := by
  have hafter : e'.run.table.Asserts {t | t ∉ call.batch} e.asserted := by
    have := call.always_asserts (fun _ => id) e (asserts_iff.mpr fun t _ => Iff.rfl)
    rwa [afterwards, h] at this
  exact asserts_iff.mp hafter t ht

/-- After calls the facts are asserted that the calls which returned say, in their order. -/
theorem Served.asserted_eq (h : Served e calls e') : e'.asserted = calls.foldl Call.revise e.asserted := by
  induction h with
  | start => rfl
  | returned _ hc ih => rw [List.foldl_append, ← ih, Call.asserted_of_ok hc]; rfl
  | failed _ hc hf ih =>
    rw [← ih]
    rcases hf with hf | hf
    · exact Set.ext fun t => Call.asserted_of_error hc (hf ▸ List.not_mem_nil)
    · rw [Engine.asserted, Engine.asserted]
      simp only [isAsserted, statusOf, Call.run_eq_of_refuses hc hf]

/-- In every mode, the asserted facts are what the calls say. A call that returns does what it says, and an
update counts the retractions it was given and the facts that were not asserted once they are retracted. A call
that fails asserts and retracts no facts but those it brings, and one that is refused leaves the store and its
classes as they were. No phase of an update or of a materialization asserts or retracts a fact. So the asserted
facts after any calls are those that the calls which returned say one after the other. -/
theorem asserts_what_calls_say (e : Engine) :
    (∀ (call : Call) (e' : Engine), call.action e = .ok () e' → e'.asserted = call.revise e.asserted) ∧
    (∀ (retractions assertions : List Triple) (monitored : Bool) (stop : StopPoint) (stats : Stats)
      (e' : Engine), applyChanges retractions assertions monitored stop e = .ok stats e' →
        stats.retracted + stats.ignored = retractions.length ∧
        stats.asserted = {t | t ∈ assertions ∧ ¬ (t ∈ e.asserted ∧ t ∉ retractions)}.ncard) ∧
    (∀ (call : Call) (f : Failure) (e' : Engine), call.action e = .error f e' →
      (∀ t, t ∉ call.batch → (t ∈ e'.asserted ↔ t ∈ e.asserted)) ∧ (Refuses f → e'.run = e.run)) ∧
    (∀ (c : Context) (phase : Phase) (r : Run),
      Ends (phase.task c) r (fun _ r' => ∀ t, r'.Asserted t ↔ r.Asserted t)
        fun _ r' => ∀ t, r'.Asserted t ↔ r.Asserted t) ∧
    ∀ (calls : List Call) (e' : Engine), Served e calls e' →
      e'.asserted = calls.foldl Call.revise e.asserted := by
  refine ⟨fun _ _ => Call.asserted_of_ok, fun _ _ _ _ _ _ h => ?_, fun call f e' h => ?_, fun c phase r => ?_,
    fun _ _ => Served.asserted_eq⟩
  · exact ⟨(applyChanges_revises h).retracted, (applyChanges_revises h).asserted⟩
  · exact ⟨fun _ => Call.asserted_of_error h, Call.run_eq_of_refuses h⟩
  · have hphase := phase.task_within (c := c) (S := .univ) (A := {t | r.Asserted t}) r fun _ _ => Iff.rfl
    exact hphase.mono (fun _ _ h t => h t (Set.mem_univ t)) fun _ _ h t => h t (Set.mem_univ t)

/-- A link over steps is retracted and another one asserted. -/
theorem asserts_what_calls_say_parted : ∃ stats e',
    applyChanges [⟨8, 4, 9⟩] [⟨8, 4, 7⟩] true .never parted = .ok stats e' ∧
      stats.retracted + stats.ignored = 1 ∧
      stats.asserted = {t | t ∈ [⟨8, 4, 7⟩] ∧ ¬ (t ∈ parted.asserted ∧ t ∉ [⟨8, 4, 9⟩])}.ncard ∧
      e'.asserted = revised parted.asserted [⟨8, 4, 9⟩] [⟨8, 4, 7⟩] := by
  obtain ⟨stats, e', he, -⟩ := exists_applyChanges_parted
  obtain ⟨hcall, hcounts, -⟩ := asserts_what_calls_say parted
  refine ⟨stats, e', he, (hcounts _ _ _ _ _ _ he).1, (hcounts _ _ _ _ _ _ he).2, ?_⟩
  exact hcall (.applyChanges [⟨8, 4, 9⟩] [⟨8, 4, 7⟩] true .never) e' (bind_eq_ok.mpr ⟨stats, e', he, rfl⟩)

end Engine

end Entail
