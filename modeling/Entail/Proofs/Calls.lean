import Entail.Proofs.Maintenance.Calm
import Entail.Proofs.Recovery

/-!
# Calls

A call, also one that fails, keeps every property of the store and the journal that withstands its tasks
(`Call.always_with`). A call that fails leaves the store unusable or as it was, and as it was if the request
is refused because of the rules or the mode (`Call.run_eq_of_refuses`).
-/

namespace Entail.Engine

open Maintenance

variable {c : Context} {e e' : Engine} {call : Call} {retractions assertions : List Triple} {monitored : Bool}
  {stop : StopPoint} {f : Failure}

/-- The facts that a call brings. -/
def Call.batch : Call → List Triple
  | addFact t => [t]
  | applyChanges retractions assertions _ _ => retractions ++ assertions
  | _ => []

/-! ## What calls keep -/

/-- A property of the run of an engine with the given mode. -/
def With (mode : Mode) (p : Run → Prop) (e : Engine) : Prop := e.mode = mode ∧ p e.run

/-- The materialization is computed anew. -/
theorem compute_within {P : Run → Prop} {E : Failure → Run → Prop}
    (ht : Run.Tolerates (Run.Calm (Status.derived ||| c.unsettled)) P E)
    (hleave : ∀ row, Within P E (Routine.updateStatus row (Status.derived ||| Status.merged) 0)) :
    Within P E (do
      Routine.note .materializing
      clearMaterialization
      Materialization.materialize c) := by
  refine .bind (ht.idle.note _) fun _ => .bind ?_ fun _ => Materialization.materialize_within ht
  refine .bind (Routine.reads_within _) fun rows => .bind (.forM fun p _ => .discard (hleave p.1)) fun _ => ?_
  exact ht.adjust (fun _ => rfl) (fun _ => rfl) fun _ => rfl

section With

variable {mode : Mode} {p : Run → Prop}

theorem With.of_all (h : ∀ mode, Always (With mode p) call.action) : Always (fun e => p e.run) call.action :=
  fun e he => (h e.mode e ⟨rfl, he⟩).2

theorem always_perform_within {α : Type} {x : Routine α} (h : Within p (fun _ => p) x) :
    Always (With mode p) (perform x) := by
  intro e he
  have hx := h e.run he.2
  simp only [Ends] at hx
  rw [afterwards, perform]
  cases hr : x e.run with
  | ok a run =>
    rw [hr] at hx
    exact ⟨he.1, hx⟩
  | error failure run =>
    rw [hr] at hx
    exact ⟨he.1, hx⟩

theorem always_ensureIndex : Always (With mode p) ensureIndex := by
  intro e h
  rw [afterwards, ensureIndex]
  cases e.index with
  | some y => exact h
  | none => cases buildIndex e.rules.toList e.mode <;> exact h

/-- Indexing the rules leaves the store alone. -/
theorem ensureIndex_same : WLP ensureIndex e fun _ e' => e'.mode = e.mode ∧ e'.run = e.run := fun _ _ h =>
  always_ensureIndex.of_eq_ok (P := With e.mode fun r => r = e.run) ⟨rfl, rfl⟩ h

theorem always_materialize (h : ∀ c : Context, c.mode = mode → Within p (fun _ => p) (do
      Routine.note .materializing
      clearMaterialization
      Materialization.materialize c)) : Always (With mode p) materialize := by
  refine always_bind always_ensureIndex fun x => always_bind_get fun e he => ?_
  refine always_bind (always_perform_within (h _ he.1)) fun _ => ?_
  exact always_bind (always_modify fun _ => id) fun _ => always_pure _

theorem always_maintain (h : ∀ c : Context, c.mode = mode → Survives c retractions assertions p fun _ => p)
    (hstop : ∀ r stopped, p r → p { r with stopped }) :
    Always (With mode p) (maintain retractions assertions monitored stop) := by
  refine always_bind always_ensureIndex fun x => always_bind_get fun e he => ?_
  refine always_bind (always_perform_within (.bind (.modify fun r => hstop r false) fun _ =>
    Maintenance.update_within (h _ he.1) _)) fun stats => ?_
  exact always_ite (always_bind (always_modify fun _ => id) fun _ => always_pure _) (always_pure _)

/-- A call, also one that fails, keeps what withstands its tasks. -/
theorem Call.always_with (call : Call) (hcompute : ∀ c : Context, c.mode = mode → Within p (fun _ => p) (do
      Routine.note .materializing
      clearMaterialization
      Materialization.materialize c))
    (hs : ∀ c : Context, c.mode = mode → Survives c call.batch call.batch p fun _ => p)
    (hstop : ∀ r stopped, p r → p { r with stopped }) : Always (With mode p) call.action := by
  have hd : ∀ (e : Engine) dictionary, With mode p e → With mode p { e with dictionary } := fun _ _ => id
  have hrule : ∀ rule, Always (With mode p) (Engine.addRule rule) := fun _ => always_modify fun _ => id
  cases call with
  | intern text => exact always_discard (always_intern hd text)
  | parseTriple text => exact always_discard (always_parseTriple hd text)
  | addRule rule => exact hrule rule
  | addRuleText text level => exact always_addRuleText hd hrule text level
  | addFact t =>
    refine always_modify fun e he => ⟨he.1, ?_⟩
    exact (hs (e.context default false .never) he.1).asserted t (List.mem_singleton_self t) e.run he.2
  | materialize => exact always_discard (always_materialize hcompute)
  | applyChanges retractions assertions monitored stop =>
    refine always_discard (always_applyChanges (always_materialize hcompute)
      (always_maintain (fun c hc => ?_) hstop))
    exact { hs c hc with
      retracted := fun t ht => (hs c hc).retracted t (List.mem_append_left _ ht)
      asserted := fun t ht => (hs c hc).asserted t (List.mem_append_right _ ht) }
  | requestStop => exact always_modify fun e he => ⟨he.1, hstop e.run true he.2⟩

end With

/-! ## Requests that are refused -/

/-- A failure by which a request is refused because of the rules or the mode. -/
def Refuses : Failure → Prop
  | .error e => e.code = .unsupportedMode ∨ e.code = .invalidStratification ∨ e.code = .unstratifiableNegation
  | _ => False

theorem Refuses.not_fatal (h : Refuses f) : ¬ f.Fatal := by
  cases f with
  | error e => rcases h with h | h | h <;> simp [Failure.Fatal, h, ErrorCode.fatal]
  | misuse => exact h.elim
  | exhausted => exact h.elim

theorem perform_ends {α : Type} {x : Routine α} {Q : α → Engine → Prop} {E : Failure → Engine → Prop}
    (h : Ends x e.run (fun a run => Q a { e with run }) fun f run => E f { e with run }) :
    Ends (perform x) e Q E := by
  simp only [Ends, perform] at h ⊢
  cases hx : x e.run with
  | ok a run => rwa [hx] at h
  | error f run => rwa [hx] at h

theorem ensureIndex_ends : Ends ensureIndex e (fun x e' => e'.index = some x)
    fun _ e' => e.index = none ∧ e'.run = e.run := by
  simp only [Ends, ensureIndex]
  cases hi : e.index with
  | some x => exact hi
  | none => cases buildIndex e.rules.toList e.mode <;> simp

theorem materialize_ends : Ends materialize e (fun _ e' => e'.index.isSome = true)
    fun f e' => f.Fatal ∨ e'.run = e.run := by
  refine Ends.bind_iff.mpr (ensureIndex_ends.mono (fun x e₁ h₁ => ?_) fun _ _ h => .inr h.2)
  refine Ends.bind_iff.mpr (Ends.get_iff.mpr (Ends.bind_iff.mpr (perform_ends ?_)))
  have hs := Maintenance.survives_fatal (e₁.context x false .never) [] []
  have htask := compute_within (c := e₁.context x false .never)
    ⟨fun _ _ _ _ => trivial, hs.calm.fails, hs.calm.stops⟩
    hs.settles.leave
  refine (htask e₁.run trivial).mono (fun _ _ _ => Ends.bind_iff.mpr ?_) fun _ _ => .inl
  exact Option.isSome_iff_exists.mpr ⟨x, h₁⟩

theorem maintain_ends : Ends (maintain retractions assertions monitored stop) e (fun _ _ => True)
    fun f e' => f.Fatal ∨ e.index = none ∧ e'.run = e.run := by
  refine Ends.bind_iff.mpr (ensureIndex_ends.mono (fun x e₁ _ => ?_) fun _ _ => .inr)
  refine Ends.bind_iff.mpr (Ends.get_iff.mpr (Ends.bind_iff.mpr (perform_ends ?_)))
  refine Ends.bind_iff.mpr (Ends.modify_iff.mpr ?_)
  refine (Maintenance.update_within (Maintenance.survives_fatal _ retractions assertions) _ _ trivial).mono
    (fun stats _ _ => ?_) fun _ _ => .inl
  exact .ite (fun _ => trivial) fun _ => trivial

/-- A call that fails leaves the store unusable, or as it was. -/
theorem applyChanges_ends : Ends (applyChanges retractions assertions monitored stop) e (fun _ _ => True)
    fun f e' => f.Fatal ∨ e'.run = e.run := by
  refine Ends.bind_iff.mpr (Ends.get_iff.mpr (.ite (fun _ => .inr rfl) fun _ => .ite (fun _ => ?_) fun _ => ?_))
  · -- once the materialization is computed the rules are indexed
    refine Ends.bind_iff.mpr (Ends.discard_iff.mpr (materialize_ends.mono (fun _ e₁ h₁ => ?_) fun _ _ => id))
    refine maintain_ends.mono (fun _ _ => id) fun f e' h => h.imp_right fun h => ?_
    rw [h.1] at h₁
    cases h₁
  · exact maintain_ends.mono (fun _ _ => id) fun _ _ h => h.imp_right And.right

/-- A call that is refused leaves the store and its classes as they were. -/
theorem Call.run_eq_of_refuses (h : call.action e = .error f e') (hf : Refuses f) : e'.run = e.run := by
  have hsame : ∀ {x : Action Unit}, Always (fun e' => e'.run = e.run) x → x e = .error f e' → e'.run = e.run :=
    fun hx he => by
      have := hx e rfl
      rwa [afterwards, he] at this
  have hd : ∀ (e' : Engine) dictionary, e'.run = e.run → { e' with dictionary }.run = e.run := fun _ _ => id
  have hrule : ∀ rule, Always (fun e' => e'.run = e.run) (Engine.addRule rule) := fun _ =>
    always_modify fun _ => id
  cases call with
  | intern text => exact hsame (always_discard (always_intern hd text)) h
  | parseTriple text => exact hsame (always_discard (always_parseTriple hd text)) h
  | addRule rule => exact hsame (hrule rule) h
  | addRuleText text level => exact hsame (always_addRuleText hd hrule text level) h
  | addFact t => cases h
  | materialize => exact (materialize_ends.failure_of_discard h).resolve_left hf.not_fatal
  | applyChanges retractions assertions monitored stop =>
    exact (applyChanges_ends.failure_of_discard h).resolve_left hf.not_fatal
  | requestStop => cases h

end Entail.Engine
