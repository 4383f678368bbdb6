import Entail.Proofs.Agreement
import Entail.Proofs.Maintenance.Stratification
import Entail.Proofs.Recovery
import Entail.Proofs.Termination.Progress

/-!
# The work lists of an engine

What tasks do with their work lists are calls of these (`Routine.ask`; `Routine.enqueue_eq_ask` and the
like say so of each operation). Segmented queues that represent the work lists give the same answers, call
after call, and go on representing them (`Routine.asks_agree`), so work lists may be kept in segments.

If an engine without equality works off its rules by levels, then after every update the work lists have
no row twice, and the part of each level has facts of that level only (`applyChanges_queues_by_level`).
That is so for both strategies and whatever negation the rules have, and whether or not the update was
stopped; if it was not, every row is in the part of the level of its fact.
-/

namespace Entail

/-! ## Segments -/

/-- What a work list answers to a call, if the queues that a call may name are `lists`. -/
def Routine.ask (lists : Nat → Queue) (w : WorkList) (call : Queue.Call) : Routine Queue.Answer := fun r =>
  match Queue.answer lists call (r.update.queue w) with
  | .ok a q => .ok a { r with update := r.update.withQueue w q }
  | .error e q => .error (.error e) { r with update := r.update.withQueue w q }

/-- What a work list that is kept in a segmented queue answers. -/
def SegmentedQueue.ask (memory : Nat → Bool) (others : Nat → SegmentedQueue) (w : WorkList)
    (call : Queue.Call) : EStateM Error (WorkList → SegmentedQueue) Queue.Answer := fun queues =>
  match answer memory others call (queues w) with
  | .ok a q => .ok a (Function.update queues w q)
  | .error e q => .error e (Function.update queues w q)

/-- The work lists of a run are kept in segmented queues. -/
def Run.KeptIn (r : Run) (queues : WorkList → SegmentedQueue) : Prop :=
  ∀ w, (queues w).Represents (r.update.queue w)

theorem Run.KeptIn.update {r : Run} {queues : WorkList → SegmentedQueue} (h : r.KeptIn queues)
    {w : WorkList} {q : SegmentedQueue} {l : Queue} (hq : q.Represents l) :
    KeptIn { r with update := r.update.withQueue w l } (Function.update queues w q) := by
  intro w'
  by_cases hw : w = w'
  · subst hw
    rw [Function.update_self, Update.queue_withQueue]
    exact hq
  · rw [Function.update_of_ne (Ne.symm hw), Update.queue_withQueue_of_ne _ _ hw]
    exact h w'

namespace Routine

open Queue (Answer)

variable {lists : Nat → Queue} {w : WorkList} {r : Run}

theorem enqueue_eq_ask (row : RowIndex) :
    (fun _ => Answer.done) <$> enqueue w row = ask lists w (.enqueue row) := by
  funext r
  simp only [Functor.map, EStateM.map, enqueue, ask, Queue.answer, bind, EStateM.bind, Queue.attempt]
  cases (r.update.queue w).enqueue row with
  | ok q => rfl
  | error e =>
    -- a row that is refused leaves the list as it was
    dsimp only
    rw [Update.withQueue_queue]

theorem dequeueBefore_eq_ask (limit : Nat) :
    Answer.number <$> dequeueBefore w limit = ask lists w (.dequeueBefore limit) := rfl

theorem dequeue_eq_ask (h : (r.update.queue w).size ≤ Queue.lastPlace) :
    (Answer.number <$> dequeue w) r = ask lists w .dequeue r := by
  have hdequeue : dequeue w r = dequeueBefore w Queue.lastPlace r := by
    rw [dequeue_eq, dequeueBefore_eq, Queue.dequeueBefore_of_size_le h]
  have hmap : (Answer.number <$> dequeue w) r = (Answer.number <$> dequeueBefore w Queue.lastPlace) r := by
    simp only [Functor.map, EStateM.map, hdequeue]
  exact hmap

theorem seek_eq_ask (place : Nat) :
    (fun _ => Answer.done) <$> seek w place = ask lists w (.seek place) := rfl

theorem append_eq_ask {n : Nat} (h : ∀ row ∈ (lists n).values, row ≠ 0) :
    (fun _ => Answer.done) <$> append w (lists n) = ask lists w (.append n) := by
  funext r
  simp only [Functor.map, EStateM.map, append, Queue.append_eq_ok h]
  rfl

/-- The same answer or error, and afterwards the work lists are kept in the queues. -/
inductive Agree {α : Type} :
    EStateM.Result Error (WorkList → SegmentedQueue) α → EStateM.Result Failure Run α → Prop
  | ok {queues : WorkList → SegmentedQueue} {r : Run} {a : α} (h : r.KeptIn queues) :
    Agree (.ok a queues) (.ok a r)
  | error {queues : WorkList → SegmentedQueue} {r : Run} {e : Error} (h : r.KeptIn queues) :
    Agree (.error e queues) (.error (.error e) r)

variable {queues : WorkList → SegmentedQueue} {memory : Nat → Bool} {others : Nat → SegmentedQueue}

theorem Agree.bind {α β : Type} {x : EStateM Error (WorkList → SegmentedQueue) α} {y : Routine α}
    {f : α → EStateM Error (WorkList → SegmentedQueue) β} {g : α → Routine β}
    (h : Agree (x queues) (y r))
    (hfg : ∀ a (queues : WorkList → SegmentedQueue) (r : Run), r.KeptIn queues →
      Agree (f a queues) (g a r)) : Agree ((x >>= f) queues) ((y >>= g) r) := by
  simp only [Bind.bind, EStateM.bind]
  generalize x queues = a, y r = b at h ⊢
  cases h with
  | ok h => exact hfg _ _ _ h
  | error h => exact .error h

theorem ask_agree (hm : ∀ n, memory n = true) (hothers : ∀ n, (others n).Represents (lists n))
    (h : r.KeptIn queues) (w : WorkList) (call : Queue.Call) :
    Agree (SegmentedQueue.ask memory others w call queues) (ask lists w call r) := by
  have hagree := SegmentedQueue.answer_agree hm hothers (h w) call
  rw [SegmentedQueue.ask, ask]
  generalize SegmentedQueue.answer memory others call (queues w) = x,
    Queue.answer lists call (r.update.queue w) = y at hagree ⊢
  cases hagree with
  | ok hq => exact .ok (h.update hq)
  | error hq => exact .error (h.update hq)

/-- As long as there is room, segmented queues that represent the work lists give the same answers as these,
up to the first error, and represent the work lists of the run afterwards. -/
theorem asks_agree (hm : ∀ n, memory n = true) (hothers : ∀ n, (others n).Represents (lists n))
    (h : r.KeptIn queues) (calls : List (WorkList × Queue.Call)) :
    Agree (calls.mapM (fun p => SegmentedQueue.ask memory others p.1 p.2) queues)
      (calls.mapM (fun p => ask lists p.1 p.2) r) := by
  induction calls generalizing queues r with
  | nil => exact .ok h
  | cons p calls ih =>
    rw [List.mapM_cons, List.mapM_cons]
    refine (ask_agree hm hothers h p.1 p.2).bind fun a queues₁ r₁ h₁ => ?_
    exact (ih h₁).bind fun answers queues₂ r₂ h₂ => .ok h₂

end Routine

/-! ## Levels -/

namespace Engine

open Changes (Side)

variable {e e' : Engine} {stats : Stats} {retractions assertions : List Triple} {monitored : Bool}
  {stop : StopPoint}

/-- The index is built from the rules. -/
theorem ensureIndex_wlp (h : Indexed e) : WLP ensureIndex e fun x e' =>
    buildIndex e.rules.toList e.mode = .ok x ∧ e'.mode = e.mode := by
  intro x e' hx
  rw [ensureIndex] at hx
  cases hi : e.index with
  | some y =>
    rw [hi] at hx
    cases hx
    exact ⟨h x hi, rfl⟩
  | none =>
    rw [hi] at hx
    dsimp only at hx
    split at hx <;> cases hx
    exact ⟨‹_›, rfl⟩

/-- Once the materialization is up to date, the levels are worked off with the rules of the engine. -/
theorem maintain_wlp (h : Indexed e) (hu : e.mode.usesLevels = true) :
    WLP (maintain retractions assertions monitored stop) e fun stats e' =>
      ∃ x l, buildIndex e.rules.toList e.mode = .ok x ∧ Disciplined x l (fun _ => l) e'.run ∧
        (stats.cancelled = false → l = x.maxLevel + 1) := by
  refine maintain_run_wlp (Q := fun stats r => ∃ x l, buildIndex e.rules.toList e.mode = .ok x ∧
    Disciplined x l (fun _ => l) r ∧ (stats.cancelled = false → l = x.maxLevel + 1))
    ((ensureIndex_wlp h).mono ?_)
  rintro x e₁ ⟨hx, hmode⟩
  have hlevels : (e₁.context x monitored stop).ByLevels e.rules.toList := by
    refine ⟨?_, ?_⟩
    · rw [context, hmode]
      exact hu
    · exact hu ▸ (buildIndex_eq_ok hx).1
  refine (Maintenance.update_wlp hlevels e₁.strategy retractions assertions).mono ?_
  rintro stats run ⟨l, hrun, hl⟩
  exact ⟨x, l, hx, hrun, hl⟩

/-- After an update the work lists have no row twice, and the part of each level has facts of that level
only; if the update was not cancelled, every row is in the part of the level of its fact. -/
theorem applyChanges_queues_by_level (hreach : Reachable e) (hequality : e.mode.equality = .off)
    (hlevels : e.mode.byLevels = true)
    (h : applyChanges retractions assertions monitored stop e = .ok stats e') :
    ∃ x, buildIndex e.rules.toList e.mode = .ok x ∧ ∀ s : Side, (e'.run.listed s.work).Nodup ∧
      ∀ place row, (e'.run.listed s.work)[place]? = some row →
        ∃ t, e'.run.table.fact? row = some t ∧
          (∀ level, s.InPart e'.run.update level place → x.componentLevel t = level) ∧
          (stats.cancelled = false → s.InPart e'.run.update (x.componentLevel t) place) := by
  have hu : e.mode.usesLevels = true := by
    rw [Mode.usesLevels, hlevels, hequality]
    rfl
  suffices hupdate : WLP (applyChanges retractions assertions monitored stop) e fun stats e' =>
      ∃ x l, buildIndex e.rules.toList e.mode = .ok x ∧ Disciplined x l (fun _ => l) e'.run ∧
        (stats.cancelled = false → l = x.maxLevel + 1) by
    obtain ⟨x, l, hx, hrun, hl⟩ := hupdate stats e' h
    refine ⟨x, hx, fun s => ⟨(hrun s).nodup, fun place row hrow => ?_⟩⟩
    obtain ⟨-, t, hf, -⟩ := (hrun s).flagged row (List.mem_of_getElem? hrow)
    refine ⟨t, hf, fun level hp => (hrun s).componentLevel_of_inPart hrow hf hp, fun hc => ?_⟩
    refine (hrun s).inPart hrow hf ?_
    rw [hl hc]
    exact Nat.lt_succ_of_le (x.componentLevel_le_maxLevel t)
  have hoff : e.mode.equality.enabled = false := by
    rw [hequality]
    rfl
  rw [WLP, applyChanges_eq hoff]
  refine WLP.ite (fun _ => WLP.bind_iff.mpr fun _ e₁ hmat => ?_) fun _ => maintain_wlp hreach.indexed hu
  have h₁ := (always_discard lasting_indexed.materialize).of_eq_ok hreach.indexed hmat
  have hsame := (always_discard (lasting_sameRules e).materialize).of_eq_ok ⟨rfl, rfl, rfl⟩ hmat
  rw [← hsame.rules_eq, ← hsame.mode_eq]
  exact maintain_wlp h₁ (hsame.mode_eq ▸ hu)

/-- An engine that was given the rules `apart` and some facts. -/
def parted : Engine :=
  [.addRule apart[0], .addRule apart[1], .addFact ⟨7, 4, 8⟩, .addFact ⟨8, 4, 9⟩, .addFact ⟨7, 6, 9⟩,
    .addFact ⟨8, 6, 7⟩].foldl (fun e (c : Call) => afterwards c.action e) { strategy := .dred }

/-- A link over steps is lost, and another one appears. -/
theorem exists_applyChanges_parted :
    ∃ stats e', applyChanges [⟨8, 4, 9⟩] [⟨8, 4, 7⟩] true .never parted = .ok stats e' ∧
      stats.cancelled = false := by
  let facts : List Triple := [⟨7, 4, 8⟩, ⟨8, 4, 9⟩, ⟨7, 6, 9⟩, ⟨8, 6, 7⟩]
  let batch : Batch := ⟨[⟨8, 4, 9⟩], [⟨8, 4, 7⟩], true⟩
  obtain ⟨x, hx⟩ := stratified_apart.exists_setting
  have hfits : Fits apart facts [batch] :=
    .of_within (n := 9) stratified_apart.parsed (by decide) (by decide) (by decide)
  have hkeeps : Keeps apart {} .dred x (perfectModel apart)
      (leastModel apart {t | t ∈ everAsserted facts [batch]}) {t | t ∈ facts} parted :=
    (setUp_wp apart facts [batch] 1 .vocabulary).result (a := .unit) rfl
  have hall : ∀ t ∈ batch.assertions, t ∈ leastModel apart {t | t ∈ everAsserted facts [batch]} :=
    fun _ => asserted_mem_leastModel (List.mem_singleton_self batch)
  obtain ⟨stats, e', he, hc, -⟩ := applyChanges_wp hx hfits.universe_room (Nat.sub_one_lt (by decide))
    (fun _ _ _ _ _ hv => Maintenance.deletes_of_dred hv) hkeeps hall true
  exact ⟨stats, e', he, hc⟩

theorem applyChanges_queues_by_level_parted : Reachable parted ∧ parted.mode.equality = .off ∧
    parted.mode.byLevels = true ∧ ∃ stats e',
      applyChanges [⟨8, 4, 9⟩] [⟨8, 4, 7⟩] true .never parted = .ok stats e' ∧
        stats.cancelled = false ∧
        ∃ x, buildIndex parted.rules.toList parted.mode = .ok x ∧ ∀ s : Side,
          (e'.run.listed s.work).Nodup ∧ ∀ place row, (e'.run.listed s.work)[place]? = some row →
            ∃ t, e'.run.table.fact? row = some t ∧
              (∀ level, s.InPart e'.run.update level place → x.componentLevel t = level) ∧
              (stats.cancelled = false → s.InPart e'.run.update (x.componentLevel t) place) := by
  have hreach : Reachable parted :=
    .call (.addFact ⟨8, 6, 7⟩) (.call (.addFact ⟨7, 6, 9⟩) (.call (.addFact ⟨8, 4, 9⟩)
      (.call (.addFact ⟨7, 4, 8⟩) (.call (.addRule apart[1]) (.call (.addRule apart[0])
        (.start rfl))))))
  obtain ⟨stats, e', he, hc⟩ := exists_applyChanges_parted
  exact ⟨hreach, rfl, rfl, stats, e', he, hc, applyChanges_queues_by_level hreach rfl rfl he⟩

end Engine

end Entail
