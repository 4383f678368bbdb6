import Mathlib
import Entail.Proofs.Classes.Direction
import Entail.Proofs.Termination.Progress

/-!
# The steps of a task that comes to an end

A task that puts rows into a queue as they are marked, and derives facts over a finite set of ids
only, stays within what a `Lane` bears (`Lane.Bears`): it may give facts rows, set flags, take rows
and announce what it does. The rules below say so of the operations that tasks are made of, and of
their loops over a queue (`Lane.Bears.drain`).
-/

namespace Entail

/-- Whether an event announces a merge. -/
def Event.isMerge : Event → Bool
  | .constantMerged _ _ => true
  | _ => false

/-- The number of merges announced. -/
def Run.merges (r : Run) : Nat := r.events.countP Event.isMerge

/-- From `r` to `r'` nothing is merged, and the search for proofs is where it was. -/
structure Run.Agrees (r r' : Run) : Prop where
  steady : r'.steady = r.steady
  proving : r'.proving = r.proving
  examinations : r'.examinations = r.examinations
  checked : r'.checked = r.checked
  merges : r'.merges = r.merges

variable {c : Context} {K : Finset Nat} {r : Run} {row : RowIndex} {t : Triple} {α β : Type}
  {P : Run → Prop}
  {E : Failure → Run → Prop} {Q : α → Run → Prop}

/-! ## Operations -/

/-- One of two resources is merged into the other. -/
theorem Dictionary.mergeDirection_mem (d : Dictionary) (uniqueNames : Bool) {first second : Nat}
    (hfirst : first ∈ K) (hsecond : second ∈ K) :
    (d.mergeDirection uniqueNames first second).source ∈ K ∧
      (d.mergeDirection uniqueNames first second).target ∈ K := by
  rcases d.mergeDirection_ends uniqueNames first second with ⟨hs, ht⟩ | ⟨hs, ht⟩
  · rw [hs, ht]
    exact ⟨hfirst, hsecond⟩
  · rw [hs, ht]
    exact ⟨hsecond, hfirst⟩

theorem Routine.rowOf_ends {Q : RowIndex → Run → Prop}
    (h : ∀ (row : Nat) table, r.table.Grows table → table.fact? row = some t →
      (∀ row u, table.fact? row = some u → r.table.fact? row = some u ∨ u = t) → Q row { r with table }) :
    Ends (Routine.rowOf t) r Q E := by
  obtain ⟨row, r', hx, hq⟩ := rowOf_wp (r := r) (t := t) (Q := Q) fun row r' hg hf ho => by
    obtain ⟨table, rfl⟩ := hg.eq
    exact h row table hg.table hf ho
  rwa [Ends, hx]

theorem Routine.factOf_ends {Q : Triple → Run → Prop} (hQ : ∀ t, r.table.fact? row = some t → Q t r)
    (hE : ∀ f, f.Broken → E f r) : Ends (factOf row) r Q E := by
  rw [Ends, factOf]
  split <;> rename_i heq <;> split at heq <;> cases heq
  · exact hQ _ ‹_›
  · exact hE _ rfl

/-- A row is taken, unless the run is to stop. -/
theorem Context.whileRunning_ends {w : WorkList} {next : Routine RowIndex}
    (hnext : Routine.TakesFrom w next)
    {Q : RowIndex → Run → Prop} (hstop : ∀ polls stopped, Q 0 { r with polls, stopped })
    (htake : ∀ polls stopped row q, (r.update.queue w).Takes row q →
      Q row { r with polls, stopped, update := r.update.withQueue w q }) :
    Ends (c.whileRunning next) r Q E := by
  refine Ends.bind_iff.mpr (Ends.modifyGet_iff.mpr ?_)
  dsimp only
  split
  · obtain ⟨row, q, hx, hq⟩ := hnext
      { r with polls := r.polls + 1, stopped := r.stopped || c.stop == .poll (r.polls + 1) }
    rw [Ends, hx]
    exact htake _ _ row q hq
  · exact hstop _ _

/-- A fact gets the flag of a queue, and is put into the queue if it did not have it. -/
theorem Lane.enter_ends {q : Lane} (hbit : Bits.IsBit q.flag) (hf : r.table.fact? row = some t)
    {new old : Bool → Routine α} (hE : ∀ f, f.Broken → E f r)
    (hnew : ∀ update, q.Advances r { r with update } → q.marked q.flag r row = false →
      q.marked q.flag { r with update } row = true → Ends (new true) { r with update } Q E)
    (hold : ∀ update, q.Advances r { r with update } → Ends (old false) { r with update } Q E) :
    Ends (q.layer.add row q.flag >>= fun isNew =>
      if isNew then Routine.enqueue q.list row >>= fun _ => new isNew else old isNew) r Q E := by
  refine Ends.bind_iff.mpr (Layer.add_ends (fun m hm => ?_) hE)
  rw [hbit.or_bne]
  cases hn : ((q.layer.marks r.update).flags row).any q.flag with
  | true => exact hold _ (.of_marks hm)
  | false =>
    rw [Bool.not_false, if_pos rfl]
    refine Ends.bind_iff.mpr ?_
    have hadv := Lane.Advances.of_enter hm hbit hf hn
    obtain ⟨_, r', hx, rfl⟩ := Routine.enqueue_wp (w := q.list)
      (r := { r with update := q.layer.withMarks r.update m }) (Table.fact?_bounds hf).1
      (Q := fun _ r' => r' = { r with
        update := (q.layer.withMarks r.update m).withQueue q.list ((r.update.queue q.list).push row) })
      (by simp)
    rw [Ends, hx]
    exact hnew _ hadv hn (by simp [Lane.marked, hm.any, hbit.any_self])

/-! ## What a lane bears -/

/-- `P` says that all facts are over `K` and does not notice that rows are queued as they are marked,
and `E` lets a run break where `P` holds. -/
structure Lane.Bears (q : Lane) (c : Context) (K : Finset Nat) (P : Run → Prop)
    (E : Failure → Run → Prop) : Prop where
  names : c.Names K
  fact (r : Run) (h : P r) (row : RowIndex) (t : Triple) (hf : r.table.fact? row = some t) :
    t.Over (· ∈ K)
  steady (r : Run) (h : P r) : r.steady.Confined K
  keeps (r r' : Run) (h : P r)
    (hf : ∀ row t, r'.table.fact? row = some t → r.table.fact? row = some t ∨ t.Over (· ∈ K))
    (ha : q.Advances r r') (hs : r.Agrees r') : P r'
  breaks (r : Run) (f : Failure) (h : P r) (hf : f.Broken) : E f r

namespace Lane.Bears

variable {q : Lane} (ht : q.Bears c K P E)

include ht

/-- What is done from a run on may be compared with it. -/
theorem after (r₀ : Run) : q.Bears c K (fun r => P r ∧ q.Advances r₀ r) E :=
  ⟨ht.names, fun r h => ht.fact r h.1, fun r h => ht.steady r h.1,
    fun r r' h hf ha hs => ⟨ht.keeps r r' h.1 hf ha hs, h.2.trans ha⟩, fun r f h => ht.breaks r f h.1⟩

/-- A fact keeps its row. -/
theorem with_fact (row : RowIndex) (t : Triple) :
    q.Bears c K (fun r => P r ∧ r.table.fact? row = some t) E :=
  ⟨ht.names, fun r h => ht.fact r h.1, fun r h => ht.steady r h.1,
    fun r r' h hf ha hs => ⟨ht.keeps r r' h.1 hf ha hs, ha.fact row t h.2⟩,
    fun r f h => ht.breaks r f h.1⟩

theorem size_le (h : P r) : r.table.size ≤ K.card ^ 3 := Table.size_le_of_over (ht.fact r h)

/-- Nothing happens to the table and the update. -/
theorem keeps_of_eq {r' : Run} (h : P r) (hT : r'.table = r.table) (hu : r'.update = r.update)
    (hs : r.Agrees r') : P r' :=
  ht.keeps r r' h (fun _ _ hf => .inl (hT ▸ hf)) (.of_update_eq (fun _ _ hf => hT ▸ hf) hu) hs

theorem keeps_of_update {update : Update} (h : P r) (ha : q.Advances r { r with update }) :
    P { r with update } :=
  ht.keeps r _ h (fun _ _ => .inl) ha ⟨rfl, rfl, rfl, rfl, rfl⟩

theorem announce {e : Event} (he : e.isMerge = false) : Within P E (c.announce e) := by
  refine fun r hr => Context.announce_frame fun journal heard stopped hevents =>
    ht.keeps_of_eq hr rfl rfl ⟨rfl, rfl, rfl, rfl, ?_⟩
  rw [Run.merges, hevents, List.countP_append]
  split
  · rw [List.countP_singleton, he]
    rfl
  · rfl

theorem checkReflexivity (id kind : Nat) : Within P E (Routine.checkReflexivity id kind) := fun _ hr =>
  Ends.modifyGet_iff.mpr (ht.keeps_of_eq hr rfl rfl ⟨rfl, rfl, rfl, rfl, rfl⟩)

theorem add (l : Layer) (row : RowIndex) (set : Flags) : Within P E (l.add row set) := fun r hr =>
  Layer.add_ends (fun _ hm => ht.keeps_of_update hr (.of_marks hm)) fun f => ht.breaks r f hr

theorem factOf_ends {r : Run} (hr : P r) : Ends (Routine.factOf row) r
    (fun t r' => P r' ∧ r'.table.fact? row = some t) E :=
  Routine.factOf_ends (fun _ hf => ⟨hr, hf⟩) fun f => ht.breaks r f hr

/-- A fact of the table is over `K`. -/
theorem bind_factOf {k : Triple → Routine α} (hk : ∀ t, t.Over (· ∈ K) → Within P E (k t)) :
    Within P E (Routine.factOf row >>= k) :=
  .bind_of (fun _ hr => (ht.factOf_ends hr).mono (fun t r' h => ⟨h.1, ht.fact r' h.1 row t h.2⟩)
    fun _ _ => id) hk

/-- A fact is over `K` in its normal form as well. -/
theorem bind_normal {k : Triple → Routine α} (h : t.Over (· ∈ K))
    (hk : ∀ t, t.Over (· ∈ K) → Within P E (k t)) :
    Within P E (Routine.reads (fun r => r.steady.normalizeTriple t) >>= k) :=
  .bind_of (fun r hr => ⟨hr, (ht.steady r hr).normalizeTriple h⟩) hk

/-- A fact over `K` gets a row. -/
theorem rowOf_ends (hr : P r) (h : t.Over (· ∈ K)) : Ends (Routine.rowOf t) r
    (fun row r' => P r' ∧ q.Advances r r' ∧ r'.table.fact? row = some t) E := by
  refine Routine.rowOf_ends fun row table hg hf hfacts => ?_
  have ha : q.Advances r { r with table } := .of_update_eq (fun row u hu => hg.rows.fact? hu) rfl
  refine ⟨ht.keeps r _ hr (fun row u hu => ?_) ha ⟨rfl, rfl, rfl, rfl, rfl⟩, ha, hf⟩
  exact (hfacts row u hu).imp_right fun he => by rwa [he]

/-- A fact gets the flag of the lane and enters the queue, or it did so before. -/
theorem enter_ends (hbit : Bits.IsBit q.flag) (hr : P r) (hf : r.table.fact? row = some t)
    {new old : Bool → Routine α}
    (hnew : ∀ r', P r' → q.Advances r r' → q.count q.flag r < q.count q.flag r' → Ends (new true) r' Q E)
    (hold : ∀ r', P r' → q.Advances r r' → Ends (old false) r' Q E) :
    Ends (q.layer.add row q.flag >>= fun isNew =>
      if isNew then Routine.enqueue q.list row >>= fun _ => new isNew else old isNew) r Q E :=
  Lane.enter_ends hbit hf (fun f => ht.breaks r f hr)
    (fun _ ha hn hm => hnew _ (ht.keeps_of_update hr ha) ha (ha.count_lt hf hn hm))
    fun _ ha => hold _ (ht.keeps_of_update hr ha) ha

/-- Rows are taken out of a work list until there are none left, or the run is stopped. -/
theorem drain {w : WorkList} {next : Routine RowIndex} {handle : RowIndex → β → Routine β} {fuel : Nat}
    (hnext : Routine.TakesFrom w next)
    (hstep : ∀ r₀ row b, Within (fun r => P r ∧ q.Advances r₀ r) E (handle row b))
    (hwaiting : ∀ r, P r → q.waiting (K.card ^ 3) w r < fuel) (b : β) :
    Within P E (Routine.drain (c.whileRunning next) handle fuel b) := by
  intro r hr
  refine Routine.drain_ends (μ := q.waiting (K.card ^ 3) w) (fun r hr => ?_) (fun row b r hr => ?_) _ b hr
    (hwaiting r hr)
  · refine Context.whileRunning_ends hnext (fun polls stopped => ⟨?_, fun h => absurd rfl h⟩)
      fun polls stopped row taken hq => ⟨?_, Lane.waiting_lt hq⟩
    · exact ht.keeps_of_eq hr rfl rfl ⟨rfl, rfl, rfl, rfl, rfl⟩
    · exact ht.keeps r _ hr (fun _ _ => .inl)
        ((Lane.Advances.of_takes hq).trans (.of_update_eq (fun _ _ => id) rfl)) ⟨rfl, rfl, rfl, rfl, rfl⟩
  · exact (hstep r row b r ⟨hr, .refl q r⟩).mono (fun _ r' h => ⟨h.1, h.2.waiting_le (ht.size_le h.1) w⟩)
      fun _ _ => id

/-! ## Rules -/

/-- Rules hand on facts over `K` only. -/
theorem accepts {view : View Run} {Q : RowIndex → Triple → Prop} (hv : view.Shows P (· ∈ K) Q)
    {consume : Triple → Routine Unit} {i : IndexedRule} {rule : Nat} (hi : c.rules.rules[rule]? = some i)
    (hc : ∀ t, t.Over (· ∈ K) → Within P E (consume t)) :
    RuleIndex.AcceptsOver (· ∈ K) P E view (fun _ head => consume head) i rule :=
  RuleIndex.acceptsOver_of_within hv (ht.names.constant _ i hi) fun _ => hc

/-- A view of the facts by the steady classes. -/
theorem shows {view : View Run} (hT : view.table = Run.table)
    (hclasses : ∀ r, view.classes r = some r.steady ∨ view.classes r = none) :
    view.Shows P (· ∈ K) fun _ _ => True := by
  refine ⟨fun r row t hr hf => ⟨trivial, ht.fact r hr row t (hT ▸ hf)⟩, fun r id hr hid => ?_⟩
  rcases hclasses r with he | he
  · rw [he]
    exact (ht.steady r hr).normalize_mem id hid
  · rwa [he]

omit ht in
theorem steady?_eq (r : Run) : c.steady? r = some r.steady ∨ c.steady? r = none :=
  ite_eq_or_eq _ _ _

theorem applyToPositive {view : View Run} (hv : view.Shows P (· ∈ K) fun _ _ => True)
    (ho : view.observe = none) {scope : Scope} {consume : Triple → Routine Unit} (h : t.Over (· ∈ K))
    (hc : ∀ t, t.Over (· ∈ K) → Within P E (consume t)) :
    Within P E (c.rules.applyToPositive view row t scope fun _ head => consume head) :=
  RuleIndex.applyToPositive_ends ht.breaks ho hv trivial h fun _ _ hi =>
    ht.accepts hv (RuleIndex.mem_inScope.mp hi).1 hc

theorem applyToNegation {view : View Run} (hv : view.Shows P (· ∈ K) fun _ _ => True)
    (ho : view.observe = none) {scope : Scope} {consume : Triple → Routine Unit} (h : t.Over (· ∈ K))
    (hc : ∀ t, t.Over (· ∈ K) → Within P E (consume t)) :
    Within P E (c.rules.applyToNegation view t scope fun _ head => consume head) :=
  RuleIndex.applyToNegation_ends ht.breaks ho hv h fun _ _ hi =>
    ht.accepts hv (RuleIndex.mem_inScope.mp hi).1 hc

theorem evaluateRule {view : View Run} (hv : view.Shows P (· ∈ K) fun _ _ => True)
    (ho : view.observe = none) {rule : Nat} {consume : Triple → Routine Unit}
    (hc : ∀ t, t.Over (· ∈ K) → Within P E (consume t)) :
    Within P E (c.rules.evaluateRule view rule fun _ head => consume head) :=
  RuleIndex.evaluateRule_ends ht.breaks ho hv fun _ hi => ht.accepts hv hi hc

end Lane.Bears

/-! ## A rule that merges what it finds -/

/-- Whatever properties have one value at most. -/
def functional : Rule where
  head := [⟨.var 0, .const 2, .var 1⟩]
  body := [.positive ⟨.var 2, .var 3, .var 0⟩, .positive ⟨.var 2, .var 3, .var 1⟩]
  level := 0
  names := ["y", "z", "x", "p"]

theorem parsed_functional : functional.Parsed := by
  obtain ⟨d, hd⟩ := Dictionary.exists_ids (l := [.rdfType, .owlSameAs, .owlNothing]) (by decide)
  have hsameAs := hd 1 .owlSameAs rfl
  rw [Resource.owlSameAs] at hsameAs
  refine ⟨"?y sameAs ?z :- ?x ?p ?y , ?x ?p ?z", d, d, ?_⟩
  cbv
  grind

/-- An index of the rule `functional`. -/
def functionalIndex : RuleIndex := (RuleIndex.build [functional] false).toOption.getD .empty

/-- A table of given facts has no wildcards in it if they have none. -/
theorem Table.get_ne_zero_of_addAll {facts : List Triple} {set : Status} (hd : facts.Nodup)
    (h : ∀ t ∈ facts, ∀ id ∈ t.toList, id ≠ 0)
    (hf : (facts.foldl (fun T t => (T.add t set).2) empty).fact? row = some t) (p : Position) :
    t.get p ≠ 0 := by
  have hmem := mem_facts.mpr ⟨row, hf⟩
  rw [facts_addAll (t := .empty) facts set hd] at hmem
  exact h t hmem _ (Three.mem_toList.mpr ⟨p, rfl⟩)

end Entail
