import Entail.Maintenance.Search
import Entail.Proofs.Table.History
import Entail.Proofs.Termination.Steps

/-!
# The search for proofs comes to an end

A search examines a fact only when its row is newly marked as examined, and queues a fact as proved
only when its row is newly marked as proved. All ids are from the finite set of those that the store
and the rules mention, so there are only so many rows to mark (`Search.Bears`). Every turn of
`Search.conclude` marks another row as examined or leaves one examination less under way
(`Search.conclude_ends`).
-/

namespace Entail

variable {c : Context} {K : Finset Nat} {r r' : Run} {α : Type}
  {P : Run → Prop} {E : Failure → Run → Prop}

/-! ## What examinations hold -/

/-- What a lead on a fact goes back to is in the table or in the fact. -/
def Lead.Holds (r : Run) (t : Triple) : Lead → Prop
  | .mention _ => True
  | .replacement id => id ∈ t.toList
  | .premise row u => r.table.fact? row = some u

/-- An examination is one of a fact of the table, with leads on it. -/
structure Examination.Holds (r : Run) (e : Examination) : Prop where
  fact : r.table.fact? e.row = some e.fact
  leads (lead : Lead) (h : lead ∈ e.leads) : lead.Holds r e.fact

theorem Lead.Holds.mono {t : Triple} {lead : Lead} (h : lead.Holds r t)
    (hf : ∀ row t, r.table.fact? row = some t → r'.table.fact? row = some t) : lead.Holds r' t := by
  cases lead with
  | mention row => trivial
  | replacement id => exact h
  | premise row u => exact hf row u h

theorem Examination.Holds.mono {e : Examination} (h : e.Holds r)
    (hf : ∀ row t, r.table.fact? row = some t → r'.table.fact? row = some t) : e.Holds r' :=
  ⟨hf _ _ h.fact, fun lead hlead => (h.leads lead hlead).mono hf⟩

namespace Search

/-- `P` does not notice either that ids of `K` are merged in the proving classes. -/
structure Bears (c : Context) (K : Finset Nat) (P : Run → Prop) (E : Failure → Run → Prop) : Prop extends
    Lane.proved.Bears c K P E where
  proving (r : Run) (h : P r) : r.proving.Confined K
  merges (r : Run) (proving : Classes) (journal : Array Entry) (heard : Nat) (stopped : Bool) (h : P r)
    (hp : proving.Confined K) : P { r with proving, journal, heard, stopped }

namespace Bears

variable (ht : Bears c K P E) {t : Triple}

include ht

theorem after (r₀ : Run) : Bears c K (fun r => P r ∧ Lane.proved.Advances r₀ r) E :=
  ⟨ht.toBears.after r₀, fun r h => ht.proving r h.1, fun r proving journal heard stopped h hp =>
    ⟨ht.merges r proving journal heard stopped h.1 hp, h.2.trans (.of_update_eq (fun _ _ => id) rfl)⟩⟩

theorem with_fact (row : RowIndex) (t : Triple) :
    Bears c K (fun r => P r ∧ r.table.fact? row = some t) E :=
  ⟨ht.toBears.with_fact row t, fun r h => ht.proving r h.1, fun r proving journal heard stopped h hp =>
    ⟨ht.merges r proving journal heard stopped h.1 hp, h.2⟩⟩

theorem mergeProving {source target : Nat} (hs : source ∈ K) (htarget : target ∈ K)
    {merge same : Routine α} (hmerge : Within P E merge) (hsame : Within P E same) :
    Within P E (Routine.mergeProving source target >>= fun merged =>
      if merged then c.announce (.constantMerged source target) >>= fun _ => merge else same) := by
  intro r hr
  refine Ends.bind_iff.mpr ?_
  rw [Ends, Routine.mergeProving]
  cases hm : r.proving.merge? source target with
  | none => exact ht.breaks r _ hr trivial
  | some p =>
    obtain ⟨merged, proving⟩ := p
    obtain ⟨hproving, hcount⟩ := (ht.proving r hr).merge? ht.names.nonzero hs htarget hm
    dsimp only
    cases merged with
    | false =>
      rw [if_neg Bool.false_ne_true] at hcount
      subst hcount
      exact hsame _ hr
    | true =>
      exact Ends.bind_iff.mpr (Context.announce_frame fun journal heard stopped _ =>
        hmerge _ (ht.merges r proving journal heard stopped hr hproving))

/-- A fact is over `K` in the normal form that it has among the facts proved, as well. -/
theorem bind_proved {k : Triple → Routine α} (h : t.Over (· ∈ K))
    (hk : ∀ t, t.Over (· ∈ K) → Within P E (k t)) :
    Within P E (Routine.reads (fun r => r.proving.normalizeTriple t) >>= k) :=
  .bind_of (fun r hr => ⟨hr, (ht.proving r hr).normalizeTriple h⟩) hk

/-- A view of the facts by the proving classes. -/
theorem shows_proving {view : View Run} (hT : view.table = Run.table)
    (hclasses : ∀ r, view.classes r = some r.proving ∨ view.classes r = none) :
    view.Shows P (· ∈ K) fun _ _ => True := by
  refine ⟨fun r row t hr hf => ⟨trivial, ht.fact r hr row t (hT ▸ hf)⟩, fun r id hr hid => ?_⟩
  rcases hclasses r with he | he
  · rw [he]
    exact (ht.proving r hr).normalize_mem id hid
  · rwa [he]

omit ht in
theorem proving?_eq (r : Run) : c.proving? r = some r.proving ∨ c.proving? r = none :=
  ite_eq_or_eq _ _ _

end Bears

/-! ## Recording what is proved -/

section routines

variable {task : DeletionTask} {row : RowIndex} {t : Triple} (ht : Bears c K P E)

include ht

theorem record_bears (h : t.Over (· ∈ K)) : Within P E (record c t) := by
  refine fun r hr => Ends.bind_iff.mpr ((ht.rowOf_ends hr h).mono (fun row r₁ h₁ => ?_) fun _ _ => id)
  refine Ends.bind_iff.mpr (Ends.ite (fun _ => ?_) fun _ => ?_)
  · exact ht.enter_ends Bits.isBit_provedNew h₁.1 h₁.2.2 (fun _ hr' _ _ => hr') fun _ hr' _ => hr'
  · exact (ht.add .level row _).bind (fun _ => .pure _) r₁ h₁.1

theorem report_bears (recorded : Recorded) : Within P E (report c t recorded) := by
  unfold report
  split
  · exact ht.announce rfl
  · exact ht.announce rfl
  · exact .pure ()

theorem proveNormal_bears (h : t.Over (· ∈ K)) : Within P E (proveNormal c t) :=
  ht.bind_proved h fun _ hn => .bind (record_bears ht hn) fun _ => report_bears ht _

theorem renormalize_bears (row : RowIndex) : Within P E (renormalize c row) := by
  refine .bind (Routine.reads_within _) fun _ => .ite (fun _ => ?_) fun _ => .pure ()
  refine ht.bind_factOf fun t h => ht.bind_proved h fun normal hn => .ite (fun _ => ?_) fun _ => .pure ()
  refine .bind (ht.add .level row _) fun _ => .ite (fun _ => ?_) fun _ => .pure ()
  exact .bind (record_bears ht hn) fun _ => report_bears ht _

theorem absorb_bears (source : Nat) : Within P E (absorb c task source) := by
  refine .bind ?_ fun _ => .bind (Routine.reads_within _) fun rules => ?_
  · exact .forM fun p _ => .bind (Routine.reads_within _) fun rows =>
      .forM fun row _ => renormalize_bears ht row
  · exact .forM fun rule _ => ht.evaluateRule (ht.shows_proving rfl fun _ => .inl rfl) rfl
      fun _ => proveNormal_bears ht

theorem unite_bears {first second : Nat} (hfirst : first ∈ K) (hsecond : second ∈ K) :
    Within P E (unite c task first second) := by
  obtain ⟨hsource, htarget⟩ := Dictionary.mergeDirection_mem c.dictionary c.mode.equality.uniqueNames
    hfirst hsecond
  refine ht.mergeProving hsource htarget (.bind (absorb_bears ht _) fun _ => ?_) ?_
  all_goals
    refine .ite (fun _ => .bind (ht.announce rfl) fun _ => ?_) fun _ => .pure _
    obtain ⟨htype, -, hnothing⟩ := ht.names.vocabulary
    refine .bind_of (A := fun nothing : Triple => nothing.Over (· ∈ K)) (fun r hr => ⟨hr, ?_⟩)
      fun _ => proveNormal_bears ht
    have hp := ht.proving r hr
    exact Triple.over_mk htarget (hp.normalize_mem _ htype) (hp.normalize_mem _ hnothing)

theorem prove_bears (h : t.Over (· ∈ K)) : Within P E (prove c task t) := by
  refine .bind (Routine.reads_within _) fun normal => .ite (fun _ => ?_) fun _ => .pure _
  refine .bind (record_bears ht h) fun recorded => .bind (report_bears ht recorded) fun _ => ?_
  exact .ite (fun _ => unite_bears ht (h .subject) (h .object)) fun _ => .pure _

theorem allProved_bears : Within P E (allProved c row t) := by
  refine .bind (Routine.reads_within _) fun classes => ?_
  cases classes with
  | none => exact Routine.reads_within _
  | some classes =>
    refine .bind (Routine.reads_within _) fun flags => .ite (fun _ => .pure _) fun _ => ?_
    refine .ite (fun _ => .pure _) fun _ => .bind (Routine.reads_within _) fun proved => ?_
    exact .ite (fun _ => .bind (.discard (ht.add .update row _)) fun _ => .pure _) fun _ => .pure _

theorem noneProved_bears : Within P E (noneProved c row) := by
  refine .bind (Routine.reads_within _) fun classes => ?_
  cases classes with
  | none => exact Routine.reads_within _
  | some classes =>
    refine .bind (Routine.reads_within _) fun flags => .ite (fun _ => .pure _) fun _ => ?_
    exact ht.bind_factOf fun t _ => Routine.reads_within _

/-! ## What needs no search -/

theorem queueProved_ends {u : Triple} {fromAsserted fromDelayed fromRule : Bool} (hr : P r)
    (hf : r.table.fact? row = some u) :
    Ends (queueProved c row t fromAsserted fromDelayed fromRule) r (fun _ => P) E :=
  ht.enter_ends Bits.isBit_provedNew hr hf (fun r' hr' _ _ => ht.announce rfl r' hr') fun _ hr' _ => hr'

theorem queueIfProved_bears {byRule : Routine Bool} {proved : Routine (RowIndex × Triple)}
    (hbyRule : Within P E byRule)
    (hproved : ∀ r, P r → Ends proved r (fun p r' => P r' ∧ ∃ u, r'.table.fact? p.1 = some u) E) :
    Within P E (queueIfProved c row byRule proved) := by
  refine .bind (Routine.reads_within _) fun _ => .bind (Routine.reads_within _) fun _ => ?_
  refine .ite (fun _ => .bind (.pure _) fun _ => ?_) fun _ => .bind hbyRule fun _ => ?_
  all_goals
    refine .ite (fun _ r hr => ?_) fun _ => .pure ()
    refine Ends.bind_iff.mpr ((hproved r hr).mono (fun p r₁ h₁ => ?_) fun _ _ => id)
    obtain ⟨u, hu⟩ := h₁.2
    exact queueProved_ends ht h₁.1 hu

theorem queueReflexive_bears (classes : Classes) (n : Nat) : Within P E (queueReflexive c classes n) := by
  refine .forM fun member _ => ?_
  refine .bind_of (A := fun asserted : Bool => asserted = true → member ∈ K)
    (fun r hr => ⟨hr, fun h => ?_⟩)
    fun asserted hasserted => .ite (fun h => ?_) fun _ => .pure _
  · -- a fact mentions the member
    obtain ⟨row, hrow, -⟩ := List.any_eq_true.mp h
    obtain ⟨fact, hf, p, rfl⟩ := Table.mem_rowsMentioning.mp hrow
    exact ht.fact r hr row fact hf p
  · refine .bind_of (A := fun t : Triple => t.Over (· ∈ K)) (fun r hr => ⟨hr, ?_⟩) fun t ht' r hr => ?_
    · exact Triple.over_reflexive ht.names.vocabulary.2.1
        ((ht.proving r hr).normalize_mem _ (hasserted h))
    · refine Ends.bind_iff.mpr ((ht.rowOf_ends hr ht').mono (fun row r₁ h₁ => ?_) fun _ _ => id)
      exact queueProved_ends ht h₁.1 h₁.2.2

theorem queueCombination_bears (hrow : ∀ r, P r → r.table.fact? row = some t) (h : t.Over (· ∈ K)) :
    Within P E (queueCombination c task row t) := by
  refine queueIfProved_bears ht (.pure _) fun r hr => ?_
  refine Ends.bind_iff.mpr (Ends.ite (fun _ => ⟨hr, t, hrow r hr⟩) fun _ => ?_)
  refine Ends.bind_iff.mpr ((ht.rowOf_ends hr ((ht.proving r hr).normalizeTriple h)).mono
    (fun row r₁ h₁ => ⟨h₁.1, _, h₁.2.2⟩) fun _ _ => id)

/-- A fact that is found in the table is queued if it needs no search. -/
theorem queueFound_bears (u : Triple) : Within P E
    (Routine.reads (fun r => r.table.index? u) >>= fun found =>
    match found with
    | none => pure ()
    | some row => queueCombination c task row u) := by
  intro r hr
  rw [Ends.bind_iff, Ends, Routine.reads]
  dsimp only
  cases hfound : r.table.index? u with
  | none => exact hr
  | some row =>
    have hf := Table.index?_eq_some_iff.mp hfound
    exact (queueCombination_bears (ht.with_fact row u) (fun _ h => h.2) (ht.fact r hr row u hf) r
      ⟨hr, hf⟩).mono (fun _ _ h => h.1) fun _ _ => id

theorem queueObvious_bears (h : t.Over (· ∈ K)) (hrow : ∀ r, P r → r.table.fact? row = some t) :
    Within P E (queueObvious c task row t) := by
  refine .bind (Routine.reads_within _) fun classes => ?_
  cases classes with
  | none =>
    exact queueIfProved_bears ht (RuleIndex.provedNonrecursively_within ht.breaks rfl t task.scope)
      fun r hr => ⟨hr, t, hrow r hr⟩
  | some classes =>
    refine .ite (fun _ => .bind (queueReflexive_bears ht classes _) fun _ => ?_) fun _ => ?_
    all_goals
      refine .forM fun p hmem => ?_
      obtain ⟨u, i⟩ := p
      refine .ite (fun hi =>
        .bind_of (A := (· = some row)) (fun r hr => ⟨hr, rfl⟩) fun found hfound => ?_)
        fun _ => queueFound_bears ht u
      -- the first combination is the fact itself
      subst hi hfound
      obtain rfl : t = u := by
        have hget := List.mem_zipIdx_iff_getElem?.mp hmem
        simpa [Classes.combinations, Classes.members] using hget
      exact queueCombination_bears ht hrow h

/-! ## What follows -/

theorem equate_bears (h : t.Over (· ∈ K)) : Within P E (equate c task row t) := by
  refine ht.bind_proved h fun normal hn => .ite (fun _ => ?_) fun _ => .ite (fun _ => ?_) fun _ => ?_
  · exact .bind (.discard (ht.add .level row _)) fun _ =>
      .bind (.discard (record_bears ht hn)) fun _ => .pure _
  · exact .bind (unite_bears ht (h .subject) (h .object)) fun _ => .pure _
  · refine .bind (.forM fun n hn => .bind (ht.checkReflexivity n 1) fun _ => .ite (fun _ => ?_)
      fun _ => .pure _) fun _ => .pure _
    obtain ⟨p, rfl⟩ := Three.mem_toList.mp hn
    exact .discard (record_bears ht (Triple.over_reflexive ht.names.vocabulary.2.1 (h p)))

theorem forward_bears : Within P E (forward c task row) := by
  refine .bind (Routine.reads_within _) fun fresh => .ite (fun _ => ?_) fun _ => .pure _
  refine .bind (.discard (ht.add .level row _)) fun _ => ht.bind_factOf fun t h => ?_
  refine .ite (fun _ => .bind (equate_bears ht h) fun _ => ?_) fun _ => .bind (.pure _) fun _ => ?_
  all_goals
    refine .ite (fun _ => ?_) fun _ => .pure _
    exact ht.applyToPositive (ht.shows_proving rfl Bears.proving?_eq) rfl h fun _ => prove_bears ht

theorem saturate_bears (h : t.Over (· ∈ K)) (hrow : ∀ r, P r → r.table.fact? row = some t)
    (hwaiting : ∀ r, P r → Lane.proved.waiting (K.card ^ 3) .proved r < task.budget) :
    Within P E (saturate c task row t) := by
  refine .bind (queueObvious_bears ht h hrow) fun _ => .bind (Routine.reads_within _) fun _ => ?_
  refine .ite (fun _ => .pure _) fun _ => .bind ?_ fun _ => ?_
  · exact ht.drain (Routine.takesFrom_dequeue _) (fun r₀ _ _ => forward_bears (ht.after r₀)) hwaiting _
  · exact .ite (fun _ => allProved_bears ht) fun _ => .pure _

/-! ## Leads -/

/-- A lead yields the fact of a row, one that is there already or a reflexive one. -/
theorem follow_ends {lead : Lead} (hr : P r) (h : t.Over (· ∈ K)) (hlead : lead.Holds r t) :
    Ends (follow t lead) r
      (fun found r' => P r' ∧ ∀ p, found = some p → r'.table.fact? p.1 = some p.2) E := by
  cases lead with
  | mention row =>
    refine Ends.bind_iff.mpr (Ends.ite (fun _ => ?_) fun _ => ⟨hr, nofun⟩)
    refine Ends.bind_iff.mpr ((ht.factOf_ends hr).mono (fun u r₁ h₁ => ⟨h₁.1, fun p hp => ?_⟩)
      fun _ _ => id)
    cases hp
    exact h₁.2
  | replacement n =>
    obtain ⟨p, rfl⟩ := Three.mem_toList.mp hlead
    refine Ends.bind_iff.mpr (Ends.ite (fun _ => ⟨hr, nofun⟩) fun _ => ?_)
    refine Ends.bind_iff.mpr ((ht.checkReflexivity _ 2 r hr).mono (fun isNew r₁ hr₁ => ?_) fun _ _ => id)
    refine .ite (fun _ => ⟨hr₁, nofun⟩) fun _ => ?_
    refine Ends.bind_iff.mpr
      ((ht.rowOf_ends hr₁ (Triple.over_reflexive ht.names.vocabulary.2.1 (h p))).mono
      (fun row r₂ h₂ => ?_) fun _ _ => id)
    refine Ends.bind_iff.mpr (Ends.ite (fun _ => ⟨h₂.1, nofun⟩) fun _ => ⟨h₂.1, fun q hq => ?_⟩)
    cases hq
    exact h₂.2.2
  | premise row u =>
    refine ⟨hr, fun p hp => ?_⟩
    cases hp
    exact hlead

theorem premises_ends (hr : P r) (h : t.Over (· ∈ K)) (head : HeadRef) : Ends (premises c t head) r
    (fun leads r' => P r' ∧ ∀ lead ∈ leads, lead.Holds r' t) E := by
  refine Ends.bind_iff.mpr ((ht.announce rfl r hr).mono (fun _ r₁ hr₁ => ?_) fun _ _ => id)
  -- looking for support does not change the run
  have hshows : (c.view supports).Shows (· = r₁) (· ∈ K) fun row u => r₁.table.fact? row = some u := by
    have hall : (c.view supports).Shows P (· ∈ K) fun _ _ => True := ht.shows rfl Lane.Bears.steady?_eq
    refine ⟨?_, ?_⟩
    · rintro _ row u rfl hf
      exact ⟨hf, (hall.fact _ row u hr₁ hf).2⟩
    · rintro _ n rfl hn
      exact hall.normal _ n hr₁ hn
  refine Ends.bind_iff.mpr ((RuleIndex.supportingInstances_ends (E := E) ?_ rfl hshows h rfl).mono
    (fun found r₂ hfound => ?_) fun _ _ => id)
  · rintro _ f rfl hf
    exact ht.breaks _ f hr₁ hf
  · obtain ⟨rfl, hfound⟩ := hfound
    refine ⟨hr₁, fun lead hlead => ?_⟩
    obtain ⟨m, hm, hlead⟩ := List.mem_filterMap.mp hlead
    obtain ⟨way, hway, hm⟩ := List.mem_flatten.mp hm
    split at hlead
    · cases hlead
      exact hfound way hway m hm
    · cases hlead

omit ht in
theorem consult_holds {source : Source} : ∀ lead ∈ (consult c task t r source).2, lead.Holds r t := by
  intro lead hlead
  cases source with
  | mentions p =>
    obtain ⟨row, -, rfl⟩ := List.mem_map.mp hlead
    trivial
  | replacements =>
    obtain ⟨n, hn, rfl⟩ := List.mem_map.mp hlead
    exact hn
  | rules pattern => cases hlead

/-- A row that is taken up is newly marked as examined. -/
theorem takeUp_ends (hr : P r) : Ends (takeUp row) r (fun fresh r' => P r' ∧ Lane.proved.Advances r r' ∧
    (fresh = true → Lane.proved.marked Flag.Level.checked r row = false ∧
      Lane.proved.marked Flag.Level.checked r' row = true)) E := by
  refine Ends.bind_iff.mpr (Ends.ite (fun _ => ⟨hr, .refl _ r, nofun⟩) fun _ => ?_)
  refine Layer.add_ends (l := .level) (fun m hm => ?_) fun f => ht.breaks r f hr
  have ha := Lane.Advances.of_marks (q := .proved) hm
  refine ⟨ht.keeps_of_update hr ha, ha, fun hfresh => ?_⟩
  rw [Bits.isBit_checked.or_bne, Bool.not_eq_true'] at hfresh
  refine ⟨hfresh, ?_⟩
  show Bits.any (m.flags row) _ = true
  simp [hm.any, Bits.isBit_checked.any_self]

theorem skip_bears : Within P E (skip c t) :=
  .bind (ht.announce rfl) fun _ => ht.announce rfl

end routines

/-! ## Examinations -/

/-- From `r₀` on a search has looked for a proof of each of the given rows once, and not of those that
were marked as examined then. All ids are from `K`, and the examinations hold facts of the table. -/
structure Underway (K : Finset Nat) (r₀ : Run) (rows : List RowIndex) (r : Run) : Prop where
  fact (row : RowIndex) (t : Triple) (hf : r.table.fact? row = some t) : t.Over (· ∈ K)
  steady : r.steady.Confined K
  proving : r.proving.Confined K
  holds (e : Examination) (h : e ∈ r.examinations) : e.Holds r
  waiting_le : Lane.proved.waiting (K.card ^ 3) .proved r ≤ Lane.proved.waiting (K.card ^ 3) .proved r₀
  keeps (row : RowIndex) (h : Lane.proved.marked Flag.Level.checked r₀ row = true) :
    Lane.proved.marked Flag.Level.checked r row = true
  nodup : rows.Nodup
  unmarked (row : RowIndex) (h : row ∈ rows) : Lane.proved.marked Flag.Level.checked r₀ row = false
  marked (row : RowIndex) (h : row ∈ rows) : Lane.proved.marked Flag.Level.checked r row = true

/-- A check is under way, with the given examinations, and has looked for a proof of the given rows. -/
structure Amid (K : Finset Nat) (r₀ : Run) (l : List Examination) (rows : List RowIndex) (r : Run) : Prop
    extends Underway K r₀ rows r where
  examinations : r.examinations = l
  checked : r.checked.toList = rows

/-- A check breaks off, but not for want of steps. -/
def Breaks (K : Finset Nat) (r₀ : Run) (f : Failure) (r : Run) : Prop :=
  f ≠ .exhausted ∧ Underway K r₀ r.checked.toList r

/-- The fact in a row is to be examined: it was not examined before `r₁`. -/
structure Fresh (r₁ r : Run) (row : RowIndex) (t : Triple) : Prop where
  fact : r.table.fact? row = some t
  unmarked : Lane.proved.marked Flag.Level.checked r₁ row = false
  marked : Lane.proved.marked Flag.Level.checked r row = true
  unchecked : row ∉ r.checked.toList

theorem Fresh.mono {r₁ r₂ : Run} {row : RowIndex} {t : Triple} (h : Fresh r₂ r row t)
    (hm : Lane.proved.marked Flag.Level.checked r₁ row = true →
      Lane.proved.marked Flag.Level.checked r₂ row = true) : Fresh r₁ r row t :=
  ⟨h.fact, Bool.eq_false_iff.mpr fun h₁ => Bool.eq_false_iff.mp h.unmarked (hm h₁), h.marked, h.unchecked⟩

/-- A bound on the turns that a search still takes. -/
def turns (K : Finset Nat) (r : Run) : Nat :=
  2 * (K.card ^ 3 - Lane.proved.count Flag.Level.checked r) + r.examinations.length

section underway

variable {task : DeletionTask} {r₀ r₁ : Run} {row : RowIndex} {t : Triple} {l outer : List Examination}
  {rows : List RowIndex}

theorem Underway.size_le (h : Underway K r₀ rows r) : r.table.size ≤ K.card ^ 3 :=
    Table.size_le_of_over h.fact

theorem Underway.with_examinations (h : Underway K r₀ rows r) (hl : ∀ e ∈ l, e.Holds r) :
    Underway K r₀ rows { r with examinations := l } :=
  { h with holds := fun e he => (hl e he).mono fun _ _ => id }

/-- What a search does leaves the examinations and what was examined alone. -/
theorem Underway.proceed (h : Underway K r₀ rows r)
    (hf : ∀ row t, r'.table.fact? row = some t → r.table.fact? row = some t ∨ t.Over (· ∈ K))
    (ha : Lane.proved.Advances r r') (hs : r.Agrees r') : Underway K r₀ rows r' := by
  have hfact : ∀ row t, r'.table.fact? row = some t → t.Over (· ∈ K) := fun row t hrow =>
    (hf row t hrow).elim (h.fact row t) id
  refine ⟨hfact, hs.steady ▸ h.steady, hs.proving ▸ h.proving, fun e he => ?_,
    (ha.waiting_le (Table.size_le_of_over hfact) _).trans h.waiting_le,
    fun row hrow => ha.marked _ row (h.keeps row hrow), h.nodup, h.unmarked,
    fun row hrow => ha.marked _ row (h.marked row hrow)⟩
  rw [hs.examinations] at he
  exact (h.holds e he).mono ha.fact

namespace Amid

/-- A check does not lose what it has looked at while it is under way. -/
theorem bears_of (hc : c.Names K)
    (hE : ∀ f r, f ≠ .exhausted → Amid K r₀ l rows r → E f r) : Bears c K (Amid K r₀ l rows) E where
  names := hc
  fact _ h := h.fact
  steady _ h := h.steady
  proving _ h := h.proving
  breaks r f h hf := hE f r (fun he => (he ▸ hf : Failure.exhausted.Broken)) h
  keeps _ _ h hf ha hs := ⟨h.proceed hf ha hs, hs.examinations.trans h.examinations,
    (congrArg Array.toList hs.checked).trans h.checked⟩
  merges _ _ _ _ _ h hp :=
    ⟨{ h.toUnderway with
      proving := hp
      holds := fun e he => (h.holds e he).mono fun _ _ => id }, h.examinations, h.checked⟩

theorem breaks {f : Failure} (hf : f ≠ .exhausted) (h : Amid K r₀ l rows r) : Breaks K r₀ f r :=
  ⟨hf, h.checked ▸ h.toUnderway⟩

theorem bears (hc : c.Names K) (r₀ : Run) (l : List Examination) (rows : List RowIndex) :
    Bears c K (Amid K r₀ l rows) (Breaks K r₀) :=
  bears_of hc fun _ _ => breaks

/-- The innermost examination is replaced by what is left of it. -/
theorem keep {e e' : Examination} (h : Amid K r₀ (e :: outer) rows r) (he : e'.Holds r) :
    Amid K r₀ (e' :: outer) rows { r with examinations := e' :: r.examinations.tail } := by
  have htail : r.examinations.tail = outer := by rw [h.examinations, List.tail_cons]
  refine ⟨h.with_examinations fun e₁ he₁ => ?_, by rw [htail], h.checked⟩
  rcases List.mem_cons.mp he₁ with rfl | he₁
  · exact he
  · exact h.holds e₁ (List.mem_of_mem_tail he₁)

theorem keep_ends {e e' : Examination} (h : Amid K r₀ (e :: outer) rows r) (he : e'.Holds r) :
    Ends (Search.keep e') r (fun _ r' => Amid K r₀ (e' :: outer) rows r' ∧ Lane.proved.Advances r r')
      (Breaks K r₀) :=
  Ends.modify_iff.mpr ⟨h.keep he, .of_update_eq (fun _ _ => id) rfl⟩

/-- Another examination is under way. -/
theorem begin {e : Examination} (h : Amid K r₀ l rows r) (he : e.Holds r) :
    Amid K r₀ (e :: l) rows { r with examinations := e :: r.examinations } := by
  refine ⟨h.with_examinations fun e₁ he₁ => ?_, by rw [h.examinations], h.checked⟩
  rcases List.mem_cons.mp he₁ with rfl | he₁
  · exact he
  · exact h.holds e₁ he₁

/-- The innermost examination is over. -/
theorem close {e : Examination} (h : Amid K r₀ (e :: outer) rows r) :
    Amid K r₀ outer rows { r with examinations := outer } :=
  ⟨h.with_examinations fun e' he => h.holds e' (h.examinations ▸ List.mem_cons_of_mem e he),
    rfl, h.checked⟩

/-- A proof of a fresh fact is looked for. -/
theorem push (h : Amid K r₀ l rows r) (hrow : Fresh r₀ r row t) :
    Amid K r₀ l (rows ++ [row]) { r with checked := r.checked.push row } := by
  have hmem : ∀ {other : RowIndex}, other ∈ rows ++ [row] → other ∈ rows ∨ other = row := fun ho =>
    (List.mem_append.mp ho).imp_right List.mem_singleton.mp
  refine ⟨{ h.toUnderway with
    holds := fun e he => (h.holds e he).mono fun _ _ => id
    nodup := ?_
    unmarked := fun other ho => ?_
    marked := fun other ho => ?_ }, h.examinations, by rw [Array.toList_push, h.checked]⟩
  · refine List.nodup_append.mpr ⟨h.nodup, List.nodup_singleton _, fun other ho other' ho' he => ?_⟩
    rw [he, List.mem_singleton.mp ho', ← h.checked] at ho
    exact hrow.unchecked ho
  · rcases hmem ho with ho | rfl
    · exact h.unmarked other ho
    · exact hrow.unmarked
  · rcases hmem ho with ho | rfl
    · exact h.marked other ho
    · exact hrow.marked

end Amid

variable (hc : c.Names K)

include hc

/-- A row that is taken up is fresh. -/
theorem takeUp_fresh (hr : Amid K r₀ l rows r) (hf : r.table.fact? row = some t) :
    Ends (takeUp row) r (fun fresh r' => Amid K r₀ l rows r' ∧ Lane.proved.Advances r r' ∧
      (fresh = true → Fresh r r' row t)) (Breaks K r₀) := by
  refine (takeUp_ends (Amid.bears hc r₀ l rows) hr).mono (fun fresh r' h => ?_) fun _ _ => id
  obtain ⟨hr', ha, hfresh⟩ := h
  refine ⟨hr', ha, fun he => ?_⟩
  obtain ⟨hn, hm⟩ := hfresh he
  refine ⟨ha.fact row t hf, hn, hm, fun hmem => ?_⟩
  -- what the check has looked at is marked
  rw [hr'.checked] at hmem
  rw [hr.marked row hmem] at hn
  cases hn

/-- An examination goes on until it yields a fresh row, or is over. -/
theorem explore_ends (e : Examination) {e₀ : Examination} (hr : Amid K r₀ (e₀ :: outer) rows r)
    (ha : Lane.proved.Advances r₁ r) (he : e.Holds r) :
    Ends (explore c task e) r (fun turn r' => (∃ e', Amid K r₀ (e' :: outer) rows r') ∧
      Lane.proved.Advances r₁ r' ∧ ∀ row t, turn = .descend row t → Fresh r₁ r' row t) (Breaks K r₀) := by
  have hover : e.fact.Over (· ∈ K) := hr.fact _ _ he.fact
  fun_induction explore c task e generalizing e₀ r with
  | case1 row t proved lead leads heads sources ih =>
    let rest : Examination := ⟨row, t, proved, leads, heads, sources⟩
    have hrest : rest.Holds r := ⟨he.fact, fun lead hlead => he.leads lead (List.mem_cons_of_mem _ hlead)⟩
    have hb := Amid.bears hc r₀ (rest :: outer) rows
    refine Ends.bind_iff.mpr ((hr.keep_ends hrest).mono (fun _ r₂ h₂ => ?_) fun _ _ => id)
    have hlead : lead.Holds r₂ t := (he.leads lead List.mem_cons_self).mono h₂.2.fact
    refine Ends.bind_iff.mpr ((follow_ends (hb.after r) h₂ hover hlead).mono (fun found r₃ h₃ => ?_)
      fun _ _ => id)
    obtain ⟨⟨hr₃, ha₃⟩, hfound⟩ := h₃
    cases found with
    | none => exact ih hr₃ (ha.trans ha₃) (hrest.mono ha₃.fact) hover
    | some found =>
      obtain ⟨next, u⟩ := found
      refine Ends.bind_iff.mpr ((takeUp_fresh hc hr₃ (hfound _ rfl)).mono (fun fresh r₄ h₄ => ?_)
        fun _ _ => id)
      obtain ⟨hr₄, ha₄, hfresh⟩ := h₄
      refine .ite (fun h => ⟨⟨rest, hr₄⟩, (ha.trans ha₃).trans ha₄, fun row' t' hturn => ?_⟩) fun _ => ?_
      · cases hturn
        exact (hfresh h).mono ((ha.trans ha₃).marked _ _)
      · have hb₄ := hb.after r₄
        refine Ends.bind_iff.mpr ((skip_bears hb₄ r₄ ⟨hr₄, .refl _ r₄⟩).mono (fun _ r₅ h₅ => ?_)
          fun _ _ => id)
        refine Ends.bind_iff.mpr ((allProved_bears hb₄ r₅ h₅).mono (fun proved r₆ h₆ => ?_) fun _ _ => id)
        have ha₆ := (ha₃.trans ha₄).trans h₆.2
        exact .ite (fun _ => ⟨⟨rest, h₆.1⟩, ha.trans ha₆, fun _ _ hturn => Turn.noConfusion hturn⟩)
          fun _ => ih h₆.1 (ha.trans ha₆) (hrest.mono ha₆.fact) hover
  | case2 row t proved head heads sources ih =>
    let rest : Examination := ⟨row, t, proved, [], heads, sources⟩
    have hrest : rest.Holds r := ⟨he.fact, List.forall_mem_nil _⟩
    have hb := Amid.bears hc r₀ (rest :: outer) rows
    refine Ends.bind_iff.mpr ((hr.keep_ends hrest).mono (fun _ r₂ h₂ => ?_) fun _ _ => id)
    refine Ends.bind_iff.mpr ((premises_ends (hb.after r) h₂ hover head).mono (fun leads r₃ h₃ => ?_)
      fun _ _ => id)
    obtain ⟨⟨hr₃, ha₃⟩, hleads⟩ := h₃
    exact ih leads hr₃ (ha.trans ha₃) ⟨ha₃.fact _ _ he.fact, hleads⟩ hover
  | case3 row t proved source sources ih =>
    refine Ends.bind_iff.mpr ?_
    exact ih _ _ hr ha ⟨he.fact, consult_holds⟩ hover
  | case4 row t proved => exact ⟨⟨e₀, hr⟩, ha, fun _ _ hturn => Turn.noConfusion hturn⟩

/-- A fresh fact is examined. -/
theorem begin_ends (hr : Amid K r₀ l rows r) (hrow : Fresh r₀ r row t)
    (hwaiting : Lane.proved.waiting (K.card ^ 3) .proved r₀ < task.budget) :
    Ends (begin c task row t) r (fun _ r' => (∃ e, Amid K r₀ (e :: l) (rows ++ [row]) r') ∧
      Lane.proved.Advances r r') (Breaks K r₀) := by
  have hover : t.Over (· ∈ K) := hr.fact row t hrow.fact
  have hb := (Amid.bears hc r₀ l rows).after r
  refine Ends.bind_iff.mpr ((hb.announce rfl r ⟨hr, .refl _ r⟩).mono (fun _ r₁ h₁ => ?_) fun _ _ => id)
  -- the row is among those that the check has looked at from here on
  refine Ends.bind_iff.mpr (Ends.modify_iff.mpr ?_)
  have hpush : Amid K r₀ l (rows ++ [row]) { r₁ with checked := r₁.checked.push row } :=
    h₁.1.push ⟨h₁.2.fact row t hrow.fact, hrow.unmarked, h₁.2.marked _ row hrow.marked,
      by rw [h₁.1.checked, ← hr.checked]; exact hrow.unchecked⟩
  have hadvances : Lane.proved.Advances r { r₁ with checked := r₁.checked.push row } :=
    h₁.2.trans (.of_update_eq (fun _ _ => id) rfl)
  have hb₂ := ((Amid.bears hc r₀ l (rows ++ [row])).after r).with_fact row t
  refine Ends.bind_iff.mpr ((saturate_bears hb₂ hover (fun _ h => h.2)
    (fun r h => h.1.1.waiting_le.trans_lt hwaiting) _
    ⟨⟨hpush, hadvances⟩, hadvances.fact row t hrow.fact⟩).mono (fun proved r₃ h₃ => ?_) fun _ _ => id)
  let e : Examination := ⟨row, t, proved, [], [],
    Source.all c.mode.equality.enabled (c.rules.hasRecursive task.scope) t⟩
  show Ends (modify fun r : Run => { r with examinations := e :: r.examinations }) r₃ _ _
  have he : e.Holds r₃ := ⟨h₃.2, nofun⟩
  exact Ends.modify_iff.mpr ⟨⟨e, h₃.1.1.begin he⟩, h₃.1.2.trans (.of_update_eq (fun _ _ => id) rfl)⟩

/-- Another examination may have proved the fact of the innermost one. -/
theorem resume_ends (hr : Amid K r₀ l rows r) : Ends (resume c) r (fun _ r' =>
    (∃ l', l'.length = l.length ∧ Amid K r₀ l' rows r') ∧ Lane.proved.Advances r r') (Breaks K r₀) := by
  rw [resume, Ends.bind_iff, Ends, Routine.reads]
  dsimp only
  rw [hr.examinations]
  cases l with
  | nil => exact ⟨⟨[], rfl, hr⟩, .refl _ r⟩
  | cons e outer =>
    have hb := (Amid.bears hc r₀ (e :: outer) rows).after r
    refine Ends.bind_iff.mpr ((allProved_bears hb r ⟨hr, .refl _ r⟩).mono (fun proved r₁ h₁ => ?_)
      fun _ _ => id)
    refine .ite (fun _ => ⟨⟨{ e with proved := true } :: outer, rfl, ?_⟩, ?_⟩) fun _ =>
      ⟨⟨_, rfl, h₁.1⟩, h₁.2⟩
    · have he := h₁.1.holds e (by rw [h₁.1.examinations]; exact List.mem_cons_self)
      exact h₁.1.keep ⟨he.fact, he.leads⟩
    · exact h₁.2.trans (.of_update_eq (fun _ _ => id) rfl)

/-- The innermost examination goes on, unless its fact is proved. -/
theorem turn_ends {e : Examination} {go : Turn → Routine α} {Q : α → Run → Prop}
    (hr : Amid K r₀ (e :: outer) rows r)
    (hgo : ∀ turn r' e', Amid K r₀ (e' :: outer) rows r' → Lane.proved.Advances r r' →
      (∀ row t, turn = .descend row t → Fresh r r' row t) → Ends (go turn) r' Q (Breaks K r₀)) :
    Ends (if e.proved then pure (.close true) >>= go else explore c task e >>= go) r Q (Breaks K r₀) := by
  have he : e ∈ r.examinations := by rw [hr.examinations]; exact List.mem_cons_self
  refine .ite (fun _ => hgo (.close true) r e hr (.refl _ r) nofun) fun _ => Ends.bind_iff.mpr ?_
  refine (explore_ends hc e hr (.refl _ r) (hr.holds e he)).mono (fun turn r' h => ?_) fun _ _ => id
  obtain ⟨⟨e', hr'⟩, ha, hfresh⟩ := h
  exact hgo turn r' e' hr' ha hfresh

omit hc in
/-- There are less turns to come once a fresh row is marked as examined, even if another examination
begins. -/
theorem turns_lt_of_fresh {r' : Run} {l' : List Examination} {rows' : List RowIndex}
    (hr : Amid K r₀ l rows r)
    (hr' : Amid K r₀ l' rows' r') (hrow : Fresh r r₁ row t) (ha : Lane.proved.Advances r r₁)
    (ha' : Lane.proved.Advances r₁ r') (hlength : l'.length ≤ l.length + 1) : turns K r' < turns K r := by
  have hcount := (ha.count_lt hrow.fact hrow.unmarked hrow.marked).trans_le (ha'.count_le _)
  have hbound := (Lane.count_le_size Lane.proved Flag.Level.checked r').trans hr'.size_le
  rw [turns, turns, hr.examinations, hr'.examinations]
  omega

omit hc in
/-- There are less turns to come once an examination is over. -/
theorem turns_lt_of_length {r' : Run} {l' : List Examination} {rows' : List RowIndex}
    (hr : Amid K r₀ l rows r)
    (hr' : Amid K r₀ l' rows' r') (ha : Lane.proved.Advances r r') (hlength : l'.length < l.length) :
    turns K r' < turns K r := by
  have hcount := ha.count_le Flag.Level.checked
  rw [turns, turns, hr.examinations, hr'.examinations]
  omega

/-- Every turn marks another row as examined, or there is one examination less. -/
theorem conclude_ends (hwaiting : Lane.proved.waiting (K.card ^ 3) .proved r₀ < task.budget) (fuel : Nat)
    (proved : Bool) (hr : Amid K r₀ l rows r) (hfuel : turns K r < fuel) :
    Ends (conclude c task fuel proved) r (fun _ r' => Amid K r₀ [] r'.checked.toList r')
      (Breaks K r₀) := by
  induction fuel generalizing proved l rows r with
  | zero => omega
  | succ fuel ih =>
    refine Ends.bind_iff.mpr ?_
    rw [Ends, Routine.reads]
    dsimp only
    rw [hr.examinations]
    cases l with
    | nil => exact ⟨hr.checked ▸ hr.toUnderway, hr.examinations, rfl⟩
    | cons e outer =>
      refine turn_ends hc hr fun turn r₁ e' hr₁ ha₁ hfresh => ?_
      cases turn with
      | descend row t =>
        have hrow : Fresh r₀ r₁ row t := (hfresh row t rfl).mono (hr.keeps row)
        refine Ends.bind_iff.mpr ((begin_ends hc hr₁ hrow hwaiting).mono (fun _ r₂ h₂ => ?_)
          fun _ _ => id)
        obtain ⟨⟨e₂, hr₂⟩, ha₂⟩ := h₂
        have hturns := turns_lt_of_fresh hr hr₂ (hfresh row t rfl) ha₁ ha₂ le_rfl
        exact ih proved hr₂ (by omega)
      | close proved =>
        refine Ends.bind_iff.mpr (Ends.modify_iff.mpr ?_)
        have ha₂ : Lane.proved.Advances r { r₁ with examinations := outer } :=
          ha₁.trans (.of_update_eq (fun _ _ => id) rfl)
        have hb := (Amid.bears hc r₀ outer rows).after r
        refine Ends.bind_iff.mpr ((hb.announce rfl _ ⟨hr₁.close, ha₂⟩).mono (fun _ r₃ h₃ => ?_)
          fun _ _ => id)
        refine Ends.bind_iff.mpr ((resume_ends hc h₃.1).mono (fun _ r₄ h₄ => ?_) fun _ _ => id)
        obtain ⟨⟨l', hlength, hr₄⟩, ha₄⟩ := h₄
        have hturns := turns_lt_of_length hr hr₄ (h₃.2.trans ha₄)
          (hlength ▸ Nat.lt_succ_self outer.length)
        exact ih proved hr₄ (by omega)

/-- What a check has looked at stays marked when it is done. -/
theorem markDisproved_ends (hr : Amid K r₀ l rows r) : Ends (markDisproved c) r
    (fun _ r' => Underway K r₀ rows r' ∧ r'.examinations = l)
    fun f r' => f ≠ .exhausted ∧ Underway K r₀ rows r' := by
  have hb : Bears c K (Amid K r₀ l rows) fun f r' => f ≠ .exhausted ∧ Underway K r₀ rows r' :=
    Amid.bears_of hc fun f r' hf h => ⟨hf, h.toUnderway⟩
  refine Ends.bind_iff.mpr (Ends.bind_iff.mpr ?_)
  have hloop : Within (Amid K r₀ l rows) (fun f r' => f ≠ .exhausted ∧ Underway K r₀ rows r')
      (r.checked.toList.forM fun row => do
        if ← noneProved c row then
          if ← Routine.addFlags row Flag.Update.disproved then
            c.announceRow row .disproved) := by
    refine .forM fun row _ => .bind (noneProved_bears hb) fun _ => .ite (fun _ => ?_) fun _ => .pure _
    refine .bind (hb.add .update row _) fun _ => .ite (fun _ => ?_) fun _ => .pure _
    exact .ite (fun _ => hb.bind_factOf fun t _ => hb.announce rfl) fun _ => .pure _
  refine (hloop r hr).mono (fun _ r' h => Ends.modify_iff.mpr ⟨?_, h.examinations⟩) fun _ _ => id
  exact { h.toUnderway with holds := fun e he => (h.holds e he).mono fun _ _ => id }

end underway

end Search

end Entail
