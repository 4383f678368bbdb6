import Entail.Proofs.Termination.Bound
import Entail.Proofs.Termination.Steps

/-!
# Insertion comes to an end

While the facts of a level are inserted, all ids are from the finite set of those that the store and
the rules mention. A row is queued only when it is newly marked as added, and each merge leaves one
class less of the ids in the set (`InsertionTask.Moves`). A derivation in which another one is nested
has marked a row before, so there are never more derivations under way than there can be facts
(`InsertionTask.derive_bears`).
-/

namespace Entail

open Flag.Update

variable {c : Context} {K : Finset Nat} {r r' r'' : Run} {P : Run → Prop} {E : Failure → Run → Prop}

namespace InsertionTask

/-! ## What an insertion does to a run -/

/-- The facts of a run are over a set of ids, and merges do not lead out of it. -/
structure Confined (K : Finset Nat) (r : Run) : Prop where
  fact (row : RowIndex) (t : Triple) (h : r.table.fact? row = some t) : t.Over (· ∈ K)
  steady : r.steady.Confined K

theorem Confined.inter {K' : Finset Nat} (h : Confined K r) (h' : Confined K' r) : Confined (K ∩ K') r :=
  ⟨fun row t hf p => Finset.mem_inter.mpr ⟨h.fact row t hf p, h'.fact row t hf p⟩,
    h.steady.inter h'.steady⟩

/-- From `r` to `r'` rows are queued as they are marked, and each merge makes one class less of the
ids of `K`. -/
structure Moves (c : Context) (K : Finset Nat) (r r' : Run) : Prop where
  advances : Lane.added.Advances r r'
  classes : r'.steady.absorbed.card + r'.steady.classCount K =
    r.steady.absorbed.card + r.steady.classCount K
  merges (h : c.monitored = true) :
    r'.merges + r.steady.absorbed.card = r.merges + r'.steady.absorbed.card

namespace Moves

theorem refl (r : Run) : Moves c K r r := ⟨.refl _ r, rfl, fun _ => rfl⟩

theorem trans (h : Moves c K r r') (h' : Moves c K r' r'') : Moves c K r r'' := by
  refine ⟨h.advances.trans h'.advances, h'.classes.trans h.classes, fun hm => ?_⟩
  have h₁ := h.merges hm
  have h₂ := h'.merges hm
  omega

theorem of_agrees (h : Lane.added.Advances r r') (hs : r.Agrees r') : Moves c K r r' :=
  ⟨h, by rw [hs.steady], fun _ => by rw [hs.steady, hs.merges]⟩

end Moves

/-- `P` does not notice merges of ids of `K` that are announced, either. -/
structure Bears (c : Context) (K : Finset Nat) (P : Run → Prop) (E : Failure → Run → Prop) : Prop extends
    Lane.added.Bears c K P E where
  merges (r : Run) (steady : Classes) (journal : Array Entry) (heard : Nat) (stopped : Bool) (h : P r)
    (hs : steady.Confined K) (hm : Moves c K r { r with steady, journal, heard, stopped }) :
    P { r with steady, journal, heard, stopped }

namespace Bears

variable (ht : Bears c K P E)

include ht

theorem after (r₀ : Run) : Bears c K (fun r => P r ∧ Lane.added.Advances r₀ r) E :=
  ⟨ht.toBears.after r₀, fun r steady journal heard stopped h hs hm =>
    ⟨ht.merges r steady journal heard stopped h.1 hs hm, h.2.trans hm.advances⟩⟩

theorem mergeSteady {α : Type} {source target : Nat} (hs : source ∈ K) (htarget : target ∈ K)
    {merge same : Routine α} (hmerge : Within P E merge) (hsame : Within P E same) :
    Within P E (Routine.mergeSteady source target >>= fun merged =>
      if merged then c.announce (.constantMerged source target) >>= fun _ => merge else same) := by
  intro r hr
  refine Ends.bind_iff.mpr ?_
  rw [Ends, Routine.mergeSteady]
  cases hm : r.steady.merge? source target with
  | none => exact ht.breaks r _ hr trivial
  | some p =>
    obtain ⟨merged, steady⟩ := p
    obtain ⟨hsteady, hcount⟩ := (ht.steady r hr).merge? ht.names.nonzero hs htarget hm
    dsimp only
    cases merged with
    | false =>
      rw [if_neg Bool.false_ne_true] at hcount
      subst hcount
      exact hsame _ hr
    | true =>
      obtain ⟨habsorbed, hclasses⟩ := hcount
      refine Ends.bind_iff.mpr (Context.announce_frame fun journal heard stopped hevents => hmerge _ ?_)
      refine ht.merges r steady journal heard stopped hr hsteady
        ⟨.of_update_eq (fun _ _ => id) rfl, ?_, fun hmon => ?_⟩
      · dsimp only
        omega
      · have hmerges : ({ r with steady, journal, heard, stopped } : Run).merges = r.merges + 1 := by
          refine (congrArg (List.countP Event.isMerge) hevents).trans ?_
          rw [if_pos hmon, List.countP_append]
          rfl
        dsimp only at hmerges ⊢
        omega

end Bears

/-! ## Derivations -/

section routines

variable {task : InsertionTask} {row : RowIndex} {t : Triple} {n : Nat} {derive' : Triple → Routine Unit}
  (ht : Bears c K P E)

include ht

omit ht in
theorem updateStatus_bears (ht : Lane.added.Bears c K P E) (row : RowIndex) (cleared set : Status) :
    Within P E (Routine.updateStatus row cleared set) := by
  have hfact : ∀ (T : Table) other, (T.updateStatus row cleared set).2.fact? other = T.fact? other := by
    intro T other
    rw [Table.updateStatus]
    split
    · rfl
    · dsimp only
      split <;> rfl
  refine fun r hr => Ends.modifyGet_iff.mpr (ht.keeps r _ hr (fun other t h => .inl ?_)
    (.of_update_eq (fun other t h => ?_) rfl) ⟨rfl, rfl, rfl, rfl, rfl⟩)
  · exact (hfact r.table other).symm.trans h
  · exact (hfact r.table other).trans h

theorem markMerged_bears (row : RowIndex) : Within P E (markMerged row) :=
  .bind (ht.add .update row _) fun _ => .bind (Routine.reads_within _) fun _ => .ite
    (fun _ => .bind (.discard (updateStatus_bears ht.toBears row _ _)) fun _ => .pure _) fun _ => .pure _

section unite

variable (hd : ∀ t, t.Over (· ∈ K) → Within P E (derive' t))

include hd

theorem renormalize_bears (row : RowIndex) : Within P E (renormalize c derive' row) := by
  refine .bind (Routine.reads_within _) fun _ => .ite (fun _ => ?_) fun _ => .pure _
  refine ht.bind_factOf fun t h => ht.bind_normal h fun normal hn => .ite (fun _ => ?_) fun _ => .pure _
  exact .bind (markMerged_bears ht row) fun _ => .ite (fun _ => hd normal hn) fun _ => .pure _

theorem absorb_bears (source : Nat) : Within P E (absorb c task derive' source) := by
  refine .bind ?_ fun _ => .bind (Routine.reads_within _) fun rules => ?_
  · exact .forM fun p _ => .bind (Routine.reads_within _) fun rows =>
      .forM fun row _ => renormalize_bears ht hd row
  · exact .forM fun rule _ => ht.evaluateRule (ht.shows rfl fun _ => .inl rfl) rfl hd

theorem unite_bears {first second : Nat} (hfirst : first ∈ K) (hsecond : second ∈ K) :
    Within P E (unite c task derive' first second) := by
  obtain ⟨hsource, htarget⟩ := Dictionary.mergeDirection_mem c.dictionary c.mode.equality.uniqueNames
    hfirst hsecond
  refine ht.mergeSteady hsource htarget (.bind (absorb_bears ht hd _) fun _ => ?_) ?_
  all_goals
    refine .ite (fun _ => .bind (ht.announce rfl) fun _ => ?_) fun _ => .pure _
    obtain ⟨htype, -, hnothing⟩ := ht.names.vocabulary
    exact ht.bind_normal (Triple.over_mk htarget htype hnothing) hd

end unite

/-- With more room for nested derivations than there are rows that may still be marked, a derivation
comes to an end: it nests another one only once it has marked a row. -/
theorem derive_bears (depth : Nat) (hdepth : ∀ r, P r → K.card ^ 3 < Lane.added.count addedNew r + depth)
    (h : t.Over (· ∈ K)) : Within P E (derive c task depth t) := by
  induction depth generalizing P t with
  | zero =>
    intro r hr
    have hcount := Lane.added.count_le_size addedNew r
    have hsize := ht.size_le hr
    have := hdepth r hr
    omega
  | succ depth ih =>
    refine .bind (Routine.reads_within _) fun normal => .ite (fun _ => ?_) fun _ => .pure _
    refine fun r hr => Ends.bind_iff.mpr ((ht.rowOf_ends hr h).mono (fun row r₁ h₁ => ?_) fun _ _ => id)
    refine ht.enter_ends Bits.isBit_addedNew h₁.1 h₁.2.2 (fun r₂ hr₂ _ hcount => ?_) fun r₂ hr₂ _ => ?_
    · -- from here on there is one row less that may be marked
      have ht' := ht.after r₂
      refine (Within.bind (ht'.announce rfl) (fun _ => .ite (fun _ => ?_) fun _ => .pure _) r₂
        ⟨hr₂, .refl _ r₂⟩).mono (fun _ _ h => h.1) fun _ _ => id
      refine unite_bears ht' (fun u hu => ih ht' (fun r₃ hr₃ => ?_) hu) (h .subject) (h .object)
      have hle₁ := h₁.2.1.count_le addedNew
      have hle₃ := hr₃.2.count_le addedNew
      have := hdepth r hr
      change Lane.added.count addedNew r₁ < Lane.added.count addedNew r₂ at hcount
      omega
    · exact (ht.announce rfl).bind (fun _ => .ite (fun hnew => absurd hnew.1 Bool.false_ne_true)
        fun _ => .pure _) r₂ hr₂

/-! ## Working off the queues -/

section budget

variable (hbudget : K.card ^ 3 < task.budget)

include hbudget

theorem deriveFact_bears (h : t.Over (· ∈ K)) : Within P E (task.deriveFact c t) :=
  derive_bears ht _ (fun _ _ => by omega) h

theorem replayAddition_bears {row : RowIndex} : Within P E (task.replayAddition c row) := by
  refine .bind (Routine.reads_within _) fun _ => .ite (fun _ => ?_) fun _ => .pure _
  exact ht.bind_factOf fun t h => ht.applyToPositive (ht.shows rfl Lane.Bears.steady?_eq) rfl h fun _ =>
    deriveFact_bears ht hbudget

theorem replayDeletion_bears : Within P E (task.replayDeletion c row) := by
  refine .bind (Routine.reads_within _) fun _ => .ite (fun _ => ?_) fun _ => .pure _
  exact ht.bind_factOf fun t h => ht.applyToNegation (ht.shows rfl Lane.Bears.steady?_eq) rfl h fun _ =>
    deriveFact_bears ht hbudget

theorem propagate_bears (h : t.Over (· ∈ K)) : Within P E (task.propagate c row t) := by
  have hrules : Within P E (if c.rules.hasRecursive task.scope then
      c.rules.applyToPositive (c.view (additionFilter c row)) row t task.scope fun _ head =>
        task.deriveFact c head else pure ()) :=
    .ite
      (fun _ => ht.applyToPositive (ht.shows rfl Lane.Bears.steady?_eq) rfl h fun _ =>
        deriveFact_bears ht hbudget)
      fun _ => .pure _
  refine .ite (fun _ => .bind (.forM fun id hid => ?_) fun _ => hrules) fun _ => hrules
  refine .bind (ht.checkReflexivity id 0) fun _ => .ite (fun _ => ?_) fun _ => .pure _
  obtain ⟨p, rfl⟩ := Three.mem_toList.mp hid
  exact deriveFact_bears ht hbudget (Triple.over_reflexive ht.names.vocabulary.2.1 (h p))

theorem addNormal_bears (h : t.Over (· ∈ K)) : Within P E (task.addNormal c row t n) := by
  refine .bind (ht.add .update row _) fun isNew =>
    .ite (fun _ => .bind (ht.announce rfl) fun _ => ?_) fun _ => ?_
  all_goals
    refine .ite (fun _ => .bind (unite_bears ht (fun _ => deriveFact_bears ht hbudget) (h .subject)
      (h .object)) fun _ => .pure _) fun _ => ?_
    exact .bind (propagate_bears ht hbudget h) fun _ => .pure _

theorem add_bears (h : t.Over (· ∈ K)) : Within P E (task.add c row t n) := by
  refine .bind_of (A := fun normal : Triple => normal.Over (· ∈ K)) (fun r hr => ⟨hr, ?_⟩)
    fun normal hn => ?_
  · dsimp only
    split
    · rename_i heq
      rcases Lane.Bears.steady?_eq (c := c) r with he | he
      · rw [← Option.some.inj (he.symm.trans heq)]
        exact (ht.steady r hr).normalizeTriple h
      · rw [he] at heq
        cases heq
    · exact h
  · refine .ite (fun _ => .bind (.discard (markMerged_bears ht row)) fun _ => ?_)
      fun _ => addNormal_bears ht hbudget h
    exact .bind (deriveFact_bears ht hbudget hn) fun _ => .pure _

theorem consider_bears : Within P E (task.consider c row n) := by
  refine .bind_of (A := fun known : Option (Status × Triple) => ∀ status t, known = some (status, t) →
    t.Over (· ∈ K)) (fun r hr => ⟨hr, fun status t he => ?_⟩) fun known hknown => ?_
  · obtain ⟨u, hu, he⟩ := Option.map_eq_some_iff.mp (show (r.table.fact? row).map _ = _ from he)
    cases he
    exact ht.fact r hr row _ hu
  · cases known with
    | none => exact .pure _
    | some p =>
      exact .bind (Routine.reads_within _) fun _ => .ite (fun _ => .pure _) fun _ =>
        add_bears ht hbudget (hknown p.1 p.2 rfl)

end budget

theorem addAll_bears (hbudget : K.card ^ 3 < task.budget)
    (hwaiting : ∀ r, P r → ∀ w, Lane.added.waiting (K.card ^ 3) w r < task.budget) :
    Within P E (task.addAll c) := by
  have hreplay : Within P E (task.replay c) := by
    refine .bind ?_ fun _ => .ite (fun _ => ?_) fun _ => .pure _
    · exact ht.drain (Routine.takesFrom_dequeueBefore _ _)
        (fun r₀ _ _ => replayAddition_bears (ht.after r₀) hbudget) (fun r hr => hwaiting r hr _) _
    · exact ht.drain (Routine.takesFrom_dequeue _)
        (fun r₀ _ _ => replayDeletion_bears (ht.after r₀) hbudget) (fun r hr => hwaiting r hr _) _
  have hrest : Within P E (do
      c.announce .insertionRecursiveStarted
      let count ← Routine.drain (c.whileRunning (Routine.dequeue .added)) (task.consider c) task.budget 0
      c.announce .insertionFinished
      pure count) :=
    .bind (ht.announce rfl) fun _ => .bind (ht.drain (Routine.takesFrom_dequeue _)
      (fun r₀ _ _ => consider_bears (ht.after r₀) hbudget) (fun r hr => hwaiting r hr _) 0) fun _ =>
        .bind (ht.announce rfl) fun _ => .pure _
  exact .bind (ht.announce rfl) fun _ => .ite (fun _ => .bind hreplay fun _ => hrest) fun _ => hrest

end routines

/-! ## The outcome -/

/-- What an insertion leaves behind, however it ends: every row that it queued is queued once and was
not marked before, the classes list their members, and it has made less merges than there are ids in
any set that has those of the facts and the rules. -/
structure Leaves (c : Context) (r r' : Run) : Prop where
  enters : ∃ rows, Lane.added.Enters r r' rows
  listed : r'.steady.Listed
  absorbed_lt (K : Finset Nat) (hc : c.Names K) (hr : Confined K r) :
    r'.steady.absorbed.card < r.steady.absorbed.card + K.card
  merges (h : c.monitored = true) :
    r'.merges + r.steady.absorbed.card = r.merges + r'.steady.absorbed.card

/-- An insertion keeps to what it may do to the store that it started with. -/
theorem Bears.of_moves (hc : c.Names K) (r : Run) : Bears c K
    (fun r' => Confined K r' ∧ Moves c K r r')
    fun f r' => f ≠ .exhausted ∧ Moves c K r r' ∧ r'.steady.Listed where
  names := hc
  fact _ h := h.1.fact
  steady _ h := h.1.steady
  keeps _ _ h hf ha hs := ⟨⟨fun row t hrow => (hf row t hrow).elim (h.1.fact row t) id,
    hs.steady ▸ h.1.steady⟩, h.2.trans (.of_agrees ha hs)⟩
  breaks _ _ h hf := ⟨fun he => (he ▸ hf : Failure.exhausted.Broken), h.2, h.1.steady.listed⟩
  merges _ _ _ _ _ h hs hm := ⟨⟨h.1.fact, hs⟩, h.2.trans hm⟩

/-- Adding the facts of a level comes to an end for want of neither steps nor room for nested
derivations, and as it does with any greater bound. -/
theorem addAll_ends {rules : List Rule} {byLevels : Bool} {task : InsertionTask}
    (hb : RuleIndex.Builds rules byLevels c.rules) (hp : ∀ rule ∈ rules, rule.Parsed)
    (hfacts : ∀ row t, r.table.fact? row = some t → ∀ p, t.get p ≠ 0) (hl : r.steady.Listed)
    (hbudget : c.budget r ≤ task.budget) :
    Ends (task.addAll c) r (fun _ r' => Leaves c r r') (fun f r' => f ≠ .exhausted ∧ Leaves c r r') ∧
      ∀ n, task.budget ≤ n → addAll c { task with budget := n } r = task.addAll c r := by
  have hids : c.Names (c.ids r) ∧ Confined (c.ids r) r :=
    ⟨Context.names_ids hb hp, Context.over_ids hfacts, Context.steady_ids hl⟩
  -- a set of ids may be cut down to those that a run can come across
  have hwithin : ∀ K : { K // c.Names K ∧ Confined K r }, Ends (task.addAll c) r
      (fun _ r' => Moves c (K ∩ c.ids r) r r' ∧ r'.steady.Listed) fun f r' =>
        f ≠ .exhausted ∧ Moves c (K ∩ c.ids r) r r' ∧ r'.steady.Listed := by
    rintro ⟨K, hc, hr⟩
    have hcut : c.Names (K ∩ c.ids r) ∧ Confined (K ∩ c.ids r) r := ⟨hc.inter hids.1, hr.inter hids.2⟩
    have hcard : (K ∩ c.ids r).card ^ 3 ≤ (c.ids r).card ^ 3 :=
      Nat.pow_le_pow_left (Finset.card_le_card Finset.inter_subset_right) 3
    refine (addAll_bears (Bears.of_moves hcut.1 r) ?_ (fun r' hr' w => ?_) r ⟨hcut.2, .refl r⟩).mono
      (fun _ r' h => ⟨h.2, h.1.steady.listed⟩) fun _ _ => id
    · have := Context.card_ids_lt (c := c) (r := r) .added
      omega
    · have hlt := Context.card_ids_lt (c := c) (r := r) w
      have hle := hr'.2.advances.waiting_le (Table.size_le_of_over hr'.1.fact) w
      have hstart : Lane.added.waiting ((K ∩ c.ids r).card ^ 3) w r ≤
          (r.update.queue w).size + (K ∩ c.ids r).card ^ 3 := by
        simp only [Lane.waiting, Queue.unprocessed]
        split <;> omega
      omega
  have hleaves : ∀ r',
      (∀ K : { K // c.Names K ∧ Confined K r }, Moves c (K ∩ c.ids r) r r' ∧ r'.steady.Listed) →
      Leaves c r r' := fun r' h => by
    refine ⟨(h ⟨_, hids⟩).1.advances.enters, (h ⟨_, hids⟩).2, fun K hc hr => ?_, (h ⟨_, hids⟩).1.merges⟩
    have hclasses : r'.steady.absorbed.card + r'.steady.classCount (K ∩ c.ids r) =
        r.steady.absorbed.card + r.steady.classCount (K ∩ c.ids r) := (h ⟨K, hc, hr⟩).1.classes
    have hcut : rdfTypeId ∈ K ∩ c.ids r :=
      Finset.mem_inter.mpr ⟨hc.vocabulary.1, hids.1.vocabulary.1⟩
    have hpos := Classes.classCount_pos hcut r'.steady
    have hle := Classes.classCount_le (K ∩ c.ids r) r.steady
    have hcard : (K ∩ c.ids r).card ≤ K.card := Finset.card_le_card Finset.inter_subset_left
    omega
  have hends : Ends (task.addAll c) r (fun _ r' => Leaves c r r')
      fun f r' => f ≠ .exhausted ∧ Leaves c r r' :=
    (Ends.forall_of hwithin).mono (fun _ r' h => hleaves r' h) fun f r' h =>
      ⟨(h ⟨_, hids⟩).1, hleaves r' fun K => (h K).2⟩
  exact ⟨hends, fun n hn => (addAll_extends hn).eq hends⟩

/-- Two resources are values of one property of a third one, and have different values of it
themselves. -/
theorem addAll_ends_functional :
    let c : Context :=
      { dictionary := .vocabulary, rules := functionalIndex, mode := { equality := .noUna } }
    let r : Run :=
      { table := [⟨4, 5, 6⟩, ⟨4, 5, 7⟩, ⟨6, 5, 8⟩, ⟨7, 5, 9⟩].foldl
          (fun t fact => (t.add fact Status.asserted).2) .empty
        update := { Update.idle with
          added := ⟨#[1, 2, 3, 4], 0⟩
          flags := ⟨1, .ofList ([1, 2, 3, 4].map (·, addedNew))⟩ } }
    let task : InsertionTask := ⟨none, 0, false, c.budget r⟩
    Ends (task.addAll c) r (fun _ r' => Leaves c r r') (fun f r' => f ≠ .exhausted ∧ Leaves c r r') ∧
      ∀ n, task.budget ≤ n → addAll c { task with budget := n } r = task.addAll c r := by
  refine addAll_ends (show RuleIndex.Builds [functional] false functionalIndex from rfl)
    (fun _ hr => List.mem_singleton.mp hr ▸ parsed_functional) (fun row t hf => ?_)
      Classes.listed_discrete le_rfl
  exact Table.get_ne_zero_of_addAll (by decide) (by decide) hf

end InsertionTask

end Entail
