import Entail.Proofs.Invariant
import Entail.Proofs.Rule.Index

/-!
# What rules emit

Whatever facts a view lets pass, and whether or not rules are safe, a rule that is applied emits only
its own heads (`derive_within`): the consumer of `applyToPositive` and `applyToNegation` is handed
conclusions of rules of the scope (`applyToPositive_within`, `applyToNegation_within`). Looking for
matches does not change the state, nor does looking for support (`isDerivable_within`). An evaluation that
fails on its own account leaves the store unusable: a term was read of which nothing is bound.
-/

namespace Entail

/-- The instance of an atom is what the atom becomes under some assignment. -/
theorem Bindings.exists_groundIn_of_instantiate {b : Bindings} {classes : Option Classes} {rule : Nat}
    {a : Atom} {t : Triple} (h : b.instantiate classes rule a = .ok t) :
    ∃ τ, a.groundIn classes τ = t := by
  obtain ⟨τ, hτ⟩ := b.exists_agrees
  have hvalue : ∀ {u : Term} {id : Nat}, b.headValue classes rule u = .ok id →
      u.groundIn classes τ = id := by
    intro u id hu
    cases u with
    | const c =>
      cases hu
      rfl
    | var v =>
      simp only [headValue, value] at hu
      cases hv : b[v]? with
      | none =>
        rw [hv] at hu
        cases hu
      | some bound =>
        rw [hv] at hu
        cases bound with
        | none => cases hu
        | some id' =>
          cases hu
          exact hτ v id hv
  refine ⟨τ, ?_⟩
  simp only [instantiate, Bind.bind, Except.bind] at h
  split at h
  · cases h
  rename_i s hs
  split at h
  · cases h
  rename_i p hp
  split at h
  · cases h
  rename_i o ho
  cases h
  exact Three.eq_of_get fun q => by
    rw [Atom.get_groundIn]
    cases q with
    | subject => exact hvalue hs
    | predicate => exact hvalue hp
    | object => exact hvalue ho

/-! ## Failures of an evaluation -/

namespace Bindings

variable {b : Bindings} {classes : Option Classes} {f : Failure}

theorem broken_of_bind {a : Atom} {t : Triple} (h : b.bind classes a t = .error f) : f.Broken := by
  rw [bind] at h
  generalize a.toList.zip t.toList = terms at h
  induction terms generalizing b with
  | nil => cases h
  | cons p terms ih =>
    obtain ⟨u, value⟩ := p
    cases u with
    | const c =>
      rw [bindTerms] at h
      split at h
      · exact ih h
      · cases h
    | var v =>
      rw [bindTerms] at h
      split at h
      · cases h
        trivial
      · split at h
        · exact ih h
        · cases h
      · exact ih h

theorem broken_of_value {u : Term} (h : b.value classes u = .error f) : f.Broken := by
  cases u with
  | const c => cases h
  | var v =>
    rw [value] at h
    split at h <;> cases h
    trivial

/-- Something made of three parts fails as one of them does. -/
theorem broken_of_three {α β : Type} {x y z : Except Failure α} {g : α → α → α → β}
    (hx : ∀ f, x = .error f → f.Broken) (hy : ∀ f, y = .error f → f.Broken)
    (hz : ∀ f, z = .error f → f.Broken)
    (h : (do pure (g (← x) (← y) (← z)) : Except Failure β) = .error f) : f.Broken := by
  cases x with
  | error f' => cases h; exact hx _ rfl
  | ok a =>
    cases y with
    | error f' => cases h; exact hy _ rfl
    | ok a' =>
      cases z with
      | error f' => cases h; exact hz _ rfl
      | ok a'' => cases h

theorem broken_of_pattern {a : Atom} (h : b.pattern classes a = .error f) : f.Broken :=
  broken_of_three (fun _ => broken_of_value) (fun _ => broken_of_value) (fun _ => broken_of_value) h

theorem broken_of_headValue {rule : Nat} {u : Term} (h : b.headValue classes rule u = .error f) :
    f.Broken := by
  simp only [headValue, Bind.bind, Except.bind] at h
  split at h
  · cases h
    exact broken_of_value ‹_›
  · split at h <;> cases h
    · exact rfl
    · trivial

theorem broken_of_instantiate {rule : Nat} {a : Atom} (h : b.instantiate classes rule a = .error f) :
    f.Broken :=
  broken_of_three (fun _ => broken_of_headValue) (fun _ => broken_of_headValue)
    (fun _ => broken_of_headValue) h

end Bindings

/-! ## The ids that an evaluation comes across -/

/-- Every id of a fact is in `K`. -/
def Triple.Over (K : Nat → Prop) (t : Triple) : Prop := ∀ p, K (t.get p)

namespace Bindings

variable {K : Nat → Prop} {b b' : Bindings} {classes : Option Classes} {a : Atom} {t : Triple}

/-- Every id that a variable is bound to is in `K`. -/
def Over (K : Nat → Prop) (b : Bindings) : Prop := ∀ (v : Nat) id, b[v]? = some (some id) → K id

theorem over_free (count : Nat) : (free count).Over K := by
  intro v id h
  rw [free, Array.getElem?_replicate] at h
  split at h <;> cases h

theorem Over.bindTerms {terms : List (Term × Nat)} (hb : b.Over K) (ht : ∀ p ∈ terms, K p.2)
    (h : bindTerms classes terms b = .ok (some b')) : b'.Over K := by
  induction terms generalizing b with
  | nil =>
    cases h
    exact hb
  | cons p terms ih =>
    obtain ⟨u, value⟩ := p
    have hrest : ∀ q ∈ terms, K q.2 := fun q hq => ht q (List.mem_cons_of_mem _ hq)
    cases u with
    | const c =>
      rw [Bindings.bindTerms] at h
      split at h
      · exact ih hb hrest h
      · cases h
    | var v =>
      rw [Bindings.bindTerms] at h
      split at h
      · cases h
      · split at h
        · exact ih hb hrest h
        · cases h
      · refine ih (fun w id hw => ?_) hrest h
        rw [Array.getElem?_setIfInBounds] at hw
        split at hw
        · split at hw <;> cases hw
          exact ht (.var v, _) List.mem_cons_self
        · exact hb w id hw

/-- What is bound when an atom is matched with a fact is an id of the fact. -/
theorem Over.bind (hb : b.Over K) (ht : t.Over K) (h : b.bind classes a t = .ok (some b')) : b'.Over K := by
  refine hb.bindTerms (fun p hp => ?_) h
  obtain ⟨q, hq⟩ := Three.mem_toList.mp (List.of_mem_zip hp).2
  exact hq ▸ ht q

theorem Over.instantiate (hb : b.Over K) (hn : ∀ id, K id → K (Classes.normalizeIn classes id))
    (ha : ∀ id ∈ a.constants, K id) {rule : Nat} (h : b.instantiate classes rule a = .ok t) : t.Over K := by
  have hvalue : ∀ p id, b.headValue classes rule (a.get p) = .ok id → K id := by
    intro p id hid
    cases hp : a.get p with
    | const c =>
      rw [hp] at hid
      cases hid
      exact hn c (ha c (Atom.mem_constants.mpr ⟨p, hp⟩))
    | var v =>
      simp only [hp, headValue, value] at hid
      cases hv : b[v]? with
      | none =>
        rw [hv] at hid
        cases hid
      | some bound =>
        rw [hv] at hid
        cases bound with
        | none => cases hid
        | some id' =>
          cases hid
          exact hb v id hv
  simp only [Bindings.instantiate, Bind.bind, Except.bind] at h
  split at h
  · cases h
  rename_i s hs
  split at h
  · cases h
  rename_i p hp
  split at h
  · cases h
  rename_i o ho
  cases h
  intro q
  cases q with
  | subject => exact hvalue .subject s hs
  | predicate => exact hvalue .predicate p hp
  | object => exact hvalue .object o ho

end Bindings

/-- What a view shows in states with `P`: rows as `Q` has them, with ids in `K`, and classes that do not
lead out of `K`. -/
structure View.Shows {σ : Type} (view : View σ) (P : σ → Prop) (K : Nat → Prop)
    (Q : RowIndex → Triple → Prop) : Prop where
  fact (s : σ) (row : RowIndex) (t : Triple) (h : P s) (hf : (view.table s).fact? row = some t) :
    Q row t ∧ t.Over K
  normal (s : σ) (id : Nat) (h : P s) (hid : K id) : K (Classes.normalizeIn (view.classes s) id)

section

variable {σ β : Type} {P : σ → Prop} {E : Failure → σ → Prop} {view : View σ} {K : Nat → Prop}
  {Q : RowIndex → Triple → Prop} (hE : ∀ s f, P s → f.Broken → E f s) (ho : view.observe = none)
  (hv : view.Shows P K Q)

/-- Nothing is to be known of what a view shows. -/
theorem View.shows_true : view.Shows P (fun _ => True) fun _ _ => True :=
  ⟨fun _ _ _ _ _ => ⟨trivial, fun _ => trivial⟩, fun _ _ _ _ => trivial⟩

include hE

namespace View

theorem bind_within (b : Bindings) (a : Atom) (t : Triple) : Within P E (view.bind b a t) :=
  .evalReads fun s _ hs h => hE s _ hs (Bindings.broken_of_bind h)

theorem bind_ends {b : Bindings} {a : Atom} {t : Triple} {s : σ} (hs : P s) (hb : b.Over K) (ht : t.Over K) :
    Ends (view.bind b a t) s (fun bound s' => P s' ∧ ∀ b', bound = some b' → b'.Over K) E := by
  simp only [Ends, bind, Eval.reads]
  cases h : b.bind (view.classes s) a t with
  | ok bound => exact ⟨hs, fun b' hb' => hb.bind ht (hb' ▸ h)⟩
  | error f => exact hE s f hs (Bindings.broken_of_bind h)

include ho

theorem candidates_within (a : Atom) (role : Role) (o : Occurrence) (b : Bindings) :
    Within P E (view.candidates a role o b) := by
  intro s hs
  simp only [Ends, candidates, ho]
  split <;> rename_i heq <;> split at heq <;> cases heq
  · exact hs
  · exact hE s _ hs (Bindings.broken_of_pattern ‹_›)

theorem joint_within (role : Role) (o : Occurrence) (atoms : List Atom) (b : Bindings) :
    Within P E (view.joint role o atoms b) := by
  induction atoms generalizing b with
  | nil => exact .pure true
  | cons a rest ih =>
    refine .bind (candidates_within hE ho a role o b) fun found => .anyM fun (row, fact) _ => ?_
    refine .bind (bind_within hE b a fact) fun bound => ?_
    cases bound with
    | none => exact .pure false
    | some b' => exact ih b'

include hv

theorem candidates_ends {a : Atom} {role : Role} {o : Occurrence} {b : Bindings} {s : σ} (hs : P s) :
    Ends (view.candidates a role o b) s (fun found s' => P s' ∧ ∀ p ∈ found, Q p.1 p.2 ∧ p.2.Over K) E := by
  simp only [Ends, candidates, ho]
  cases hp : b.pattern (view.classes s) a with
  | error f => exact hE s f hs (Bindings.broken_of_pattern hp)
  | ok pattern =>
    refine ⟨hs, fun p hmem => ?_⟩
    obtain ⟨q, hq, rfl⟩ := List.mem_map.mp hmem
    obtain ⟨m, hm, rfl⟩ := List.mem_map.mp (List.mem_filter.mp hq).1
    rw [Table.matching_eq, List.mem_filter] at hm
    exact hv.fact s m.1 m.2 hs (Table.mem_toList.mp hm.1)

/-- Going through the matches of steps stays within what every match stays within, and `A` holds of the
answer if every match keeps it. -/
theorem run_ends {occurrence : Nat → Occurrence} {f : Bindings → List Match → β → Eval σ (ForInStep β)}
    {A : β → Prop}
    (hf : ∀ b matched acc s, P s → b.Over K → (∀ m ∈ matched, Q m.row m.fact) → A acc →
      Ends (f b matched acc) s (fun step s' => P s' ∧ A step.value) E)
    (steps : List Step) {b : Bindings} {matched : List Match} {acc : β} {s : σ} (hs : P s) (hb : b.Over K)
    (hm : ∀ m ∈ matched, Q m.row m.fact) (hacc : A acc) :
    Ends (view.run occurrence f steps b matched acc) s (fun step s' => P s' ∧ A step.value) E := by
  induction steps generalizing b matched acc s with
  | nil => exact hf b matched acc s hs hb hm hacc
  | cons step rest ih =>
    cases step with
    | find a literal role =>
      refine Ends.bind_iff.mpr ((candidates_ends hE ho hv hs).mono (fun found s' hfound => ?_) fun _ _ => id)
      refine Ends.foldUntil (fun (row, fact) hmem acc s hs hacc => Ends.bind_iff.mpr ?_) hfound.1 hacc
      have hrow := hfound.2 _ hmem
      refine (bind_ends hE hs hb hrow.2).mono (fun bound s' hbound => ?_) fun _ _ => id
      cases bound with
      | none => exact ⟨hbound.1, hacc⟩
      | some b' =>
        refine ih hbound.1 (hbound.2 b' rfl) (fun m hmem => ?_) hacc
        rcases List.mem_append.mp hmem with hmem | hmem
        · exact hm m hmem
        · obtain rfl := List.mem_singleton.mp hmem
          exact hrow.1
    | absent atoms literal role =>
      refine Ends.bind_iff.mpr ((joint_within hE ho role _ atoms b s hs).mono (fun found s' hs' => ?_)
        fun _ _ => id)
      exact .ite (fun _ => ⟨hs', hacc⟩) fun _ => ih hs' hb hm hacc

end View

namespace RuleIndex

variable {x : RuleIndex} {i : IndexedRule} {rule : Nat} {consume : Nat → Triple → Eval σ Unit}

omit hE in
/-- A consumer stays within a property if it is handed instances of the heads of a rule, where the
variables stand for ids of `K`. -/
def AcceptsOver (K : Nat → Prop) (P : σ → Prop) (E : Failure → σ → Prop) (view : View σ)
    (consume : Nat → Triple → Eval σ Unit) (i : IndexedRule) (rule : Nat) : Prop :=
  ∀ s (b : Bindings) a head, P s → b.Over K → a ∈ i.rule.head → b.instantiate (view.classes s) rule a = .ok head →
    Ends (consume rule head) s (fun _ => P) E

omit hE in
/-- A consumer stays within a property if it is handed conclusions of a rule. -/
def AcceptsHeads (P : σ → Prop) (E : Failure → σ → Prop) (view : View σ)
    (consume : Nat → Triple → Eval σ Unit) (i : IndexedRule) (rule : Nat) : Prop :=
  ∀ s τ head, P s → i.rule.Concludes (view.classes s) τ head → Ends (consume rule head) s (fun _ => P) E

omit hE in
/-- A consumer that stays within a property accepts all heads. -/
theorem acceptsHeads_of_within (h : ∀ rule head, Within P E (consume rule head)) :
    AcceptsHeads P E view consume i rule := fun s _ head hs _ => h rule head s hs

omit hE in
theorem AcceptsHeads.over (h : AcceptsHeads P E view consume i rule) :
    AcceptsOver K P E view consume i rule := by
  intro s b a head hs _ ha hh
  obtain ⟨τ, hτ⟩ := Bindings.exists_groundIn_of_instantiate hh
  exact h s τ head hs ⟨a, ha, hτ⟩

omit hE in
include hv in
/-- Facts over `K` are all that a consumer needs to accept, if `K` has the constants of the heads. -/
theorem acceptsOver_of_within (hi : ∀ a ∈ i.rule.head, ∀ id ∈ a.constants, K id)
    (h : ∀ rule head, head.Over K → Within P E (consume rule head)) :
    AcceptsOver K P E view consume i rule :=
  fun s _ a head hs hb ha hh => h rule head (hb.instantiate (hv.normal s · hs) (hi a ha) hh) s hs

theorem emitHeads_ends (hc : AcceptsOver K P E view consume i rule) {b : Bindings} (hb : b.Over K) :
    Within P E (emitHeads view i rule consume b) := by
  refine .forM fun a ha s hs => Ends.bind_iff.mpr ?_
  simp only [Ends, Eval.reads]
  cases hh : b.instantiate (view.classes s) rule a with
  | ok head => exact hc s b a head hs hb ha hh
  | error f => exact hE s f hs (Bindings.broken_of_instantiate hh)

include ho hv

/-- A rule hands on instances of its heads over `K`. -/
theorem derive_ends (hc : AcceptsOver K P E view consume i rule) (steps : List Step) {b : Bindings}
    (hb : b.Over K) {matched : List Match} (hm : ∀ m ∈ matched, Q m.row m.fact) :
    Within P E (derive view i rule consume steps b matched) := by
  refine .discard fun s hs => ?_
  refine (View.run_ends hE ho hv (A := fun _ => True) (fun b _ _ s hs hb _ _ => ?_) steps hs hb hm
    trivial).mono (fun _ _ h => h.1) fun _ _ => id
  exact Ends.bind_iff.mpr ((emitHeads_ends hE hc hb s hs).mono (fun _ _ hs' => ⟨hs', trivial⟩) fun _ _ => id)

theorem applyToPositive_ends {row : RowIndex} {t : Triple} {scope : Scope} (hrow : Q row t) (ht : t.Over K)
    (hc : ∀ i rule, (i, rule) ∈ x.inScope scope → AcceptsOver K P E view consume i rule) :
    Within P E (x.applyToPositive view row t scope consume) := by
  refine .forM fun (i, rule) hi => .forM fun (l, pivot) _ => ?_
  cases l with
  | negative atoms => exact .pure ()
  | positive a =>
    refine fun s hs => Ends.bind_iff.mpr ?_
    refine (View.bind_ends hE hs (Bindings.over_free _) ht).mono (fun bound s' h => ?_) fun _ _ => id
    cases bound with
    | none => exact h.1
    | some b =>
      refine derive_ends hE ho hv (hc i rule hi) _ (h.2 b rfl) (fun m hm => ?_) s' h.1
      obtain rfl := List.mem_singleton.mp hm
      exact hrow

theorem applyToNegation_ends {t : Triple} {scope : Scope} (ht : t.Over K)
    (hc : ∀ i rule, (i, rule) ∈ x.inScope scope → AcceptsOver K P E view consume i rule) :
    Within P E (x.applyToNegation view t scope consume) := by
  refine .forM fun (i, rule) hi => .forM fun (l, pivot) _ => ?_
  cases l with
  | positive a => exact .pure ()
  | negative atoms =>
    refine .forM fun (a, place) _ s hs => Ends.bind_iff.mpr ?_
    refine (View.bind_ends hE hs (Bindings.over_free _) ht).mono (fun bound s' h => ?_) fun _ _ => id
    cases bound with
    | none => exact h.1
    | some b => exact derive_ends hE ho hv (hc i rule hi) _ (h.2 b rfl) (by simp) s' h.1

theorem evaluateRule_ends
    (hc : ∀ i, x.rules[rule]? = some i → AcceptsOver K P E view consume i rule) :
    Within P E (x.evaluateRule view rule consume) := by
  rw [evaluateRule]
  split
  · exact .throw fun s hs => hE s _ hs trivial
  · exact derive_ends hE ho hv (hc _ ‹_›) _ (Bindings.over_free _) (by simp)

omit hv in
theorem applyToPositive_within {row : RowIndex} {t : Triple} {scope : Scope}
    (hc : ∀ i rule, (i, rule) ∈ x.inScope scope → AcceptsHeads P E view consume i rule) :
    Within P E (x.applyToPositive view row t scope consume) :=
  applyToPositive_ends hE ho View.shows_true trivial (fun _ => trivial) fun i rule hi => (hc i rule hi).over

omit hv in
theorem applyToNegation_within {t : Triple} {scope : Scope}
    (hc : ∀ i rule, (i, rule) ∈ x.inScope scope → AcceptsHeads P E view consume i rule) :
    Within P E (x.applyToNegation view t scope consume) :=
  applyToNegation_ends hE ho View.shows_true (fun _ => trivial) fun i rule hi => (hc i rule hi).over

omit hv in
theorem evaluateRule_within
    (hc : ∀ i, x.rules[rule]? = some i → AcceptsHeads P E view consume i rule) :
    Within P E (x.evaluateRule view rule consume) :=
  evaluateRule_ends hE ho View.shows_true fun i hi => (hc i hi).over

omit hv in
/-- The facts that a whole rule derives are found without changing the state. -/
theorem consequences_within : Within P E (x.consequences view rule) := by
  rw [consequences]
  split
  · exact .throw fun s hs => hE s _ hs trivial
  · refine .bind (fun s hs => ?_) fun _ => .pure _
    refine (View.run_ends hE ho View.shows_true (A := fun _ => True) (fun b _ acc s hs _ _ _ => ?_) _ hs
      (Bindings.over_free _) (by simp) trivial).mono (fun _ _ h => h.1) fun _ _ => id
    refine Ends.bind_iff.mpr ((Within.mapM (P := P) (fun a _ => .evalReads fun s _ hs h => ?_) s hs).mono
      (fun _ _ hs' => ⟨hs', trivial⟩) fun _ _ => id)
    exact hE s _ hs (Bindings.broken_of_instantiate h)

/-! ## Support -/

/-- The facts of the ways in which a head derives a fact are rows that the view shows. -/
theorem searchSupport_ends {h : HeadRef} {t : Triple} {acc : β} {f : List Match → β → ForInStep β}
    {A : β → Prop} (hf : ∀ matched acc, (∀ m ∈ matched, Q m.row m.fact) → A acc → A (f matched acc).value)
    (ht : t.Over K) (hacc : A acc) {s : σ} (hs : P s) :
    Ends (x.searchSupport view h t acc f) s (fun step s' => P s' ∧ A step.value) E := by
  rw [searchSupport]
  split
  · exact hE s _ hs trivial
  split
  · exact hE s _ hs trivial
  refine Ends.bind_iff.mpr ((View.bind_ends hE hs (Bindings.over_free _) ht).mono (fun bound s' hbound => ?_)
    fun _ _ => id)
  cases bound with
  | none => exact ⟨hbound.1, hacc⟩
  | some b =>
    exact View.run_ends hE ho hv (A := A) (fun _ matched acc _ hs _ hm hacc =>
      Ends.pure_iff.mpr ⟨hs, hf matched acc hm hacc⟩) _ hbound.1 (hbound.2 b rfl) (by simp) hacc

theorem supportingInstances_ends {h : HeadRef} {t : Triple} (ht : t.Over K) {s : σ} (hs : P s) :
    Ends (x.supportingInstances view h t) s
      (fun found s' => P s' ∧ ∀ way ∈ found, ∀ m ∈ way, Q m.row m.fact) E := by
  refine Ends.bind_iff.mpr ((searchSupport_ends hE ho hv
    (A := fun acc : Array (List Match) => ∀ way ∈ acc.toList, ∀ m ∈ way, Q m.row m.fact)
    (fun matched acc hm hacc way hway => ?_) ht (by simp) hs).mono (fun _ _ h => h) fun _ _ => id)
  change way ∈ (acc.push matched).toList at hway
  rw [Array.toList_push, List.mem_append, List.mem_singleton] at hway
  rcases hway with hway | rfl
  · exact hacc way hway
  · exact hm

omit hv in
theorem supportingInstances_within (h : HeadRef) (t : Triple) :
    Within P E (x.supportingInstances view h t) := fun _ hs =>
  (supportingInstances_ends hE ho View.shows_true (fun _ => trivial) hs).mono (fun _ _ h => h.1) fun _ _ => id

omit hv in
theorem hasSupportingInstance_within (h : HeadRef) (t : Triple) :
    Within P E (x.hasSupportingInstance view h t) := by
  refine .bind (fun s hs => ?_) fun _ => .pure _
  exact (searchSupport_ends hE ho View.shows_true (A := fun _ => True) (fun _ _ _ _ => trivial)
    (fun _ => trivial) trivial hs).mono (fun _ _ h => h.1) fun _ _ => id

omit hE ho hv in
theorem headsFor_within (t : Triple) :
    Within P E (Eval.reads fun s => .ok (x.headsFor (view.classes s) t)) :=
  .evalReads fun _ _ _ h => by cases h

omit hv in
theorem isDerivable_within (t : Triple) : Within P E (x.isDerivable view t) :=
  .bind (headsFor_within t) fun _ => .anyM fun h _ => hasSupportingInstance_within hE ho h t

omit hv in
theorem provedNonrecursively_within (t : Triple) (scope : Scope) :
    Within P E (x.provedNonrecursively view t scope) := by
  refine .ite (fun _ => .pure false) fun _ => .bind (headsFor_within t) fun _ => .anyM fun h _ => ?_
  rw [derivedNonrecursively]
  split
  · exact .pure false
  · exact .ite (fun _ => hasSupportingInstance_within hE ho h t) fun _ => .pure false

end RuleIndex

end

end Entail
