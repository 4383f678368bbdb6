import Entail.Proofs.Invariant
import Entail.Proofs.Rule.Evaluation
import Entail.Proofs.Rule.Index

/-!
# What the application of rules finds

For rules with simple negation: `RuleIndex.apply_handles` says which facts are passed to the consumer
when rules are applied forward from a fact, through a positive or through a negated literal
(`RuleIndex.Emits`), and `consequences_spec` which facts a whole rule derives. Backward from a fact,
`isDerivable_spec` and `supportingInstances_spec` say what the search for support finds
(`RuleIndex.Supports`).
-/

namespace Entail

namespace Eval

variable {σ α : Type} {Inv : σ → Prop} {Done : Triple → σ → Prop} {H H' : Triple → Prop}

/-- Where `Inv` holds, a computation keeps it and leaves `Done` for the facts in `H`. What was done
stays done. -/
def Handles (Inv : σ → Prop) (Done : Triple → σ → Prop) (x : Eval σ PUnit) (H : Triple → Prop) :
    Prop :=
  ∀ s, Inv s → WP x s fun _ s' =>
    Inv s' ∧ (∀ t, H t → Done t s') ∧ ∀ t, Done t s → Done t s'

theorem Handles.mono {x : Eval σ PUnit} (h : Handles Inv Done x H) (hH : ∀ t, H' t → H t) :
    Handles Inv Done x H' := fun s hs =>
  (h s hs).mono fun _ _ ⟨hi, hd, hk⟩ => ⟨hi, fun t ht => hd t (hH t ht), hk⟩

theorem Handles.pure (h : ∀ t, ¬ H t) : Handles Inv Done (Pure.pure PUnit.unit) H := fun _ hs =>
  WP.pure_iff.mpr ⟨hs, fun t ht => absurd ht (h t), fun _ => id⟩

theorem Handles.forM {l : List α} {f : α → Eval σ PUnit} {H : α → Triple → Prop}
    (h : ∀ a ∈ l, Handles Inv Done (f a) (H a)) :
    Handles Inv Done (l.forM f) fun t => ∃ a ∈ l, H a t := by
  intro s hs
  refine (WP.forM (fun s' => Inv s' ∧ ∀ t, Done t s → Done t s')
    (fun a s' => ∀ t, H a t → Done t s') ?_ ⟨hs, fun _ => id⟩).mono ?_
  · rintro a ha s₁ ⟨hs₁, hk₁⟩
    refine (h a ha s₁ hs₁).mono ?_
    rintro _ s₂ ⟨hs₂, hd, hk⟩
    exact ⟨⟨hs₂, fun t ht => hk t (hk₁ t ht)⟩, hd, fun b _ hb t ht => hk t (hb t ht)⟩
  · rintro _ s' ⟨⟨hs', hk⟩, hd⟩
    exact ⟨hs', fun t ⟨a, ha, ht⟩ => hd a ha t ht, hk⟩

end Eval

namespace RuleIndex

variable {σ : Type} {view : View σ} {n : Snapshot} {Inv : σ → Prop} {Done : Triple → σ → Prop}
  {x : RuleIndex} {i : IndexedRule} {rule : Nat} {consume : Nat → Triple → Eval σ Unit}

theorem mapM_reads_eq {α β : Type} {l : List α} {f : α → σ → Except Failure β} {g : α → β} {s : σ}
    (h : ∀ a ∈ l, f a s = .ok (g a)) : l.mapM (fun a => Eval.reads (f a)) s = .ok (l.map g) s := by
  induction l with
  | nil => rfl
  | cons a l ih =>
    rw [List.mapM_cons]
    refine bind_eq_ok.mpr ⟨g a, s, ?_, bind_eq_ok.mpr
      ⟨_, s, ih fun b hb => h b (List.mem_cons_of_mem _ hb), rfl⟩⟩
    rw [Eval.reads, h a List.mem_cons_self]

theorem anyM_spec {α : Type} {l : List α} {f : α → Eval σ Bool} {P : α → Prop} {s : σ}
    (h : ∀ a ∈ l, ∃ b, f a s = .ok b s ∧ (b = true ↔ P a)) :
    ∃ b, l.anyM f s = .ok b s ∧ (b = true ↔ ∃ a ∈ l, P a) := by
  induction l with
  | nil => exact ⟨false, rfl, by simp⟩
  | cons a l ih =>
    obtain ⟨b, hb, hP⟩ := h a List.mem_cons_self
    cases b with
    | true =>
      exact ⟨true, bind_eq_ok.mpr ⟨true, s, hb, rfl⟩,
        ⟨fun _ => ⟨a, List.mem_cons_self, hP.mp rfl⟩, fun _ => rfl⟩⟩
    | false =>
      obtain ⟨b', hb', hP'⟩ := ih fun c hc => h c (List.mem_cons_of_mem _ hc)
      refine ⟨b', bind_eq_ok.mpr ⟨false, s, hb, hb'⟩, ?_⟩
      have hna : ¬ P a := by simpa using hP
      simp [hP', hna]

theorem foldl_append_toArray {α β : Type} (f : α → List β) (l : List α) (acc : Array β) :
    l.foldl (fun acc a => acc ++ (f a).toArray) acc = acc ++ (l.flatMap f).toArray := by
  induction l generalizing acc with
  | nil => simp
  | cons a l ih =>
    rw [List.foldl_cons, ih]
    simp

/-! ## Forward -/

section derive

variable (ho : view.observe = none) (hInv : ∀ s, Inv s → view.snapshot s = n)

include hInv in
/-- The heads of a rule under bindings that bind their variables. -/
theorem emitHeads_handles {b : Bindings} (hb : ∀ a ∈ i.rule.head, ∀ v ∈ a.vars, b.Binds v)
    (hc : ∀ τ t, b.Agrees τ → i.rule.Concludes n.classes τ t →
      Eval.Handles Inv Done (consume rule t) (· = t)) :
    Eval.Handles Inv Done (emitHeads view i rule consume b) fun t =>
      ∃ τ, b.Agrees τ ∧ i.rule.Concludes n.classes τ t := by
  obtain ⟨τ, hτ⟩ := b.exists_agrees
  refine (Eval.Handles.forM (H := fun a t => t = a.groundIn n.classes τ) fun a ha => ?_).mono ?_
  · intro s hs
    have he : b.instantiate (view.classes s) rule a = .ok (a.groundIn n.classes τ) := by
      rw [← hInv s hs]
      exact Bindings.instantiate_eq hτ (hb a ha)
    rw [WP.bind_iff, WP.reads_iff]
    exact ⟨_, he, hc τ _ hτ ⟨a, ha, rfl⟩ s hs⟩
  · rintro _ ⟨τ', hτ', a, ha, rfl⟩
    refine ⟨a, ha, Atom.groundIn_congr fun v hv => ?_⟩
    exact hτ'.eq_of_binds hτ (hb a ha v hv)

include ho hInv in
/-- The heads of a rule are passed on for one match of some steps after the other. -/
theorem derive_eq {steps : List Step} {b : Bindings} {matched : List Match}
    (ha : ∀ step ∈ steps, ∀ a ∈ step.atoms, b.Scopes a)
    (hkeep : ∀ p ∈ n.solutions (occurrence i rule) steps b matched,
      Preserves Inv (emitHeads view i rule consume p.1)) {s : σ} (hs : Inv s) :
    derive view i rule consume steps b matched s =
      ((n.solutions (occurrence i rule) steps b matched).forM fun p =>
        emitHeads view i rule consume p.1) s := by
  have hrun := View.run_eq Inv ho hInv (occurrence i rule)
    (f := fun b _ _ => do emitHeads view i rule consume b; pure (.yield ())) steps b matched ()
    (fun p hmem _ s r s' hs h => by
      obtain ⟨_, s₁, h₁, h⟩ := bind_eq_ok.mp h
      cases h
      exact hkeep p hmem s hs _ _ h₁) ha hs
  rw [Eval.foldUntil_yield (fun p : Bindings × List Match => emitHeads view i rule consume p.1)] at hrun
  generalize (n.solutions (occurrence i rule) steps b matched).forM
    (fun p => emitHeads view i rule consume p.1) = emitAll at hrun ⊢
  rw [derive, search, show ∀ y : Eval σ (ForInStep Unit), discard y = y >>= fun _ => pure .unit from
    map_eq_pure_bind _]
  simp only [Bind.bind, EStateM.bind] at hrun ⊢
  rw [hrun]
  cases emitAll s <;> rfl

include ho hInv in
/-- The heads of a rule for every match of some steps. -/
theorem derive_handles {steps : List Step} {b : Bindings} {B : Nat → Prop} {matched : List Match}
    (ha : ∀ step ∈ steps, ∀ a ∈ step.atoms, b.Scopes a) (hg : Grounded steps b B)
    (hb : ∀ a ∈ i.rule.head, ∀ v ∈ a.vars, B v)
    (hc : ∀ τ t, b.Agrees τ → (∀ step ∈ steps, n.Admits (occurrence i rule) B τ step) →
      i.rule.Concludes n.classes τ t → Eval.Handles Inv Done (consume rule t) (· = t)) :
    Eval.Handles Inv Done (derive view i rule consume steps b matched) fun t =>
      ∃ τ, b.Agrees τ ∧ (∀ step ∈ steps, n.Admits (occurrence i rule) B τ step) ∧
        i.rule.Concludes n.classes τ t := by
  have hemit : ∀ p ∈ n.solutions (occurrence i rule) steps b matched,
      Eval.Handles Inv Done (emitHeads view i rule consume p.1) fun t =>
        ∃ τ, p.1.Agrees τ ∧ i.rule.Concludes n.classes τ t := by
    intro p hmem
    obtain ⟨⟨more, -, hall⟩, hbinds⟩ := Snapshot.Solves.of_mem ha hg hmem
    exact emitHeads_handles hInv (fun a h v hv => hbinds v (hb a h v hv)) fun τ t hτ ht =>
      hc τ t (hall τ hτ).1 (Snapshot.exists_follows_iff.mp ⟨more, (hall τ hτ).2⟩) ht
  intro s hs
  have hkeep : ∀ p ∈ n.solutions (occurrence i rule) steps b matched,
      Preserves Inv (emitHeads view i rule consume p.1) := fun p hmem s hs _ _ h =>
    ((hemit p hmem s hs).result h).1
  obtain ⟨_, s', hx, hi, hd, hk⟩ := Eval.Handles.forM hemit s hs
  refine .of_eq ((derive_eq ho hInv ha hkeep hs).trans hx) ⟨hi, fun t ⟨τ, hτ, hsteps, ht⟩ => ?_, hk⟩
  obtain ⟨more, hmore⟩ := Snapshot.exists_follows_iff.mpr hsteps
  obtain ⟨b', hmem, hb'⟩ := Snapshot.exists_solution ha hg hτ hmore matched
  exact hd t ⟨_, hmem, τ, hb', ht⟩

include ho hInv in
/-- The heads of a rule for every match of some steps, after an atom was matched with a fact. -/
theorem bindDerive_handles {a : Atom} {t : Triple} {steps : List Step} {B : Nat → Prop}
    {matched : List Match}
    (hfree : (Bindings.free i.rule.names.length).Scopes a)
    (ha : ∀ step ∈ steps, ∀ c ∈ step.atoms, (Bindings.free i.rule.names.length).Scopes c)
    (hg : ∀ b : Bindings, (∀ v, b.Binds v ↔ v ∈ a.vars) → Grounded steps b B)
    (hb : ∀ c ∈ i.rule.head, ∀ v ∈ c.vars, B v)
    (hc : ∀ τ head, a.groundIn n.classes τ = t →
      (∀ step ∈ steps, n.Admits (occurrence i rule) B τ step) → i.rule.Concludes n.classes τ head →
        Eval.Handles Inv Done (consume rule head) (· = head)) :
    Eval.Handles Inv Done (do
        match ← view.bind (Bindings.free i.rule.names.length) a t with
        | none => pure ()
        | some b => derive view i rule consume steps b matched) fun head =>
      ∃ τ, a.groundIn n.classes τ = t ∧ (∀ step ∈ steps, n.Admits (occurrence i rule) B τ step) ∧
        i.rule.Concludes n.classes τ head := by
  intro s hs
  have hbind := View.bind_eq (hInv s hs) hfree t
  rw [WP.bind_iff]
  refine ⟨_, s, hbind, ?_⟩
  cases hb' : (Bindings.free i.rule.names.length).bound? n.classes a t with
  | none =>
    refine WP.pure_iff.mpr ⟨hs, ?_, fun _ => id⟩
    rintro head ⟨τ, ht, -⟩
    exact absurd ht (Bindings.groundIn_ne_of_bound? hfree hb' τ)
  | some b =>
    have hfits := Bindings.fits_of_bound? hfree hb'
    refine ((derive_handles ho hInv (fun step hstep c hc => (ha step hstep c hc).of_size hfits.size)
      (hg b fun _ => hfits.binds_iff) hb fun τ head hτ => hc τ head (hfits.agrees_iff.mp hτ)).mono ?_) s hs
    rintro head ⟨τ, ht, h⟩
    exact ⟨τ, hfits.agrees_iff.mpr ht, h⟩

end derive

/-! ### The steps of a body -/

/-- The step that matches a literal, by the role of each number of a literal. -/
def stepOf (positive negative : Nat → Role) (l : Literal) (k : Nat) : Step :=
  match l with
  | .positive a => .find a k (positive k)
  | .negative atoms => .absent atoms k (negative k)

/-- The steps that match those literals of a body whose numbers are not left out. -/
def stepsOf (positive negative : Nat → Role) (keep : Nat → Bool) (body : List Literal) : List Step :=
  (body.zipIdx.filter fun (_, k) => keep k).map fun (l, k) => stepOf positive negative l k

section steps

variable {positive negative : Nat → Role} {keep : Nat → Bool} {body : List Literal} {step : Step}

theorem mem_stepsOf : step ∈ stepsOf positive negative keep body ↔
    ∃ k l, body[k]? = some l ∧ keep k = true ∧ step = stepOf positive negative l k := by
  simp only [stepsOf, List.mem_map, List.mem_filter, Prod.exists, List.mem_zipIdx_iff_getElem?]
  constructor
  · rintro ⟨l, k, ⟨hk, hkeep⟩, rfl⟩
    exact ⟨k, l, hk, hkeep, rfl⟩
  · rintro ⟨k, l, hk, hkeep, rfl⟩
    exact ⟨l, k, ⟨hk, hkeep⟩, rfl⟩

variable (hd : i.rule.Safe)

include hd

/-- The variables of the positive literals have values when it is the turn of the negated ones: those of
the literals that were left out have theirs from before. -/
theorem grounded_stepsOf {b : Bindings} (hb : ∀ v, b.Binds v → v ∈ Rule.boundVariables i.rule.body)
    (hleft : ∀ k a, i.rule.body[k]? = some (.positive a) → keep k = false → ∀ v ∈ a.vars, b.Binds v) :
    Grounded (stepsOf positive negative keep i.rule.body) b
      (· ∈ Rule.boundVariables i.rule.body) := by
  refine ⟨List.pairwise_map.mpr (List.Pairwise.filter _ ?_), fun v => ⟨fun hv => ?_, ?_⟩⟩
  · have hordered := hd.ordered
    rw [← List.zipIdx_map_fst 0 i.rule.body, List.pairwise_map] at hordered
    refine hordered.imp ?_
    rintro ⟨l, k⟩ ⟨l', k'⟩ h
    cases l <;> cases l' <;> exact h
  · obtain ⟨a, ha, hv⟩ := Rule.mem_boundVariables.mp hv
    obtain ⟨k, hk⟩ := List.mem_iff_getElem?.mp ha
    cases hkeep : keep k with
    | false => exact .inl (hleft k a hk hkeep v hv)
    | true => exact .inr ⟨a, k, positive k, mem_stepsOf.mpr ⟨k, _, hk, hkeep, rfl⟩, hv⟩
  · rintro (hv | ⟨a, l, r, hmem, hv⟩)
    · exact hb v hv
    · obtain ⟨k, l', hk, -, he⟩ := mem_stepsOf.mp hmem
      cases l' with
      | positive c =>
        cases he
        exact Rule.mem_boundVariables.mpr ⟨a, List.mem_of_getElem? hk, hv⟩
      | negative as => cases he

/-- Every atom of a body has a place for each of its variables. -/
theorem scopes_stepsOf {b : Bindings} (hb : b.size = i.rule.names.length)
    (hstep : step ∈ stepsOf positive negative keep i.rule.body) {a : Atom} (ha : a ∈ step.atoms) :
    b.Scopes a := fun v hv => by
  obtain ⟨k, l, hk, -, rfl⟩ := mem_stepsOf.mp hstep
  rw [hb]
  refine hd.named a (List.mem_append_right _ (List.mem_flatMap.mpr
    ⟨l, List.mem_of_getElem? hk, ?_⟩)) v hv
  cases l <;> exact ha

theorem scopes_of_head {b : Bindings} (hb : b.size = i.rule.names.length) {a : Atom}
    (ha : a ∈ i.rule.head) : b.Scopes a := fun v hv => by
  rw [hb]
  exact hd.named a (List.mem_append_left _ ha) v hv

omit hd in
/-- An assignment is right for the steps if the premises count as present and the negated literals have
no match. -/
theorem admits_stepsOf_iff {B : Nat → Prop} {τ : Assignment} :
    (∀ step ∈ stepsOf positive negative keep i.rule.body, n.Admits (occurrence i rule) B τ step) ↔
      (∀ k u, keep k = true → i.rule.Premise n.classes τ k u →
        n.Present (positive k) (occurrence i rule k) u) ∧
      ∀ k atoms, keep k = true → i.rule.body[k]? = some (.negative atoms) →
        n.Absent (negative k) (occurrence i rule k) B τ atoms := by
  constructor
  · intro h
    refine ⟨?_, fun k atoms hkeep hk => h _ (mem_stepsOf.mpr ⟨k, _, hk, hkeep, rfl⟩)⟩
    rintro k _ hkeep ⟨a, ha, rfl⟩
    exact h _ (mem_stepsOf.mpr ⟨k, _, ha, hkeep, rfl⟩)
  · rintro ⟨hp, hn⟩ step hstep
    obtain ⟨k, l, hk, hkeep, rfl⟩ := mem_stepsOf.mp hstep
    cases l with
    | positive a => exact hp k _ hkeep ⟨a, hk, rfl⟩
    | negative as => exact hn k as hkeep hk

end steps

/-- Where negated literals are single atoms whose variables have values, one has no match if the fact
that it is about does not count as present. -/
theorem forall_absent_iff (hd : i.rule.Simple) {τ : Assignment} {k : Nat} {role : Role}
    {o : Occurrence} :
    (∀ atoms, i.rule.body[k]? = some (.negative atoms) →
      n.Absent role o (· ∈ Rule.boundVariables i.rule.body) τ atoms) ↔
      ∀ u, i.rule.Blocker n.classes τ k u → ¬ n.Present role o u := by
  constructor
  · rintro h _ ⟨a, ha, rfl⟩
    obtain ⟨b, hb, hn⟩ := h [a] ha τ fun _ _ => rfl
    rwa [List.mem_singleton.mp hb] at hn
  · intro h atoms hk τ' hτ'
    obtain ⟨a, rfl, hvars⟩ := hd.single atoms (List.mem_of_getElem? hk)
    refine ⟨a, List.mem_singleton.mpr rfl, ?_⟩
    rw [Atom.groundIn_congr fun v hv => hτ' v (hvars v hv)]
    exact h _ ⟨a, hk, rfl⟩

theorem wholeBody_eq (body : List Literal) (positive negative : Role) :
    wholeBody body positive negative =
      stepsOf (fun _ => positive) (fun _ => negative) (fun _ => true) body := by
  rw [stepsOf, List.filter_true]
  refine List.map_congr_left ?_
  rintro ⟨l, k⟩ -
  cases l <;> rfl

/-! ### Facts that set off rules -/

/-- Whether a fact sets off a rule through a positive or through a negated literal. -/
inductive Polarity where
  | positive
  | negative

namespace Polarity

/-- The role of a positive literal around the pivot. -/
def positiveRole (pivot k : Nat) : Polarity → Role
  | positive => if k < pivot then .positiveBeforePivot else .positiveAfterPivot
  | negative => .positiveBeforePivot

/-- The role of a negated literal around the pivot. -/
def negativeRole (pivot k : Nat) : Polarity → Role
  | positive => .negativeAtOrAfterPivot
  | negative => if pivot < k then .negativeAtOrAfterPivot else .negativeSingleAtomBeforePivot

/-- An assignment turns the literal with number `k`, which is of the polarity, into a fact. -/
def Reads (r : Rule) (classes : Option Classes) (σ : Assignment) (k : Nat) (t : Triple) :
    Polarity → Prop
  | positive => r.Premise classes σ k t
  | negative => r.Blocker classes σ k t

/-- A fact may take part in an instance whose premises have one property and whose blockers do not have
another. -/
def Allows (P N : Triple → Prop) (t : Triple) : Polarity → Prop
  | positive => P t
  | negative => ¬ N t

/-- Applies the rules of a scope to a fact that matches literals of the polarity. -/
def apply (x : RuleIndex) (view : View σ) (row : RowIndex) (t : Triple) (scope : Scope)
    (consume : Nat → Triple → Eval σ Unit) : Polarity → Eval σ Unit
  | positive => x.applyToPositive view row t scope consume
  | negative => x.applyToNegation view t scope consume

/-- Applies one rule to a fact that matches a literal, if that is of the polarity. -/
def applyAt (view : View σ) (row : RowIndex) (t : Triple) (consume : Nat → Triple → Eval σ Unit)
    (r : IndexedRule) (rule : Nat) (l : Literal) (pivot : Nat) : Polarity → Eval σ Unit
  | positive => applyAtPositive view row t consume r rule l pivot
  | negative => applyAtNegation view t consume r rule l pivot

end Polarity

/-- The steps around a pivot. -/
def stepsFor (p : Polarity) (pivot : Nat) (body : List Literal) : List Step :=
  stepsOf (fun k => p.positiveRole pivot k) (fun k => p.negativeRole pivot k) (· != pivot) body

theorem stepsAround_eq (body : List Literal) (pivot : Nat) :
    stepsAround body pivot = stepsFor .positive pivot body := by
  refine List.map_congr_left ?_
  rintro ⟨l, k⟩ -
  cases l <;> rfl

theorem stepsAroundNegation_eq (hd : i.rule.Simple) (pivot : Nat) (a : Atom) :
    stepsAroundNegation i.rule.body pivot [a] 0 = stepsFor .negative pivot i.rule.body := by
  refine List.map_congr_left ?_
  rintro ⟨l, k⟩ hl
  cases l with
  | positive b => rfl
  | negative as =>
    have hmem := List.mem_zipIdx_iff_getElem?.mp (List.mem_filter.mp hl).1
    obtain ⟨b, rfl, -⟩ := hd.single as (List.mem_of_getElem? hmem)
    rfl

/-- A rule derives a fact when `t` takes the place of its literal `pivot`, the other positive literals
find what counts as present, and the other negated ones find nothing. -/
def EmitsAt (n : Snapshot) (p : Polarity) (i : IndexedRule) (rule pivot : Nat) (t head : Triple) : Prop :=
  ∃ τ, p.Reads i.rule n.classes τ pivot t ∧
    (∀ k u, k ≠ pivot → i.rule.Premise n.classes τ k u →
      n.Present (p.positiveRole pivot k) (occurrence i rule k) u) ∧
    (∀ k u, k ≠ pivot → i.rule.Blocker n.classes τ k u →
      ¬ n.Present (p.negativeRole pivot k) (occurrence i rule k) u) ∧
    i.rule.Concludes n.classes τ head

/-- A rule of a scope derives a fact when `t` takes the place of one of its literals. -/
def Emits (x : RuleIndex) (n : Snapshot) (scope : Scope) (p : Polarity) (t head : Triple) : Prop :=
  ∃ i rule pivot, (i, rule) ∈ x.inScope scope ∧ EmitsAt n p i rule pivot t head

/-- One rule is applied to a fact that was matched with an atom of the pivot. -/
theorem around_handles (ho : view.observe = none) (hInv : ∀ s, Inv s → view.snapshot s = n)
    (hd : i.rule.Simple) {p : Polarity} {pivot : Nat} {a : Atom} {t : Triple} {matched : List Match}
    (hnamed : a ∈ i.rule.atoms)
    (hreads : ∀ τ, p.Reads i.rule n.classes τ pivot t ↔ a.groundIn n.classes τ = t)
    (hbound : ∀ b, i.rule.body[pivot]? = some (.positive b) → b = a)
    (hvars : ∀ v ∈ a.vars, v ∈ Rule.boundVariables i.rule.body)
    (hc : ∀ head, EmitsAt n p i rule pivot t head →
      Eval.Handles Inv Done (consume rule head) (· = head)) :
    Eval.Handles Inv Done (do
        match ← view.bind (Bindings.free i.rule.names.length) a t with
        | none => pure ()
        | some b => derive view i rule consume (stepsFor p pivot i.rule.body) b matched)
      (EmitsAt n p i rule pivot t) := by
  have hfree := Bindings.size_free i.rule.names.length
  have hkeep : ∀ k, (k != pivot) = true ↔ k ≠ pivot := fun k => bne_iff_ne
  have hleft : ∀ k b, i.rule.body[k]? = some (.positive b) → (k != pivot) = false →
      ∀ v ∈ b.vars, v ∈ a.vars := fun k b hk hkp v hv => by
    obtain rfl : k = pivot := by simpa using hkp
    rwa [← hbound b hk]
  have hblockers : ∀ τ, (∀ k atoms, k ≠ pivot → i.rule.body[k]? = some (.negative atoms) →
      n.Absent (p.negativeRole pivot k) (occurrence i rule k) (· ∈ Rule.boundVariables i.rule.body) τ
        atoms) ↔ ∀ k u, k ≠ pivot → i.rule.Blocker n.classes τ k u →
          ¬ n.Present (p.negativeRole pivot k) (occurrence i rule k) u := fun τ => by
    constructor
    · exact fun h k u hk => (forall_absent_iff hd).mp (fun atoms => h k atoms hk) u
    · exact fun h k atoms hk => (forall_absent_iff hd).mpr (fun u => h k u hk) atoms
  have hiff : ∀ head, EmitsAt n p i rule pivot t head ↔ ∃ τ, a.groundIn n.classes τ = t ∧
      (∀ step ∈ stepsFor p pivot i.rule.body,
        n.Admits (occurrence i rule) (· ∈ Rule.boundVariables i.rule.body) τ step) ∧
      i.rule.Concludes n.classes τ head := fun head => by
    simp only [EmitsAt, stepsFor, admits_stepsOf_iff, hblockers, hkeep, hreads, and_assoc]
  refine (bindDerive_handles ho hInv (fun v hv => ?_) (fun step hstep c hc => ?_)
    (fun b hb => grounded_stepsOf hd.safe (fun v hv => hvars v ((hb v).mp hv))
      fun k c hk hkp v hv => (hb v).mpr (hleft k c hk hkp v hv))
    (fun c hc v hv => ?_) fun τ head ht hsteps hhead => ?_).mono fun head => (hiff head).mp
  · rw [hfree]
    exact hd.safe.named a hnamed v hv
  · exact scopes_stepsOf hd.safe hfree hstep hc
  · exact Rule.mem_boundVariables.mpr (hd.safe.bound c hc v hv)
  · exact hc head ((hiff head).mpr ⟨τ, ht, hsteps, hhead⟩)

/-- One rule is applied to a fact in place of one literal. -/
theorem applyAt_handles (ho : view.observe = none) (hInv : ∀ s, Inv s → view.snapshot s = n)
    (hd : i.rule.Simple) {l : Literal} {pivot : Nat} (hl : i.rule.body[pivot]? = some l)
    (p : Polarity) (row : RowIndex) {t : Triple}
    (hc : ∀ head, EmitsAt n p i rule pivot t head →
      Eval.Handles Inv Done (consume rule head) (· = head)) :
    Eval.Handles Inv Done (p.applyAt view row t consume i rule l pivot)
      (EmitsAt n p i rule pivot t) := by
  have hnamed : ∀ a ∈ l.atoms, a ∈ i.rule.atoms := fun a ha =>
    List.mem_append_right _ (List.mem_flatMap.mpr ⟨l, List.mem_of_getElem? hl, ha⟩)
  cases p with
  | positive =>
    cases l with
    | negative as =>
      refine Eval.Handles.pure ?_
      rintro head ⟨τ, ⟨a, ha, -⟩, -⟩
      rw [hl] at ha
      cases ha
    | positive a =>
      have hreads : ∀ τ, Polarity.positive.Reads i.rule n.classes τ pivot t ↔
          a.groundIn n.classes τ = t := fun τ => by
        simp only [Polarity.Reads, Rule.Premise, hl, Option.some.injEq, Literal.positive.injEq,
          exists_eq_left']
      rw [Polarity.applyAt, applyAtPositive, stepsAround_eq]
      refine around_handles ho hInv hd (hnamed a (List.mem_singleton.mpr rfl)) hreads
        (fun b hb => ?_) (fun v hv => Rule.mem_boundVariables.mpr ⟨a, List.mem_of_getElem? hl, hv⟩) hc
      rw [hl] at hb
      cases hb
      rfl
  | negative =>
    cases l with
    | positive a =>
      refine Eval.Handles.pure ?_
      rintro head ⟨τ, ⟨b, hb, -⟩, -⟩
      rw [hl] at hb
      cases hb
    | negative as =>
      obtain ⟨a, rfl, hvars⟩ := hd.single as (List.mem_of_getElem? hl)
      have hreads : ∀ τ, Polarity.negative.Reads i.rule n.classes τ pivot t ↔
          a.groundIn n.classes τ = t := fun τ => by
        simp only [Polarity.Reads, Rule.Blocker, hl, Option.some.injEq, Literal.negative.injEq,
          List.cons.injEq, and_true, exists_eq_left']
      rw [Polarity.applyAt, applyAtNegation]
      refine (Eval.Handles.forM (H := fun _ => EmitsAt n .negative i rule pivot t) ?_).mono
        fun head hhead => ⟨(a, 0), List.mem_singleton.mpr rfl, hhead⟩
      rintro c hmem
      obtain rfl := List.mem_singleton.mp hmem
      dsimp only
      rw [stepsAroundNegation_eq hd]
      refine around_handles ho hInv hd (hnamed a (List.mem_singleton.mpr rfl)) hreads
        (fun b hb => ?_) hvars hc
      rw [hl] at hb
      cases hb

/-- Applying rules forward handles what they derive. -/
theorem apply_handles (view : View σ) (Inv : σ → Prop) (Done : Triple → σ → Prop)
    (row : RowIndex) (scope : Scope) (consume : Nat → Triple → Eval σ Unit) (hx : x.Simple)
    (ho : view.observe = none) (hInv : ∀ s, Inv s → view.snapshot s = n) (p : Polarity) {t : Triple}
    (hc : ∀ rule head, x.Emits n scope p t head →
      Eval.Handles Inv Done (consume rule head) (· = head)) :
    Eval.Handles Inv Done (p.apply x view row t scope consume) (x.Emits n scope p t) := by
  have happ : p.apply x view row t scope consume = (x.inScope scope).forM fun q =>
      q.1.rule.body.zipIdx.forM fun l => p.applyAt view row t consume q.1 q.2 l.1 l.2 := by
    cases p <;> rfl
  rw [happ]
  refine (Eval.Handles.forM (H := fun q head => ∃ l ∈ q.1.rule.body.zipIdx,
    EmitsAt n p q.1 q.2 l.2 t head) fun q hq => Eval.Handles.forM fun l hl => ?_).mono ?_
  · exact applyAt_handles ho hInv (hx _ _ (mem_inScope.mp hq).1) (List.mem_zipIdx_iff_getElem?.mp hl)
      p row fun head hhead => hc q.2 head ⟨q.1, q.2, l.2, hq, hhead⟩
  · rintro head ⟨i, rule, pivot, hi, hhead⟩
    have hl : ∃ l, i.rule.body[pivot]? = some l := by
      obtain ⟨τ, hr, -⟩ := hhead
      cases p with
      | positive =>
        obtain ⟨a, ha, -⟩ := hr
        exact ⟨_, ha⟩
      | negative =>
        obtain ⟨a, ha, -⟩ := hr
        exact ⟨_, ha⟩
    obtain ⟨l, hl⟩ := hl
    exact ⟨(i, rule), hi, (l, pivot), List.mem_zipIdx_iff_getElem?.mpr hl, hhead⟩

/-! ### Whole rules -/

/-- Under an assignment the premises of a rule count as present, and its blockers do not. -/
structure Satisfies (n : Snapshot) (positive negative : Role) (i : IndexedRule) (rule : Nat)
    (τ : Assignment) : Prop where
  premises (k : Nat) (u : Triple) (h : i.rule.Premise n.classes τ k u) :
    n.Present positive (occurrence i rule k) u
  blockers (k : Nat) (u : Triple) (h : i.rule.Blocker n.classes τ k u) :
    ¬ n.Present negative (occurrence i rule k) u

/-- Under an assignment the premises of a rule count as present, and no negated literal has a match. -/
structure Fires (n : Snapshot) (positive negative : Role) (i : IndexedRule) (rule : Nat)
    (τ : Assignment) : Prop where
  premises (k : Nat) (u : Triple) (h : i.rule.Premise n.classes τ k u) :
    n.Present positive (occurrence i rule k) u
  unmatched : i.rule.Unmatched n.classes τ fun k u => n.Present negative (occurrence i rule k) u

theorem fires_iff {positive negative : Role} {τ : Assignment} (hd : i.rule.Simple) :
    Fires n positive negative i rule τ ↔ Satisfies n positive negative i rule τ :=
  ⟨fun h => ⟨h.premises, hd.unmatched_iff.mp h.unmatched⟩,
    fun h => ⟨h.premises, hd.unmatched_iff.mpr h.blockers⟩⟩

section wholeBody

variable (positive negative : Role)

theorem exists_follows_wholeBody_iff (i : IndexedRule) (rule : Nat) {τ : Assignment} :
    (∃ more, n.Follows (occurrence i rule) (· ∈ Rule.boundVariables i.rule.body) τ
      (wholeBody i.rule.body positive negative) more) ↔ Fires n positive negative i rule τ := by
  rw [Snapshot.exists_follows_iff, wholeBody_eq, admits_stepsOf_iff]
  exact ⟨fun h => ⟨fun k u => h.1 k u rfl, fun k atoms => h.2 k atoms rfl⟩,
    fun h => ⟨fun k u _ => h.premises k u, fun k atoms _ => h.unmatched k atoms⟩⟩

variable (hd : i.rule.Safe)

include hd

theorem grounded_wholeBody {b : Bindings} (hb : ∀ v, b.Binds v → v ∈ Rule.boundVariables i.rule.body) :
    Grounded (wholeBody i.rule.body positive negative) b (· ∈ Rule.boundVariables i.rule.body) := by
  rw [wholeBody_eq]
  exact grounded_stepsOf hd hb fun _ _ _ h => by cases h

theorem scopes_wholeBody {b : Bindings} (hb : b.size = i.rule.names.length) :
    ∀ step ∈ wholeBody i.rule.body positive negative, ∀ a ∈ step.atoms, b.Scopes a := by
  rw [wholeBody_eq]
  exact fun step hstep a => scopes_stepsOf hd hb hstep

theorem scopes_wholeBody_free :
    ∀ step ∈ wholeBody i.rule.body positive negative, ∀ a ∈ step.atoms,
      (Bindings.free i.rule.names.length).Scopes a :=
  scopes_wholeBody positive negative hd (Bindings.size_free _)

theorem grounded_wholeBody_free :
    Grounded (wholeBody i.rule.body positive negative) (Bindings.free i.rule.names.length)
      (· ∈ Rule.boundVariables i.rule.body) :=
  grounded_wholeBody positive negative hd fun _ hv => (Bindings.not_binds_free hv).elim

end wholeBody

/-- The heads of the matches of a whole rule, in the order of the matches and of the heads. -/
def emitted (n : Snapshot) (i : IndexedRule) (rule : Nat) : List Triple :=
  (n.solutions (occurrence i rule) (wholeBody i.rule.body .reevaluationPositive .reevaluationNegative)
    (Bindings.free i.rule.names.length) []).flatMap fun p =>
      i.rule.head.map fun a => a.groundIn n.classes p.1.toAssignment

/-- The heads of the matches are those of the instances that fire. -/
theorem mem_emitted_iff (hd : i.rule.Safe) {t : Triple} : t ∈ emitted n i rule ↔
    ∃ τ, i.rule.Concludes n.classes τ t ∧
      Fires n .reevaluationPositive .reevaluationNegative i rule τ := by
  have ha := scopes_wholeBody_free .reevaluationPositive .reevaluationNegative hd
  have hg := grounded_wholeBody_free .reevaluationPositive .reevaluationNegative hd
  simp only [emitted, List.mem_flatMap, List.mem_map]
  constructor
  · rintro ⟨p, hmem, a, hhead, rfl⟩
    obtain ⟨more, -, hall⟩ := (Snapshot.Solves.of_mem ha hg hmem).finds
    exact ⟨_, ⟨a, hhead, rfl⟩, (exists_follows_wholeBody_iff _ _ _ _).mp
      ⟨more, (hall _ p.1.agrees_toAssignment).2⟩⟩
  · rintro ⟨τ, ⟨a, hhead, rfl⟩, hall⟩
    obtain ⟨more, hmore⟩ := (exists_follows_wholeBody_iff _ _ _ _).mpr hall
    obtain ⟨b, hmem, hb⟩ := Snapshot.exists_solution ha hg (Bindings.agrees_free _ τ) hmore []
    refine ⟨_, hmem, a, hhead, Atom.groundIn_congr fun v hv => ?_⟩
    exact b.agrees_toAssignment.eq_of_binds hb ((Snapshot.Solves.of_mem ha hg hmem).binds v
      (Rule.mem_boundVariables.mpr (hd.bound a hhead v hv)))

/-- A whole rule derives the heads of its instances. -/
theorem consequences_spec (view : View σ) (hd : i.rule.Safe) (hi : x.rules[rule]? = some i)
    (ho : view.observe = none) {s : σ} (hs : view.snapshot s = n) :
    ∃ heads, x.consequences view rule s = .ok heads s ∧
      ∀ t, t ∈ heads ↔ ∃ τ, i.rule.Concludes n.classes τ t ∧
        Fires n .reevaluationPositive .reevaluationNegative i rule τ := by
  have ha := scopes_wholeBody_free .reevaluationPositive .reevaluationNegative hd
  have hg := grounded_wholeBody_free .reevaluationPositive .reevaluationNegative hd
  have hstep : ∀ p ∈ n.solutions (occurrence i rule)
      (wholeBody i.rule.body .reevaluationPositive .reevaluationNegative)
      (Bindings.free i.rule.names.length) [], ∀ acc : Array Triple, (do
      let heads ← i.rule.head.mapM fun a =>
        Eval.reads fun s => p.1.instantiate (view.classes s) rule a
      pure (.yield (acc ++ heads.toArray)) : Eval σ (ForInStep (Array Triple))) s =
        .ok (.yield (acc ++ (i.rule.head.map fun a =>
          a.groundIn n.classes p.1.toAssignment).toArray)) s := by
    intro p hmem acc
    refine bind_eq_ok.mpr ⟨_, s, mapM_reads_eq fun a hhead => ?_, rfl⟩
    rw [show view.classes s = n.classes by rw [← hs]; rfl]
    exact Bindings.instantiate_eq p.1.agrees_toAssignment fun v hv =>
      (Snapshot.Solves.of_mem ha hg hmem).binds v (Rule.mem_boundVariables.mpr (hd.bound a hhead v hv))
  refine ⟨emitted n i rule, ?_, fun t => mem_emitted_iff hd⟩
  rw [consequences, hi]
  refine bind_eq_ok.mpr ⟨.yield (emitted n i rule).toArray, s, ?_, by simp [ForInStep.value]; rfl⟩
  rw [search, View.run_eq (fun s' => s' = s) ho (fun _ h => h ▸ hs) _ _ _ _ _ ?_ ha rfl,
    Eval.foldUntil_ok hstep]
  · congr 2
    rw [foldl_append_toArray, emitted]
    simp
  · rintro p hmem acc s₁ r s' rfl h
    rw [hstep p hmem acc] at h
    cases h
    rfl

/-! ## Backward -/

/-- A head derives a fact under an assignment for which the premises count as present, and the blockers
do not. -/
structure Supports (x : RuleIndex) (n : Snapshot) (head : HeadRef) (i : IndexedRule)
    (τ : Assignment) (t : Triple) : Prop
    extends Satisfies n .supportingPositive .supportingNegative i head.rule τ where
  rule_eq : x.rules[head.rule]? = some i
  head_eq : ∃ a, i.rule.head[head.head]? = some a ∧ a.groundIn n.classes τ = t

theorem Supports.concludes {head : HeadRef} {τ : Assignment} {t : Triple}
    (h : x.Supports n head i τ t) : i.rule.Concludes n.classes τ t := by
  obtain ⟨a, ha, ht⟩ := h.head_eq
  exact ⟨a, List.mem_of_getElem? ha, ht⟩

/-- The ways in which an atom of the head of a rule derives a fact, each as the facts of the positive
literals. -/
def ways (n : Snapshot) (i : IndexedRule) (rule : Nat) (a : Atom) (t : Triple) : List (List Match) :=
  match (Bindings.free i.rule.names.length).bound? n.classes a t with
  | none => []
  | some b =>
    (n.solutions (occurrence i rule)
      (wholeBody i.rule.body .supportingPositive .supportingNegative) b []).map (·.2)

section ways

variable (hd : i.rule.Safe) {a : Atom} (ha : a ∈ i.rule.head) {t : Triple}

include hd ha

theorem scopes_of_bound? {b : Bindings}
    (hb : (Bindings.free i.rule.names.length).bound? n.classes a t = some b) :
    ∀ step ∈ wholeBody i.rule.body .supportingPositive .supportingNegative, ∀ c ∈ step.atoms,
      b.Scopes c := by
  have hfree := Bindings.size_free i.rule.names.length
  have hfits := Bindings.fits_of_bound? (scopes_of_head hd hfree ha) hb
  exact scopes_wholeBody _ _ hd (hfits.size.trans hfree)

theorem grounded_of_bound? {b : Bindings}
    (hb : (Bindings.free i.rule.names.length).bound? n.classes a t = some b) :
    Grounded (wholeBody i.rule.body .supportingPositive .supportingNegative) b
      (· ∈ Rule.boundVariables i.rule.body) := by
  have hfits := Bindings.fits_of_bound? (scopes_of_head hd (Bindings.size_free _) ha) hb
  exact grounded_wholeBody _ _ hd fun v hv =>
    Rule.mem_boundVariables.mpr (hd.bound a ha v (hfits.binds_iff.mp hv))

/-- The ways are what can be found for the positive literals, while nothing matches a negated one, under
the assignments that turn the atom into the fact. -/
theorem mem_ways_iff {rule : Nat} {ms : List Match} : ms ∈ ways n i rule a t ↔
    ∃ τ, a.groundIn n.classes τ = t ∧ n.Follows (occurrence i rule)
      (· ∈ Rule.boundVariables i.rule.body) τ
      (wholeBody i.rule.body .supportingPositive .supportingNegative) ms := by
  have hfree := scopes_of_head hd (Bindings.size_free _) ha
  rw [ways]
  cases hb : (Bindings.free i.rule.names.length).bound? n.classes a t with
  | none =>
    exact iff_of_false List.not_mem_nil fun ⟨τ, ht, _⟩ => Bindings.groundIn_ne_of_bound? hfree hb τ ht
  | some b =>
    have hfits := Bindings.fits_of_bound? hfree hb
    have hscope := scopes_of_bound? hd ha hb
    have hg := grounded_of_bound? hd ha hb
    constructor
    · intro hms
      obtain ⟨p, hmem, rfl⟩ := List.mem_map.mp hms
      obtain ⟨τ, hτ⟩ := p.1.exists_agrees
      obtain ⟨more, hmore, hall⟩ := (Snapshot.Solves.of_mem hscope hg hmem).finds
      rw [List.nil_append] at hmore
      exact ⟨τ, hfits.agrees_iff.mp (hall τ hτ).1, hmore ▸ (hall τ hτ).2⟩
    · rintro ⟨τ, ht, hms⟩
      obtain ⟨b', hmem, -⟩ := Snapshot.exists_solution hscope hg (hfits.agrees_iff.mpr ht) hms []
      exact List.mem_map.mpr ⟨_, hmem, rfl⟩

end ways

section search

variable (view) (ho : view.observe = none) {s : σ} (hs : view.snapshot s = n) {head : HeadRef}
  {t : Triple} (hi : x.rules[head.rule]? = some i) (hd : i.rule.Safe) {a : Atom}
  (ha : i.rule.head[head.head]? = some a)

include ho hs hi hd ha

/-- The search for support goes through the ways. -/
theorem searchSupport_eq {β : Type} (acc : β) (f : List Match → β → ForInStep β) :
    x.searchSupport view head t acc f s =
      Eval.foldUntil (fun ms acc => pure (f ms acc)) (ways n i head.rule a t) acc s := by
  have hmem := List.mem_of_getElem? ha
  have hbind := View.bind_eq hs (scopes_of_head hd (Bindings.size_free _) hmem) t
  simp only [searchSupport, hi, ha, Bind.bind, EStateM.bind, hbind, ways]
  cases hb : (Bindings.free i.rule.names.length).bound? n.classes a t with
  | none => rfl
  | some b =>
    dsimp only
    rw [search, View.run_eq (fun s' => s' = s) ho (fun _ h => h ▸ hs) _ _ _ _ _
      (fun p _ acc s₁ r s' h₁ h => by cases h; exact h₁) (scopes_of_bound? hd hmem hb) rfl,
      Eval.foldUntil_map]

theorem supportingInstances_eq :
    x.supportingInstances view head t s = .ok (ways n i head.rule a t) s := by
  have hpush := Eval.foldUntil_ok (σ := σ) (l := ways n i head.rule a t) (s := s)
    (f := fun ms (acc : Array (List Match)) => pure (.yield (acc.push ms)))
    (g := fun ms acc => acc.push ms) (fun _ _ _ => rfl) #[]
  rw [List.foldl_push_eq_append] at hpush
  refine bind_eq_ok.mpr ⟨.yield (ways n i head.rule a t).toArray, s, ?_, rfl⟩
  rw [searchSupport_eq view ho hs hi hd ha]
  simpa using hpush

theorem hasSupportingInstance_eq :
    x.hasSupportingInstance view head t s = .ok (!(ways n i head.rule a t).isEmpty) s := by
  have hsearch := searchSupport_eq view ho hs hi hd ha (t := t) false fun _ _ => .done true
  cases hways : ways n i head.rule a t <;> rw [hways] at hsearch <;>
    exact bind_eq_ok.mpr ⟨_, s, hsearch, rfl⟩

end search

/-- Whether there is a way for some head to derive a fact. -/
theorem isDerivable_iff (view : View σ) (ho : view.observe = none) {s : σ} (hs : view.snapshot s = n)
    {rules : List Rule} {byLevels : Bool} (hb : Builds rules byLevels x) (hx : x.Safe) (t : Triple) :
    ∃ b, x.isDerivable view t s = .ok b s ∧
      (b = true ↔ ∃ (head : HeadRef) (i : IndexedRule) (a : Atom) (ms : List Match),
        x.rules[head.rule]? = some i ∧ i.rule.head[head.head]? = some a ∧ ms ∈ ways n i head.rule a t) := by
  have hhead : ∀ head ∈ x.headsFor n.classes t, ∃ b, x.hasSupportingInstance view head t s = .ok b s ∧
      (b = true ↔ ∃ i a ms, x.rules[head.rule]? = some i ∧ i.rule.head[head.head]? = some a ∧
        ms ∈ ways n i head.rule a t) := by
    intro head hmem
    obtain ⟨i, a, hi, ha, -⟩ := hb.mem_headsFor.mp hmem
    refine ⟨_, hasSupportingInstance_eq view ho hs hi (hx _ i hi) ha, ?_⟩
    rw [Bool.not_eq_true', List.isEmpty_eq_false_iff_exists_mem]
    simp [hi, ha]
  obtain ⟨b, hany, hiff⟩ := anyM_spec hhead
  refine ⟨b, bind_eq_ok.mpr ⟨_, s, by rw [← hs]; rfl, hany⟩, hiff.trans ?_⟩
  constructor
  · rintro ⟨head, -, h⟩
    exact ⟨head, h⟩
  · rintro ⟨head, i, a, ms, hi, ha, hms⟩
    obtain ⟨τ, ht, -⟩ := (mem_ways_iff (hx _ i hi) (List.mem_of_getElem? ha)).mp hms
    exact ⟨head, hb.mem_headsFor.mpr ⟨i, a, hi, ha, τ, ht⟩, i, a, ms, hi, ha, hms⟩

section support

variable (view) (hx : x.Simple) (ho : view.observe = none) {s : σ} (hs : view.snapshot s = n)
  {head : HeadRef} {t : Triple}

omit view in
include hx in
theorem supports_iff {a : Atom} (hi : x.rules[head.rule]? = some i)
    (ha : i.rule.head[head.head]? = some a) {τ : Assignment} :
    x.Supports n head i τ t ↔ a.groundIn n.classes τ = t ∧ ∃ ms, n.Follows (occurrence i head.rule)
      (· ∈ Rule.boundVariables i.rule.body) τ
      (wholeBody i.rule.body .supportingPositive .supportingNegative) ms := by
  rw [exists_follows_wholeBody_iff, fires_iff (hx _ i hi)]
  constructor
  · intro h
    obtain ⟨a', ha', ht⟩ := h.head_eq
    rw [ha] at ha'
    cases ha'
    exact ⟨ht, h.toSatisfies⟩
  · rintro ⟨ht, h⟩
    exact ⟨h, hi, a, ha, ht⟩

include hx ho hs

/-- The premises that the search for support comes across are those of the ways in which the head
derives the fact. -/
theorem supportingInstances_spec {a : Atom} (hi : x.rules[head.rule]? = some i)
    (ha : i.rule.head[head.head]? = some a) :
    ∃ ways, x.supportingInstances view head t s = .ok ways s ∧
      (∀ m ∈ ways.flatten, (m.row, m.fact) ∈
          n.rows .supportingPositive (occurrence i head.rule m.literal) ∧
        ∃ τ, x.Supports n head i τ t ∧ i.rule.Premise n.classes τ m.literal m.fact) ∧
      ∀ τ k u, x.Supports n head i τ t → i.rule.Premise n.classes τ k u →
        ∃ m ∈ ways.flatten, m.literal = k ∧ m.fact = u := by
  have hd := (hx _ i hi).safe
  have hmem := List.mem_of_getElem? ha
  refine ⟨_, supportingInstances_eq view ho hs hi hd ha, fun m hm => ?_, fun τ k u hsup hk => ?_⟩
  · obtain ⟨ms, hms, hm⟩ := List.mem_flatten.mp hm
    obtain ⟨τ, ht, hfollows⟩ := (mem_ways_iff hd hmem).mp hms
    obtain ⟨c, role, hstep, hrow, hfact⟩ := hfollows.exists_step hm
    rw [wholeBody_eq] at hstep
    obtain ⟨k, l, hk, -, he⟩ := mem_stepsOf.mp hstep
    cases l with
    | positive b =>
      cases he
      exact ⟨hrow, τ, (supports_iff hx hi ha).mpr ⟨ht, ms, hfollows⟩, c, hk, hfact.symm⟩
    | negative as => cases he
  · obtain ⟨c, hc, rfl⟩ := hk
    obtain ⟨ht, ms, hms⟩ := (supports_iff hx hi ha).mp hsup
    have hstep : Step.find c k .supportingPositive ∈
        wholeBody i.rule.body .supportingPositive .supportingNegative := by
      rw [wholeBody_eq]
      exact mem_stepsOf.mpr ⟨k, _, hc, rfl, rfl⟩
    obtain ⟨m, hm, hl, hf⟩ := hms.exists_match hstep
    exact ⟨m, List.mem_flatten.mpr ⟨ms, (mem_ways_iff hd hmem).mpr ⟨τ, ht, hms⟩, hm⟩, hl, hf⟩

theorem hasSupportingInstance_spec {a : Atom} (hi : x.rules[head.rule]? = some i)
    (ha : i.rule.head[head.head]? = some a) :
    ∃ b, x.hasSupportingInstance view head t s = .ok b s ∧
      (b = true ↔ ∃ τ, x.Supports n head i τ t) := by
  have hd := (hx _ i hi).safe
  refine ⟨_, hasSupportingInstance_eq view ho hs hi hd ha, ?_⟩
  rw [Bool.not_eq_true', List.isEmpty_eq_false_iff_exists_mem]
  simp only [mem_ways_iff hd (List.mem_of_getElem? ha), supports_iff hx hi ha]
  exact ⟨fun ⟨ms, τ, ht, hms⟩ => ⟨τ, ht, ms, hms⟩, fun ⟨τ, ht, ms, hms⟩ => ⟨ms, τ, ht, hms⟩⟩

/-- Whether some head derives a fact. -/
theorem isDerivable_spec {rules : List Rule} {byLevels : Bool} (hb : Builds rules byLevels x) :
    ∃ b, x.isDerivable view t s = .ok b s ∧ (b = true ↔ ∃ head i τ, x.Supports n head i τ t) := by
  obtain ⟨b, hderivable, hiff⟩ := isDerivable_iff view ho hs hb hx.safe t
  refine ⟨b, hderivable, hiff.trans ⟨?_, ?_⟩⟩
  · rintro ⟨head, i, a, ms, hi, ha, hms⟩
    obtain ⟨τ, ht, hms⟩ := (mem_ways_iff (hx.safe _ i hi) (List.mem_of_getElem? ha)).mp hms
    exact ⟨head, i, τ, (supports_iff hx hi ha).mpr ⟨ht, ms, hms⟩⟩
  · rintro ⟨head, i, τ, hsup⟩
    obtain ⟨a, ha, -⟩ := hsup.head_eq
    obtain ⟨ht, ms, hms⟩ := (supports_iff hx hsup.rule_eq ha).mp hsup
    exact ⟨head, i, a, ms, hsup.rule_eq, ha,
      (mem_ways_iff (hx.safe _ i hsup.rule_eq) (List.mem_of_getElem? ha)).mpr ⟨τ, ht, hms⟩⟩

/-- Whether a rule of a scope that is not recursive derives a fact. -/
theorem provedNonrecursively_spec {rules : List Rule} {byLevels : Bool}
    (hb : Builds rules byLevels x) (scope : Scope) :
    ∃ b, x.provedNonrecursively view t scope s = .ok b s ∧ (b = true ↔ ∃ head i τ,
      x.Supports n head i τ t ∧ scope.includes i.rule.level = true ∧ i.recursive = false) := by
  have hnone : x.hasNonrecursive scope = false → ¬ ∃ head i τ, x.Supports n head i τ t ∧
      scope.includes i.rule.level = true ∧ i.recursive = false := by
    rintro hno ⟨head, i, τ, hsup, hscope, hrec⟩
    rw [hasNonrecursive, ← Array.any_toList, List.any_eq_false] at hno
    have hmem : i ∈ x.rules.toList := by
      rw [List.mem_iff_getElem?]
      exact ⟨head.rule, by rw [Array.getElem?_toList]; exact hsup.rule_eq⟩
    exact hno i hmem (by rw [hscope, hrec]; rfl)
  rw [provedNonrecursively]
  cases hno : x.hasNonrecursive scope with
  | false => exact ⟨false, rfl, by simp, fun h => absurd h (hnone hno)⟩
  | true =>
    obtain ⟨b, hany, hiff⟩ := anyM_spec (l := x.headsFor n.classes t)
      (f := x.derivedNonrecursively view t scope)
      (P := fun head => ∃ i τ, x.Supports n head i τ t ∧ scope.includes i.rule.level = true ∧
        i.recursive = false) (s := s) fun head hmem => by
        obtain ⟨i, a, hi, ha, -⟩ := hb.mem_headsFor.mp hmem
        obtain ⟨b, he, hiff⟩ := hasSupportingInstance_spec view hx ho hs (t := t) hi ha
        have hi' : ∀ {i' τ}, x.Supports n head i' τ t → i = i' := fun hsup => by
          simpa [hi] using hsup.rule_eq
        simp only [derivedNonrecursively, hi]
        cases hc : scope.includes i.rule.level && !i.recursive with
        | true =>
          rw [Bool.and_eq_true, Bool.not_eq_true'] at hc
          refine ⟨b, he, hiff.trans ⟨fun ⟨τ, hsup⟩ => ⟨i, τ, hsup, hc⟩, ?_⟩⟩
          rintro ⟨i', τ, hsup, -⟩
          obtain rfl := hi' hsup
          exact ⟨τ, hsup⟩
        | false =>
          refine ⟨false, rfl, by simp, ?_⟩
          rintro ⟨i', τ, hsup, hscope, hrec⟩
          obtain rfl := hi' hsup
          simp [hscope, hrec] at hc
    refine ⟨b, bind_eq_ok.mpr ⟨_, s, by rw [← hs]; rfl, hany⟩, hiff.trans ?_⟩
    constructor
    · rintro ⟨head, -, i, τ, hsup⟩
      exact ⟨head, i, τ, hsup⟩
    · rintro ⟨head, i, τ, hsup⟩
      obtain ⟨a, ha, ht⟩ := hsup.1.head_eq
      exact ⟨head, hb.mem_headsFor.mpr ⟨i, a, hsup.1.rule_eq, ha, τ, ht⟩, i, τ, hsup⟩

end support

end RuleIndex

end Entail
