import Entail.Proofs.Invariant
import Entail.Proofs.Rule.Acceptance
import Entail.Proofs.Rule.Enumeration

/-!
# Rules that are safe to run

Every evaluation of a rule has a `Start`: an atom that is matched with a fact first, if any, and the
steps that follow. Whatever the table, the classes and the filter are, an evaluation of a parsed rule
fails only if the consumer does: every variable has a place in the bindings, and those of the head are
bound when it is their turn. Negated literals come last in every start, so the variables that they share
with other literals are bound when they are tested: evaluations are the same with any other test that
gives the right answers then (`RuleIndex.Faithful`). Together this is `RuleIndex.Sound`, for each of the
five evaluations (`RuleIndex.parsed_rules_are_safe`).
-/

namespace Entail

variable {σ α β : Type}

/-- A computation fails only as `E` has it. -/
abbrev FailsBy (E : Failure → σ → Prop) (x : Eval σ α) : Prop := Within (fun _ => True) E x

theorem Eval.foldUntil_congr {f g : α → β → Eval σ (ForInStep β)} {l : List α}
    (h : ∀ a ∈ l, ∀ b, f a b = g a b) (b : β) : Eval.foldUntil f l b = Eval.foldUntil g l b := by
  induction l generalizing b with
  | nil => rfl
  | cons a l ih =>
    rw [foldUntil, foldUntil, h a List.mem_cons_self]
    refine bind_congr fun step => ?_
    cases step with
    | done b => rfl
    | yield b => exact ih (fun c hc => h c (List.mem_cons_of_mem _ hc)) b

namespace View

variable {view : View σ} {a : Atom} {t : Triple} {b : Bindings} {E : Failure → σ → Prop}

/-- Goes through the matches of `steps` like `run`, with `test` in place of the test of negated
literals. -/
def runWith (view : View σ) (occurrence : Nat → Occurrence)
    (test : Role → Occurrence → List Atom → Bindings → Eval σ Bool)
    (f : Bindings → List Match → β → Eval σ (ForInStep β)) :
    List Step → Bindings → List Match → β → Eval σ (ForInStep β)
  | [], b, matched, acc => f b matched acc
  | .find a literal role :: rest, b, matched, acc => do
    let found ← view.candidates a role (occurrence literal) b
    Eval.foldUntil (fun (row, fact) acc => do
      match ← view.bind b a fact with
      | some b => view.runWith occurrence test f rest b (matched ++ [⟨literal, row, fact⟩]) acc
      | none => pure (.yield acc)) found acc
  | .absent atoms literal role :: rest, b, matched, acc => do
    if ← test role (occurrence literal) atoms b then pure (.yield acc)
    else view.runWith occurrence test f rest b matched acc

theorem run_eq_runWith_joint {occurrence : Nat → Occurrence}
    {f : Bindings → List Match → β → Eval σ (ForInStep β)} (steps : List Step) (b : Bindings)
    (matched : List Match) (acc : β) :
    view.run occurrence f steps b matched acc =
      view.runWith occurrence view.joint f steps b matched acc := by
  induction steps generalizing b matched acc with
  | nil => rfl
  | cons step rest ih =>
    cases step with
    | find a literal role =>
      refine bind_congr fun found => Eval.foldUntil_congr (fun (row, fact) _ acc => ?_) acc
      refine bind_congr fun bound => ?_
      cases bound with
      | none => rfl
      | some b => exact ih b _ acc
    | absent atoms literal role =>
      rw [run, runWith]
      refine bind_congr fun found => ?_
      rw [ih]

/-- An atom whose variables have a place is bound to a fact or not; that does not fail. -/
theorem bind_bind_eq (ha : b.Scopes a) (k : Option Bindings → Eval σ α) (s : σ) :
    (view.bind b a t >>= k) s = k (b.bound? (view.classes s) a t) s := by
  simp only [Bind.bind, EStateM.bind, bind_eq rfl ha]
  rfl

theorem bind_fails (ha : b.Scopes a) {k : Option Bindings → Eval σ α} (hnone : FailsBy E (k none))
    (hsome : ∀ classes b', Bindings.Fits classes a t b b' → FailsBy E (k (some b'))) :
    FailsBy E (view.bind b a t >>= k) := by
  intro s hs
  rw [Ends, bind_bind_eq ha]
  cases hb : b.bound? (view.classes s) a t with
  | none => exact hnone s hs
  | some b' => exact hsome _ b' (Bindings.fits_of_bound? ha hb) s hs

theorem bind_congr_of_scopes (ha : b.Scopes a) {k k' : Option Bindings → Eval σ α}
    (hnone : k none = k' none)
    (hsome : ∀ classes b', Bindings.Fits classes a t b b' → k (some b') = k' (some b')) :
    (view.bind b a t >>= k) = view.bind b a t >>= k' := by
  funext s
  rw [bind_bind_eq ha, bind_bind_eq ha]
  cases hb : b.bound? (view.classes s) a t with
  | none => rw [hnone]
  | some b' => rw [hsome _ b' (Bindings.fits_of_bound? ha hb)]

theorem candidates_fails (ha : b.Scopes a) (role : Role) (o : Occurrence) :
    FailsBy E (view.candidates a role o b) := by
  intro s _
  simp only [Ends, candidates, Bindings.pattern_eq ha]
  cases view.observe <;> trivial

theorem joint_fails {role : Role} {o : Occurrence} {atoms : List Atom}
    (ha : ∀ a ∈ atoms, b.Scopes a) : FailsBy E (view.joint role o atoms b) := by
  induction atoms generalizing b with
  | nil => exact .pure true
  | cons a rest ih =>
    have haa := ha a List.mem_cons_self
    refine .bind (candidates_fails haa role o) fun found => .anyM fun (row, fact) _ => ?_
    refine bind_fails haa (.pure false) fun classes b' hfits => ih fun c hc => ?_
    exact (ha c (List.mem_cons_of_mem _ hc)).of_size hfits.size

end View

namespace RuleIndex

variable {x : RuleIndex} {view : View σ} {i : IndexedRule} {rule : Nat} {steps : List Step}
  {b b' : Bindings} {B : Nat → Prop} {E : Failure → σ → Prop} {literal : Nat} {role : Role}
  {atoms : List Atom} {test : Role → Occurrence → List Atom → Bindings → Eval σ Bool}

/-! ## Evaluations under way -/

/-- Steps of a rule that still have to be taken: every variable has a place, negated literals come last,
and by then the variables of the positive literals are bound. -/
structure Underway (i : IndexedRule) (steps : List Step) (b : Bindings) (B : Nat → Prop) : Prop where
  scopes : ∀ step ∈ steps, ∀ a ∈ step.atoms, b.Scopes a
  grounded : Grounded steps b B
  bound : ∀ v ∈ Rule.boundVariables i.rule.body, B v
  negative : ∀ atoms literal role, .absent atoms literal role ∈ steps →
    i.rule.body[literal]? = some (.negative atoms)

namespace Underway

theorem nil (h : Underway i [] b B) : ∀ v ∈ Rule.boundVariables i.rule.body, b.Binds v := by
  intro v hv
  rcases (h.grounded.bound_iff v).mp (h.bound v hv) with hb | ⟨a, literal, role, hmem, -⟩
  · exact hb
  · cases hmem

theorem find {a : Atom} {t : Triple} {classes : Option Classes}
    (h : Underway i (.find a literal role :: steps) b B) (hb : Bindings.Fits classes a t b b') :
    Underway i steps b' B where
  scopes step hstep c hc := (h.scopes step (List.mem_cons_of_mem _ hstep) c hc).of_size hb.size
  grounded := h.grounded.of_find hb.binds
  bound := h.bound
  negative atoms literal role hmem := h.negative atoms literal role (List.mem_cons_of_mem _ hmem)

theorem absent (h : Underway i (.absent atoms literal role :: steps) b B) : Underway i steps b B where
  scopes step hstep := h.scopes step (List.mem_cons_of_mem _ hstep)
  grounded := h.grounded.of_absent.2
  bound := h.bound
  negative atoms literal role hmem := h.negative atoms literal role (List.mem_cons_of_mem _ hmem)

/-- It is the turn of a negated literal: the variables of the positive ones are bound. -/
theorem binds (h : Underway i (.absent atoms literal role :: steps) b B) :
    ∀ v ∈ Rule.boundVariables i.rule.body, b.Binds v :=
  fun v hv => (h.grounded.of_absent.1 v).mp (h.bound v hv)

/-- Going through matches fails only as what is done with them. -/
theorem run_fails {f : Bindings → List Match → β → Eval σ (ForInStep β)}
    (hf : ∀ b, (∀ v ∈ Rule.boundVariables i.rule.body, b.Binds v) →
      ∀ matched acc, FailsBy E (f b matched acc))
    (h : Underway i steps b B) (matched : List Match) (acc : β) :
    FailsBy E (view.run (occurrence i rule) f steps b matched acc) := by
  induction steps generalizing b matched acc with
  | nil => exact hf b h.nil matched acc
  | cons step rest ih =>
    cases step with
    | find a literal role =>
      have ha := h.scopes _ List.mem_cons_self a (List.mem_singleton.mpr rfl)
      refine .bind (View.candidates_fails ha role _) fun found => .foldUntil (fun (row, fact) _ acc => ?_) acc
      exact View.bind_fails ha (.pure _) fun classes b' hb => ih (h.find hb) _ acc
    | absent atoms literal role =>
      refine .bind (View.joint_fails (h.scopes _ List.mem_cons_self)) fun found => ?_
      exact .ite (fun _ => .pure _) fun _ => ih h.absent matched acc

end Underway

/-- A test of negated literals gives the right answer where the variables that a literal shares with
others are bound. -/
def Faithful (x : RuleIndex) (view : View σ)
    (test : Role → Occurrence → List Atom → Bindings → Eval σ Bool) : Prop :=
  ∀ i role o atoms b, x.rules[o.rule]? = some i → i.rule.body[o.literal]? = some (.negative atoms) →
    (∀ v ∈ (Literal.negative atoms).vars, Rule.occursElsewhere i.rule.body o.literal v = true →
      b.Binds v) →
    test role o atoms b = view.joint role o atoms b

/-- Negated literals are tested where the variables that they share are bound. -/
theorem Underway.run_eq (hi : x.rules[rule]? = some i)
    (hacc : Rule.Acceptable i.rule.head i.rule.body) (ht : x.Faithful view test)
    {f : Bindings → List Match → β → Eval σ (ForInStep β)} (h : Underway i steps b B)
    (matched : List Match) (acc : β) :
    view.run (occurrence i rule) f steps b matched acc =
      view.runWith (occurrence i rule) test f steps b matched acc := by
  rw [View.run_eq_runWith_joint]
  induction steps generalizing b matched acc with
  | nil => rfl
  | cons step rest ih =>
    cases step with
    | find a literal role =>
      have ha := h.scopes _ List.mem_cons_self a (List.mem_singleton.mpr rfl)
      refine bind_congr fun found => Eval.foldUntil_congr (fun (row, fact) _ acc => ?_) acc
      exact View.bind_congr_of_scopes ha rfl fun classes b' hb => ih (h.find hb) _ acc
    | absent atoms literal role =>
      have hl := h.negative atoms literal role List.mem_cons_self
      have htest := ht i role (occurrence i rule literal) atoms b hi hl fun v hv hshared =>
        h.binds v (hacc.mem_boundVariables hl hv hshared)
      rw [View.runWith, View.runWith, htest]
      refine bind_congr fun found => ?_
      rw [ih h.absent]

/-! ## Starts -/

/-- Where an evaluation of a rule begins: an atom that is matched with a fact first, if any, the steps
that follow, and the facts that are matched by then. -/
structure Start where
  rule : Nat
  indexed : IndexedRule
  first : Option (Atom × Triple)
  steps : List Step
  matched : List Match

namespace Start

variable {st : Start}

/-- Matches the first atom, if there is one, and goes on with the bindings. -/
def enter (view : View σ) (st : Start) (missed : α) (go : Bindings → Eval σ α) : Eval σ α :=
  let free := Bindings.free st.indexed.rule.names.length
  match st.first with
  | none => go free
  | some (a, t) => do
    match ← view.bind free a t with
    | none => pure missed
    | some b => go b

/-- Goes through the matches from a start. -/
def search (view : View σ) (st : Start) (acc : β)
    (f : Bindings → List Match → β → Eval σ (ForInStep β)) : Eval σ (ForInStep β) :=
  st.enter view (.yield acc) fun b =>
    RuleIndex.search view st.indexed st.rule st.steps b st.matched acc f

/-- Goes through the matches from a start, with a test of negated literals. -/
def searchWith (view : View σ) (test : Role → Occurrence → List Atom → Bindings → Eval σ Bool)
    (st : Start) (acc : β) (f : Bindings → List Match → β → Eval σ (ForInStep β)) :
    Eval σ (ForInStep β) :=
  st.enter view (.yield acc) fun b =>
    view.runWith (occurrence st.indexed st.rule) test f st.steps b st.matched acc

/-- Passes the heads to a consumer for every match from a start. -/
def derive (view : View σ) (consume : Nat → Triple → Eval σ Unit) (st : Start) : Eval σ Unit :=
  st.enter view () fun b =>
    RuleIndex.derive view st.indexed st.rule consume st.steps b st.matched

/-- Passes the heads to a consumer for every match from a start, with a test of negated literals. -/
def deriveWith (view : View σ) (test : Role → Occurrence → List Atom → Bindings → Eval σ Bool)
    (consume : Nat → Triple → Eval σ Unit) (st : Start) : Eval σ Unit :=
  st.enter view () fun b =>
    discard <| view.runWith (occurrence st.indexed st.rule) test
      (fun b _ _ => do
        emitHeads view st.indexed st.rule consume b
        pure (.yield ()))
      st.steps b st.matched ()

/-- An evaluation of a parsed rule can begin here. -/
structure Ready (x : RuleIndex) (st : Start) : Prop where
  indexed_eq : x.rules[st.rule]? = some st.indexed
  parsed : st.indexed.rule.Parsed
  scopes_first : ∀ p ∈ st.first, (Bindings.free st.indexed.rule.names.length).Scopes p.1
  underway : ∀ b : Bindings, b.size = st.indexed.rule.names.length →
    (∀ p ∈ st.first, ∀ v ∈ p.1.vars, b.Binds v) →
      ∃ B, Underway st.indexed st.steps b B

namespace Ready

/-- The first atom matches, and the steps can be taken; or it does not, and that is all. -/
theorem enter_cases (h : st.Ready x) (view : View σ) (s : σ) :
    (∃ b B, Underway st.indexed st.steps b B ∧ ∀ {α : Type} (missed : α) (go : Bindings → Eval σ α),
      st.enter view missed go s = go b s) ∨
    ∀ {α : Type} (missed : α) (go : Bindings → Eval σ α), st.enter view missed go s = .ok missed s := by
  cases hf : st.first with
  | none =>
    obtain ⟨B, hB⟩ := h.underway _ (Bindings.size_free _) (by simp [hf])
    exact .inl ⟨_, B, hB, fun missed go => by rw [enter, hf]⟩
  | some p =>
    obtain ⟨a, t⟩ := p
    have ha := h.scopes_first _ hf
    cases hb : (Bindings.free st.indexed.rule.names.length).bound? (view.classes s) a t with
    | none =>
      refine .inr fun missed go => ?_
      rw [enter, hf]
      exact (View.bind_bind_eq ha _ s).trans (by rw [hb]; rfl)
    | some b =>
      have hfits := Bindings.fits_of_bound? ha hb
      obtain ⟨B, hB⟩ := h.underway b (hfits.size.trans (Bindings.size_free _)) (by
        rw [hf]
        rintro _ ⟨⟩ v hv
        exact hfits.binds_iff.mpr hv)
      refine .inl ⟨b, B, hB, fun missed go => ?_⟩
      rw [enter, hf]
      exact (View.bind_bind_eq ha _ s).trans (by rw [hb])

theorem enter_fails (h : st.Ready x) {missed : α} {go : Bindings → Eval σ α}
    (hgo : ∀ b B, Underway st.indexed st.steps b B → FailsBy E (go b)) :
    FailsBy E (st.enter view missed go) := by
  intro s hs
  rcases h.enter_cases view s with ⟨b, B, hB, heq⟩ | heq
  · rw [Ends, heq missed go]
    exact hgo b B hB s hs
  · rw [Ends, heq missed go]
    exact hs

theorem enter_congr (h : st.Ready x) {missed : α} {go go' : Bindings → Eval σ α}
    (hgo : ∀ b B, Underway st.indexed st.steps b B → go b = go' b) :
    st.enter view missed go = st.enter view missed go' := by
  funext s
  rcases h.enter_cases view s with ⟨b, B, hB, heq⟩ | heq
  · rw [heq missed go, heq missed go', hgo b B hB]
  · rw [heq missed go, heq missed go']

end Ready

/-! ## What an evaluation from a start does -/

/-- Failures of a consumer. -/
def FailsAs (consume : Nat → Triple → Eval σ Unit) (e : Failure) (s : σ) : Prop :=
  ∃ rule t s₀, consume rule t s₀ = .error e s

theorem consume_fails (consume : Nat → Triple → Eval σ Unit) (rule : Nat) (t : Triple) :
    FailsBy (FailsAs consume) (consume rule t) := by
  intro s _
  rw [Ends]
  split
  · trivial
  · exact ⟨rule, t, s, ‹_›⟩

variable {consume : Nat → Triple → Eval σ Unit}

/-- The heads have their values where the variables of the positive literals are bound. -/
theorem emitHeads_fails (hacc : Rule.Acceptable i.rule.head i.rule.body)
    (hb : ∀ v ∈ Rule.boundVariables i.rule.body, b.Binds v) :
    FailsBy (FailsAs consume) (emitHeads view i rule consume b) := by
  refine .forM fun a ha s hs => Ends.bind_iff.mpr ?_
  have hinst : b.instantiate (view.classes s) rule a =
      .ok (a.groundIn (view.classes s) b.toAssignment) :=
    Bindings.instantiate_eq b.agrees_toAssignment fun v hv =>
      hb v (Rule.mem_boundVariables.mpr (hacc.head_bound a ha v hv))
  simp only [Ends, Eval.reads, hinst]
  exact consume_fails consume rule _ s hs

theorem Ready.derive_fails (h : st.Ready x) : FailsBy (FailsAs consume) (st.derive view consume) :=
  h.enter_fails fun _ _ hB => .discard <| hB.run_fails
    (fun _ hb _ _ => .bind (emitHeads_fails h.parsed.acceptable hb) fun _ => .pure _) _ _

theorem Ready.derive_eq (h : st.Ready x) (ht : x.Faithful view test) :
    st.derive view consume = st.deriveWith view test consume :=
  h.enter_congr fun _ _ hB => by
    rw [RuleIndex.derive, RuleIndex.search, hB.run_eq h.indexed_eq h.parsed.acceptable ht]

theorem Ready.search_fails (h : st.Ready x) {acc : β}
    {f : Bindings → List Match → β → Eval σ (ForInStep β)}
    (hf : ∀ b matched acc, FailsBy E (f b matched acc)) : FailsBy E (st.search view acc f) :=
  h.enter_fails fun _ _ hB => hB.run_fails (fun b _ => hf b) _ _

theorem Ready.search_eq (h : st.Ready x) (ht : x.Faithful view test) {acc : β}
    {f : Bindings → List Match → β → Eval σ (ForInStep β)} :
    st.search view acc f = st.searchWith view test acc f :=
  h.enter_congr fun _ _ hB => hB.run_eq h.indexed_eq h.parsed.acceptable ht _ _

end Start

/-! ## The starts of an evaluation -/

/-- The step that matches a literal, whatever its role. -/
def Plays (step : Step) (k : Nat) : Literal → Prop
  | .positive a => ∃ role, step = .find a k role
  | .negative atoms => ∃ role, step = .absent atoms k role

/-- A step matches an atom of a literal, or tests all of it. -/
def PartOf (l : Literal) (k : Nat) : Step → Prop
  | .find a literal _ => literal = k ∧ a ∈ l.atoms
  | .absent atoms literal _ => literal = k ∧ l = .negative atoms

theorem PartOf.mem_atoms {step : Step} {k : Nat} {l : Literal} {a : Atom} (h : PartOf l k step)
    (ha : a ∈ step.atoms) : a ∈ l.atoms := by
  cases step with
  | find c literal role =>
    obtain rfl := List.mem_singleton.mp ha
    exact h.2
  | absent atoms literal role =>
    rw [h.2]
    exact ha

theorem Plays.isFind_eq {step : Step} {k : Nat} {l : Literal} (h : Plays step k l) :
    step.isFind = l.isPositive := by
  cases l <;> obtain ⟨role, rfl⟩ := h <;> rfl

theorem Plays.partOf {step : Step} {k : Nat} {l : Literal} (h : Plays step k l) : PartOf l k step := by
  cases l with
  | positive a =>
    obtain ⟨role, rfl⟩ := h
    exact ⟨rfl, List.mem_singleton.mpr rfl⟩
  | negative atoms =>
    obtain ⟨role, rfl⟩ := h
    exact ⟨rfl, rfl⟩

/-- Steps match parts of a body, all positive literals but those that are left out, and test negated
literals last. -/
structure Walks (body : List Literal) (left : Nat → Prop) (steps : List Step) : Prop where
  parts : ∀ step ∈ steps, ∃ k l, body[k]? = some l ∧ PartOf l k step
  ordered : steps.Pairwise fun s s' => s.isFind = false → s'.isFind = false
  finds : ∀ k a, body[k]? = some (.positive a) → left k ∨ ∃ role, .find a k role ∈ steps

/-- One step for each literal that is kept. -/
theorem walks_map {body : List Literal} (keep : Nat → Bool) (g : Literal × Nat → Step)
    (hbody : body.Pairwise fun l l' => l.isPositive = false → l'.isPositive = false)
    (hg : ∀ l k, Plays (g (l, k)) k l) :
    Walks body (keep · = false) ((body.zipIdx.filter fun (_, k) => keep k).map g) where
  parts := by
    intro step hstep
    obtain ⟨⟨l, k⟩, hmem, rfl⟩ := List.mem_map.mp hstep
    exact ⟨k, l, List.mem_zipIdx_iff_getElem?.mp (List.mem_filter.mp hmem).1, (hg l k).partOf⟩
  ordered := by
    rw [← List.zipIdx_map_fst 0 body, List.pairwise_map] at hbody
    refine List.pairwise_map.mpr (List.Pairwise.filter _ (hbody.imp ?_))
    rintro ⟨l, k⟩ ⟨l', k'⟩ h
    rw [(hg l k).isFind_eq, (hg l' k').isFind_eq]
    exact h
  finds := by
    intro k a hk
    cases hkeep : keep k with
    | false => exact .inl rfl
    | true =>
      obtain ⟨role, hrole⟩ := hg (.positive a) k
      refine .inr ⟨role, List.mem_map.mpr ⟨(.positive a, k), ?_, hrole⟩⟩
      exact List.mem_filter.mpr ⟨List.mem_zipIdx_iff_getElem?.mpr hk, hkeep⟩

/-- Other atoms of the body may be matched before. -/
theorem Walks.append {body : List Literal} {left : Nat → Prop} {before : List Step}
    (hbefore : ∀ step ∈ before, step.isFind = true ∧ ∃ k l, body[k]? = some l ∧ PartOf l k step)
    (h : Walks body left steps) : Walks body left (before ++ steps) where
  parts step hstep := (List.mem_append.mp hstep).elim (fun hs => (hbefore step hs).2) (h.parts step)
  ordered := by
    have hall : ∀ s ∈ before, ∀ s' : Step, s.isFind = false → s'.isFind = false := fun s hs _ hf => by
      rw [(hbefore s hs).1] at hf
      cases hf
    exact List.pairwise_append.mpr ⟨List.pairwise_of_forall_mem_list fun s hs s' _ => hall s hs s',
      h.ordered, fun s hs s' _ => hall s hs s'⟩
  finds k a hk := (h.finds k a hk).imp_right fun ⟨role, hmem⟩ => ⟨role, List.mem_append_right _ hmem⟩

/-- The literals that are left out are bound by the first atom. -/
theorem ready_of_walks (hi : x.rules[rule]? = some i) (hp : i.rule.Parsed)
    {first : Option (Atom × Triple)} {left : Nat → Prop} {matched : List Match}
    (hfirst : ∀ p ∈ first, p.1 ∈ i.rule.atoms) (hw : Walks i.rule.body left steps)
    (hleft : ∀ k a, i.rule.body[k]? = some (.positive a) → left k → ∃ p ∈ first, p.1 = a) :
    Start.Ready x ⟨rule, i, first, steps, matched⟩ where
  indexed_eq := hi
  parsed := hp
  scopes_first p hpf v hv := by
    rw [Bindings.size_free]
    exact hp.safe.named _ (hfirst p hpf) v hv
  underway b hsize hb := by
    refine ⟨fun v => b.Binds v ∨ BoundBy steps v, fun step hstep a ha v hv => ?_,
      ⟨hw.ordered, fun v => Iff.rfl⟩, fun v hv => ?_, fun atoms literal role hmem => ?_⟩
    · obtain ⟨k, l, hl, hpart⟩ := hw.parts step hstep
      rw [hsize]
      exact hp.safe.named a (List.mem_append_right _ (List.mem_flatMap.mpr
        ⟨l, List.mem_of_getElem? hl, hpart.mem_atoms ha⟩)) v hv
    · obtain ⟨a, ha, hva⟩ := Rule.mem_boundVariables.mp hv
      obtain ⟨k, hk⟩ := List.mem_iff_getElem?.mp ha
      rcases hw.finds k a hk with hl | ⟨role, hmem⟩
      · obtain ⟨p, hpf, rfl⟩ := hleft k a hk hl
        exact .inl (hb p hpf v hva)
      · exact .inr ⟨a, k, role, hmem, hva⟩
    · obtain ⟨k, l, hl, rfl, rfl⟩ := hw.parts _ hmem
      exact hl

/-- The starts with a fact in place of each positive literal of each rule of a scope. -/
def positiveStarts (x : RuleIndex) (row : RowIndex) (t : Triple) (scope : Scope) : List Start :=
  (x.inScope scope).flatMap fun (i, rule) =>
    i.rule.body.zipIdx.flatMap fun (l, pivot) =>
      match l with
      | .positive a => [⟨rule, i, some (a, t), stepsAround i.rule.body pivot, [⟨pivot, row, t⟩]⟩]
      | .negative _ => []

/-- The starts with a fact in place of each atom of each negated literal of each rule of a scope. -/
def negationStarts (x : RuleIndex) (t : Triple) (scope : Scope) : List Start :=
  (x.inScope scope).flatMap fun (i, rule) =>
    i.rule.body.zipIdx.flatMap fun (l, pivot) =>
      match l with
      | .positive _ => []
      | .negative atoms => atoms.zipIdx.map fun (a, place) =>
        ⟨rule, i, some (a, t), stepsAroundNegation i.rule.body pivot atoms place, []⟩

/-- The start of a whole rule. -/
def wholeStart (i : IndexedRule) (rule : Nat) : Start :=
  ⟨rule, i, none, wholeBody i.rule.body .reevaluationPositive .reevaluationNegative, []⟩

/-- The start with a fact in place of an atom of a head. -/
def supportStart (i : IndexedRule) (rule : Nat) (a : Atom) (t : Triple) : Start :=
  ⟨rule, i, some (a, t), wholeBody i.rule.body .supportingPositive .supportingNegative, []⟩

section ready

variable {row : RowIndex} {t : Triple} {scope : Scope} {st : Start}

theorem walks_wholeBody (hp : i.rule.Parsed) (positive negative : Role) :
    Walks i.rule.body (fun _ => False) (wholeBody i.rule.body positive negative) := by
  have hw := walks_map (fun _ => true)
    (fun (l, k) => stepOf (fun _ => positive) (fun _ => negative) l k) hp.safe.ordered
    fun l k => by cases l <;> exact ⟨_, rfl⟩
  rw [wholeBody_eq, stepsOf]
  exact ⟨hw.parts, hw.ordered, fun k a hk => .inr ((hw.finds k a hk).resolve_left (by simp))⟩

theorem ready_wholeStart (hi : x.rules[rule]? = some i) (hp : i.rule.Parsed) :
    (wholeStart i rule).Ready x :=
  ready_of_walks hi hp (fun _ h => by cases h) (walks_wholeBody hp _ _) fun _ _ _ h => h.elim

theorem ready_supportStart (hi : x.rules[rule]? = some i) (hp : i.rule.Parsed) {a : Atom}
    (ha : a ∈ i.rule.head) : (supportStart i rule a t).Ready x :=
  ready_of_walks hi hp (fun _ h => by cases h; exact List.mem_append_left _ ha)
    (walks_wholeBody hp _ _) fun _ _ _ h => h.elim

/-- The pivot is matched first, so it is the literal that may be left out. -/
theorem ready_positiveStarts (hp : ∀ p ∈ x.inScope scope, p.1.rule.Parsed) :
    ∀ st ∈ x.positiveStarts row t scope, st.Ready x := by
  intro st hst
  obtain ⟨⟨i, rule⟩, hi, hst⟩ := List.mem_flatMap.mp hst
  obtain ⟨⟨l, pivot⟩, hl, hst⟩ := List.mem_flatMap.mp hst
  have hl := List.mem_zipIdx_iff_getElem?.mp hl
  cases l with
  | negative atoms => cases hst
  | positive a =>
    obtain rfl := List.mem_singleton.mp hst
    refine ready_of_walks (mem_inScope.mp hi).1 (hp _ hi) ?_
      (walks_map (· != pivot) _ (hp _ hi).safe.ordered fun l k => ?_) fun k c hk hleft => ?_
    · rintro _ ⟨⟩
      exact List.mem_append_right _ (List.mem_flatMap.mpr
        ⟨_, List.mem_of_getElem? hl, List.mem_singleton.mpr rfl⟩)
    · cases l <;> exact ⟨_, rfl⟩
    · obtain rfl : k = pivot := by simpa using hleft
      cases hl.symm.trans hk
      exact ⟨_, rfl, rfl⟩

/-- The other atoms of the pivot are matched before the literals around it, none of which is left out. -/
theorem ready_negationStarts (hp : ∀ p ∈ x.inScope scope, p.1.rule.Parsed) :
    ∀ st ∈ x.negationStarts t scope, st.Ready x := by
  intro st hst
  obtain ⟨⟨i, rule⟩, hi, hst⟩ := List.mem_flatMap.mp hst
  obtain ⟨⟨l, pivot⟩, hl, hst⟩ := List.mem_flatMap.mp hst
  have hl := List.mem_zipIdx_iff_getElem?.mp hl
  cases l with
  | positive a => cases hst
  | negative atoms =>
    obtain ⟨⟨a, place⟩, ha, rfl⟩ := List.mem_map.mp hst
    refine ready_of_walks (mem_inScope.mp hi).1 (hp _ hi) ?_
      ((walks_map (· != pivot) _ (hp _ hi).safe.ordered fun l k => ?_).append fun step hstep => ?_)
      fun k c hk hleft => ?_
    · rintro _ ⟨⟩
      exact List.mem_append_right _ (List.mem_flatMap.mpr ⟨_, List.mem_of_getElem? hl,
        List.mem_of_getElem? (List.mem_zipIdx_iff_getElem?.mp ha)⟩)
    · cases l <;> exact ⟨_, rfl⟩
    · obtain ⟨⟨c, other⟩, hc, rfl⟩ := List.mem_map.mp hstep
      have hmem := List.mem_zipIdx_iff_getElem?.mp (List.mem_filter.mp hc).1
      exact ⟨rfl, pivot, _, hl, rfl, List.mem_of_getElem? hmem⟩
    · obtain rfl : k = pivot := by simpa using hleft
      cases hl.symm.trans hk

end ready

/-! ## Evaluations as loops over their starts -/

section starts

variable {row : RowIndex} {t : Triple} {scope : Scope} {consume : Nat → Triple → Eval σ Unit}

theorem applyToPositive_eq_forM : x.applyToPositive view row t scope consume =
    (x.positiveStarts row t scope).forM (Start.derive view consume) := by
  rw [positiveStarts, forM_flatMap, applyToPositive]
  refine congrArg (List.forM _) (funext fun (i, rule) => ?_)
  dsimp only
  rw [forM_flatMap]
  refine congrArg (List.forM _) (funext fun (l, pivot) => ?_)
  cases l with
  | negative atoms => rfl
  | positive a => exact bind_pure_unit.symm

theorem applyToNegation_eq_forM : x.applyToNegation view t scope consume =
    (x.negationStarts t scope).forM (Start.derive view consume) := by
  rw [negationStarts, forM_flatMap, applyToNegation]
  refine congrArg (List.forM _) (funext fun (i, rule) => ?_)
  dsimp only
  rw [forM_flatMap]
  refine congrArg (List.forM _) (funext fun (l, pivot) => ?_)
  cases l with
  | positive a => rfl
  | negative atoms =>
    simp only [List.forM_eq_forM, List.forM_map]
    rfl

theorem evaluateRule_eq_derive (hi : x.rules[rule]? = some i) :
    x.evaluateRule view rule consume = (wholeStart i rule).derive view consume := by
  rw [evaluateRule, hi]
  rfl

theorem searchSupport_eq_search (hi : x.rules[rule]? = some i) {head : Nat} {a : Atom}
    (ha : i.rule.head[head]? = some a) (acc : β) (f : List Match → β → ForInStep β) :
    x.searchSupport view ⟨rule, head⟩ t acc f =
      (supportStart i rule a t).search view acc fun _ matched acc => pure (f matched acc) := by
  simp only [searchSupport, hi, ha]
  rfl

end starts

/-! ## Sound evaluations -/

/-- An evaluation fails only as `E` has it, and it is the same with every faithful test of negated
literals. -/
structure Sound (x : RuleIndex) (view : View σ) (E : Failure → σ → Prop) (y : Eval σ α)
    (tested : (Role → Occurrence → List Atom → Bindings → Eval σ Bool) → Eval σ α) : Prop where
  fails : ∀ s e s', y s = .error e s' → E e s'
  tests : ∀ test, x.Faithful view test → y = tested test

theorem Sound.forM {starts : List Start} {consume : Nat → Triple → Eval σ Unit}
    (h : ∀ st ∈ starts, st.Ready x) :
    x.Sound view (Start.FailsAs consume) (starts.forM (Start.derive view consume))
      fun test => starts.forM (Start.deriveWith view test consume) where
  fails s _ _ hy := (Within.forM (fun st hst => (h st hst).derive_fails) s trivial).failure hy
  tests test ht := by
    funext s
    exact Preserves.forM_congr (P := fun _ => True)
      (fun st hst s _ => congrFun ((h st hst).derive_eq ht) s) (fun _ _ _ _ _ _ _ => trivial) trivial

theorem Sound.search {st : Start} (h : st.Ready x) (acc : β) (f : List Match → β → ForInStep β)
    (g : ForInStep β → α) :
    x.Sound view (fun _ _ => False) (g <$> st.search view acc fun _ matched acc => pure (f matched acc))
      fun test => g <$> st.searchWith view test acc fun _ matched acc => pure (f matched acc) where
  fails s e s' hy := by
    rw [map_eq_pure_bind] at hy
    have hsearch : FailsBy (fun _ _ => False)
        (st.search view acc fun _ matched acc => pure (f matched acc)) :=
      h.search_fails fun _ _ _ => .pure _
    exact (hsearch.bind (fun _ => .pure _) s trivial).failure hy
  tests test ht := by rw [h.search_eq ht]

/-- `Rule.new` accepts just the rules that are acceptable. Whatever the table, the classes and the filter
are, and whatever consumers do, the evaluations of parsed rules fail only as the consumer does, and they
test a negated literal only where all variables that it shares with other literals are bound. -/
theorem parsed_rules_are_safe :
    (∀ head body names, (∃ r, Rule.new head body names = .ok r) ↔ Rule.Acceptable head body) ∧
    ∀ {σ : Type} (x : RuleIndex) (view : View σ) (row : RowIndex) (t : Triple)
      (consume : Nat → Triple → Eval σ Unit),
      (∀ scope, (∀ p ∈ x.inScope scope, p.1.rule.Parsed) →
        x.Sound view (Start.FailsAs consume) (x.applyToPositive view row t scope consume)
          (fun test => (x.positiveStarts row t scope).forM (Start.deriveWith view test consume)) ∧
        x.Sound view (Start.FailsAs consume) (x.applyToNegation view t scope consume)
          fun test => (x.negationStarts t scope).forM (Start.deriveWith view test consume)) ∧
      ∀ rule i, x.rules[rule]? = some i → i.rule.Parsed →
        x.Sound view (Start.FailsAs consume) (x.evaluateRule view rule consume)
          (fun test => (wholeStart i rule).deriveWith view test consume) ∧
        ∀ head a, i.rule.head[head]? = some a →
          x.Sound view (fun _ _ => False) (x.supportingInstances view ⟨rule, head⟩ t)
            (fun test => (·.value.toList) <$> (supportStart i rule a t).searchWith view test #[]
              fun _ matched acc => pure (.yield (acc.push matched))) ∧
          x.Sound view (fun _ _ => False) (x.hasSupportingInstance view ⟨rule, head⟩ t)
            fun test => (·.value) <$> (supportStart i rule a t).searchWith view test false
              fun _ _ _ => pure (.done true) := by
  refine ⟨fun _ _ _ => Rule.exists_new_iff, fun {σ} x view row t consume => ⟨fun scope hp => ⟨?_, ?_⟩,
    fun rule i hi hp => ⟨?_, fun head a ha => ⟨?_, ?_⟩⟩⟩⟩
  · rw [applyToPositive_eq_forM]
    exact .forM (ready_positiveStarts hp)
  · rw [applyToNegation_eq_forM]
    exact .forM (ready_negationStarts hp)
  · rw [evaluateRule_eq_derive hi]
    have h := ready_wholeStart hi hp
    exact ⟨fun s _ _ hy => (h.derive_fails s trivial).failure hy, fun _ ht => h.derive_eq ht⟩
  · rw [supportingInstances, searchSupport_eq_search hi ha, ← map_eq_pure_bind]
    exact .search (ready_supportStart hi hp (List.mem_of_getElem? ha)) _ _ _
  · rw [hasSupportingInstance, searchSupport_eq_search hi ha, ← map_eq_pure_bind]
    exact .search (ready_supportStart hi hp (List.mem_of_getElem? ha)) _ _ _

/-- A rule with a variable that is local to its negated literal, over a table and merged classes. -/
theorem parsed_rules_are_safe_symmetric :
    (∃ r, Rule.new symmetric.head symmetric.body symmetric.names = .ok r) ∧
    (∀ p ∈ symmetricIndex.inScope .all, p.1.rule.Parsed) ∧
    let view := collecting (Classes.discrete.merge 5 6).2
    symmetricIndex.Sound view (Start.FailsAs collect)
      (symmetricIndex.applyToNegation view ⟨9, 8, 7⟩ .all collect)
      (fun test =>
        (symmetricIndex.negationStarts ⟨9, 8, 7⟩ .all).forM (Start.deriveWith view test collect)) ∧
    ∃ i, symmetricIndex.rules[0]? = some i ∧ i.rule.Parsed ∧
      symmetricIndex.Sound view (Start.FailsAs collect) (symmetricIndex.evaluateRule view 0 collect)
        fun test => (wholeStart i 0).deriveWith view test collect := by
  have hall : ∀ p ∈ symmetricIndex.inScope .all, p.1.rule.Parsed := by
    have hb : Builds [symmetric] false symmetricIndex := rfl
    intro p hp
    rw [List.mem_singleton.mp (hb.rule_mem (mem_inScope.mp hp).1).1]
    exact parsed_symmetric
  exact ⟨(parsed_rules_are_safe.1 _ _ _).mpr parsed_symmetric.acceptable, hall,
    ((parsed_rules_are_safe.2 symmetricIndex _ 1 ⟨9, 8, 7⟩ collect).1 .all hall).2,
    _, rfl, parsed_symmetric, ((parsed_rules_are_safe.2 _ _ 1 ⟨9, 8, 7⟩ _).2 0 _ rfl parsed_symmetric).1⟩

end RuleIndex

end Entail
