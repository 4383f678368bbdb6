import Entail.Proofs.Rule.Safety

/-!
# Rules that are accepted

`Rule.new` accepts a rule just if it is `Acceptable` (`exists_new_iff`). It looks at the body with the
negated literals behind the positive ones, but what makes a rule acceptable does not depend on the order
of its literals (`Acceptable.of_perm`). So a rule that was read from a text is acceptable as it stands
(`Parsed.acceptable`).
-/

namespace Entail.Rule

variable {head : List Atom} {body body' : List Literal} {v place : Nat}

/-- A rule has a head, its positive literals bind the variables of the head, and a variable of a negated
literal is bound by them as well or occurs in no other literal. -/
structure Acceptable (head : List Atom) (body : List Literal) : Prop where
  head_ne_nil : head ≠ []
  head_bound : ∀ a ∈ head, ∀ v ∈ a.vars, ∃ b, .positive b ∈ body ∧ v ∈ b.vars
  bound_or_local : ∀ place atoms, body[place]? = some (Literal.negative atoms) →
    ∀ v ∈ (Literal.negative atoms).vars, (∃ b, .positive b ∈ body ∧ v ∈ b.vars) ∨
      ∀ (other : Nat) (l : Literal), body[other]? = some l → v ∈ l.vars → other = place

/-! ## The order of the literals -/

/-- No two literals have a variable in common. -/
def Apart (body : List Literal) (v : Nat) : Prop :=
  body.Pairwise fun l l' => ¬ (v ∈ l.vars ∧ v ∈ l'.vars)

/-- A variable that occurs at one place occurs nowhere else. -/
theorem apart_iff {l : Literal} (hl : body[place]? = some l) (hv : v ∈ l.vars) :
    Apart body v ↔ ∀ other l', body[other]? = some l' → v ∈ l'.vars → other = place := by
  rw [Apart, List.pairwise_iff_getElem]
  constructor
  · intro h other l' hl' hv'
    obtain ⟨hp, rfl⟩ := List.getElem?_eq_some_iff.mp hl
    obtain ⟨ho, rfl⟩ := List.getElem?_eq_some_iff.mp hl'
    rcases Nat.lt_trichotomy other place with hlt | heq | hlt
    · exact absurd ⟨hv', hv⟩ (h other place ho hp hlt)
    · exact heq
    · exact absurd ⟨hv, hv'⟩ (h place other hp ho hlt)
  · rintro h i j hi hj hlt ⟨hvi, hvj⟩
    have hi' := h i _ (List.getElem?_eq_getElem hi) hvi
    have hj' := h j _ (List.getElem?_eq_getElem hj) hvj
    exact Nat.ne_of_lt hlt (hi'.trans hj'.symm)

theorem Apart.perm (h : Apart body v) (hp : body.Perm body') : Apart body' v :=
  (hp.pairwise_iff fun h h' => h h'.symm).mp h

theorem Acceptable.of_perm (h : Acceptable head body) (hp : body.Perm body') :
    Acceptable head body' := by
  refine ⟨h.head_ne_nil, fun a ha v hv => ?_, fun place atoms hl v hv => ?_⟩
  · obtain ⟨b, hb, hvb⟩ := h.head_bound a ha v hv
    exact ⟨b, hp.mem_iff.mp hb, hvb⟩
  · obtain ⟨place₀, hl₀⟩ := List.mem_iff_getElem?.mp (hp.mem_iff.mpr (List.mem_of_getElem? hl))
    rcases h.bound_or_local place₀ atoms hl₀ v hv with ⟨b, hb, hvb⟩ | hlocal
    · exact .inl ⟨b, hp.mem_iff.mp hb, hvb⟩
    · exact .inr ((apart_iff hl hv).mp (((apart_iff hl₀ hv).mpr hlocal).perm hp))

theorem negativesLast_perm (body : List Literal) : (negativesLast body).Perm body :=
  List.filter_append_perm _ body

/-! ## What is checked -/

theorem occursElsewhere_iff : occursElsewhere body place v = true ↔
    ∃ other l, body[other]? = some l ∧ other ≠ place ∧ v ∈ l.vars := by
  simp only [occursElsewhere, List.any_eq_true, Prod.exists, List.mem_zipIdx_iff_getElem?,
    Bool.and_eq_true, bne_iff_ne, List.contains_iff_mem]
  exact exists_comm

theorem unboundHead?_eq_none_iff : unboundHead? head body = none ↔
    ∀ a ∈ head, ∀ v ∈ a.vars, v ∈ boundVariables body := by
  simp only [unboundHead?, List.find?_eq_none, List.mem_flatMap, forall_exists_index, and_imp,
    Bool.not_eq_true, Bool.not_eq_false', List.contains_iff_mem]
  exact ⟨fun h a ha v hv => h v a ha hv, fun h v a ha hv => h a ha v hv⟩

theorem sharedUnbound?_eq_none_iff : sharedUnbound? body = none ↔
    ∀ place atoms, body[place]? = some (.negative atoms) → ∀ v ∈ (Literal.negative atoms).vars,
      v ∈ boundVariables body ∨ occursElsewhere body place v = false := by
  have hshared (place : Nat) (l : Literal) : (l.vars.filter fun v =>
      !(boundVariables body).contains v && occursElsewhere body place v) = [] ↔ ∀ v ∈ l.vars,
        v ∈ boundVariables body ∨ occursElsewhere body place v = false := by
    simp only [List.filter_eq_nil_iff, Bool.and_eq_true, Bool.not_eq_true', not_and_or,
      Bool.not_eq_false, Bool.not_eq_true, List.contains_iff_mem]
  rw [sharedUnbound?, List.head?_eq_none_iff, List.flatMap_eq_nil_iff]
  simp only [Prod.forall, List.mem_zipIdx_iff_getElem?]
  constructor
  · exact fun h place atoms hl => (hshared place _).mp (h _ _ hl)
  · intro h l place hl
    cases l with
    | positive a => rfl
    | negative atoms => exact (hshared place _).mpr (h place atoms hl)

theorem occursElsewhere_eq_false_iff : occursElsewhere body place v = false ↔
    ∀ (other : Nat) (l : Literal), body[other]? = some l → v ∈ l.vars → other = place := by
  rw [← Bool.not_eq_true, occursElsewhere_iff]
  constructor
  · intro h other l hl hv
    by_contra hne
    exact h ⟨other, l, hl, hne, hv⟩
  · rintro h ⟨other, l, hl, hne, hv⟩
    exact hne (h other l hl hv)

/-- What is checked makes a rule acceptable. -/
theorem acceptable_iff : Acceptable head body ↔
    head ≠ [] ∧ unboundHead? head body = none ∧ sharedUnbound? body = none := by
  rw [unboundHead?_eq_none_iff, sharedUnbound?_eq_none_iff]
  simp only [mem_boundVariables, occursElsewhere_eq_false_iff]
  exact ⟨fun h => ⟨h.head_ne_nil, h.head_bound, h.bound_or_local⟩, fun ⟨hne, hbound, hlocal⟩ =>
    ⟨hne, hbound, hlocal⟩⟩

theorem exists_new_iff_negativesLast {names : List String} :
    (∃ r, Rule.new head body names = .ok r) ↔ Acceptable head (negativesLast body) := by
  rw [acceptable_iff, Rule.new]
  cases head with
  | nil => exact iff_of_false (fun ⟨_, h⟩ => by cases h) fun h => h.1 rfl
  | cons a head =>
    cases unboundHead? (a :: head) (negativesLast body) with
    | some v => exact iff_of_false (fun ⟨_, h⟩ => by cases h) fun h => by cases h.2.1
    | none =>
      cases sharedUnbound? (negativesLast body) with
      | some v => exact iff_of_false (fun ⟨_, h⟩ => by cases h) fun h => by cases h.2.2
      | none => exact iff_of_true ⟨_, rfl⟩ ⟨List.cons_ne_nil a head, rfl, rfl⟩

/-- The rules with acceptable parts are accepted, and no others. -/
theorem exists_new_iff {names : List String} :
    (∃ r, Rule.new head body names = .ok r) ↔ Acceptable head body :=
  exists_new_iff_negativesLast.trans
    ⟨fun h => h.of_perm (negativesLast_perm body), fun h => h.of_perm (negativesLast_perm body).symm⟩

/-- A rule that was read from a text is acceptable as it stands. -/
theorem Parsed.acceptable {r : Rule} (h : r.Parsed) : Acceptable r.head r.body := by
  obtain ⟨text, d, d', h⟩ := h
  obtain ⟨s', hs, -⟩ := exists_read_of_parse h
  obtain ⟨head, body, hr, -⟩ := exists_new_of_read hs
  have he := (new_eq_ok hr).1
  have hhead : r.head = head := congrArg Rule.head he
  have hbody : r.body = negativesLast body := congrArg Rule.body he
  rw [hhead, hbody]
  exact exists_new_iff_negativesLast.mp ⟨_, hr⟩

/-- The variables that a negated literal shares with others are bound by positive ones. -/
theorem Acceptable.mem_boundVariables {atoms : List Atom} (h : Acceptable head body)
    (hl : body[place]? = some (.negative atoms)) (hv : v ∈ (Literal.negative atoms).vars)
    (hshared : occursElsewhere body place v = true) : v ∈ boundVariables body := by
  rcases h.bound_or_local place atoms hl v hv with hbound | hlocal
  · exact Rule.mem_boundVariables.mpr hbound
  · rw [occursElsewhere_eq_false_iff.mpr hlocal] at hshared
    cases hshared

end Entail.Rule
