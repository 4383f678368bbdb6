import Entail.Proofs.Rule.LeastModel
import Entail.Proofs.Rule.Reading

/-!
# Safe rules

A rule that was read from a text is `Safe` (`Rule.Parsed.safe`): its variables are numbered below
the number of their names, every variable of a head occurs in a positive literal, and the negated
literals come last. It has an id for every constant (`Rule.Parsed.constant_ne_zero`).
-/

namespace Entail

theorem Three.mem_toList {α : Type} {t : Three α} {a : α} : a ∈ t.toList ↔ ∃ p, t.get p = a := by
  constructor
  · intro h
    simp only [toList, List.mem_cons, List.not_mem_nil, or_false] at h
    rcases h with rfl | rfl | rfl
    · exact ⟨.subject, rfl⟩
    · exact ⟨.predicate, rfl⟩
    · exact ⟨.object, rfl⟩
  · rintro ⟨p, rfl⟩
    cases p <;> simp [toList, get]

namespace Atom

variable {a : Atom} {v id : Nat}

theorem mem_vars : v ∈ a.vars ↔ ∃ p, a.get p = .var v := by
  rw [vars, List.mem_filterMap, ← Three.mem_toList]
  refine ⟨fun ⟨t, ht, hv⟩ => ?_, fun h => ⟨_, h, rfl⟩⟩
  cases t with
  | var w => rwa [← Option.some.inj hv]
  | const c => cases hv

theorem mem_vars_iff : v ∈ a.vars ↔ .var v ∈ a.toList :=
  mem_vars.trans Three.mem_toList.symm

theorem mem_constants : id ∈ a.constants ↔ ∃ p, a.get p = .const id := by
  rw [constants, List.mem_filterMap, ← Three.mem_toList]
  refine ⟨fun ⟨t, ht, hv⟩ => ?_, fun h => ⟨_, h, rfl⟩⟩
  cases t with
  | var w => cases hv
  | const c => rwa [← Option.some.inj hv]

theorem mem_constants_iff : id ∈ a.constants ↔ .const id ∈ a.toList :=
  mem_constants.trans Three.mem_toList.symm

end Atom

namespace Rule

/-- Every variable of a rule has a name, those of its head are bound by its body, and the negated
literals of the body are behind the positive ones. -/
structure Safe (r : Rule) : Prop where
  named : ∀ a ∈ r.atoms, ∀ v ∈ a.vars, v < r.names.length
  bound : ∀ a ∈ r.head, ∀ v ∈ a.vars, ∃ b, .positive b ∈ r.body ∧ v ∈ b.vars
  ordered : r.body.Pairwise fun l l' => l.isPositive = false → l'.isPositive = false

theorem mem_boundVariables {body : List Literal} {v : Nat} :
    v ∈ boundVariables body ↔ ∃ b, .positive b ∈ body ∧ v ∈ b.vars := by
  simp only [boundVariables, List.mem_flatMap, List.mem_filter]
  constructor
  · rintro ⟨l, ⟨hl, hp⟩, hv⟩
    cases l with
    | positive b => exact ⟨b, hl, by simpa [Literal.vars, Literal.atoms] using hv⟩
    | negative as => cases hp
  · rintro ⟨b, hb, hv⟩
    exact ⟨.positive b, ⟨hb, rfl⟩, by simpa [Literal.vars, Literal.atoms] using hv⟩

/-- What `Rule.new` accepts is the rule with the given parts, its head bound by its body. -/
theorem new_eq_ok {head : List Atom} {body : List Literal} {names : List String} {r : Rule}
    (h : Rule.new head body names = .ok r) :
    r = ⟨head, negativesLast body, 0, names⟩ ∧
      ∀ a ∈ head, ∀ v ∈ a.vars, v ∈ boundVariables (negativesLast body) := by
  unfold Rule.new at h
  dsimp only at h
  split at h <;> [cases h; skip]
  split at h <;> [cases h; skip]
  rename_i hn
  split at h <;> [cases h; skip]
  refine ⟨by cases h; rfl, fun a ha v hv => ?_⟩
  have := List.find?_eq_none.mp hn v (List.mem_flatMap.mpr ⟨a, ha, hv⟩)
  simpa using this

theorem mem_negativesLast {body : List Literal} {l : Literal} :
    l ∈ negativesLast body ↔ l ∈ body := by
  simp only [negativesLast, List.mem_append, List.mem_filter]
  cases l.isPositive <;> simp

theorem pairwise_negativesLast (body : List Literal) :
    (negativesLast body).Pairwise fun l l' => l.isPositive = false → l'.isPositive = false := by
  have hall : ∀ l ∈ body.filter fun l => !l.isPositive, l.isPositive = false := fun l hl => by
    simpa using (List.mem_filter.mp hl).2
  refine List.pairwise_append.mpr ⟨?_, ?_, fun l _ l' hl' _ => hall l' hl'⟩
  · refine List.pairwise_of_forall_mem_list fun l hl l' _ hn => ?_
    rw [(List.mem_filter.mp hl).2] at hn
    cases hn
  · exact List.pairwise_of_forall_mem_list fun l _ l' hl' _ => hall l' hl'

theorem safe_of_read {text : String} {s s' : Reading} {r : Rule} (h : Rule.read text s = .ok r s') :
    r.Safe := by
  obtain ⟨head, body, hr, -, hhead, hbody⟩ := exists_new_of_read h
  obtain ⟨rfl, hb⟩ := new_eq_ok hr
  refine ⟨fun a ha v hv => ?_, fun a ha v hv => mem_boundVariables.mp (hb a ha v hv),
    pairwise_negativesLast body⟩
  have hvar := Atom.mem_vars_iff.mp hv
  simp only [Rule.atoms, List.mem_append, List.mem_flatMap, mem_negativesLast] at ha
  rcases ha with ha | ⟨l, hl, ha⟩
  · exact (hhead a ha _ hvar).lt_length
  · exact ((hbody l hl).2 _ (List.mem_flatMap.mpr ⟨a, ha, hvar⟩)).lt_length

/-- The variables of a rule that was read from a text are the numbers below the number of its names, which
are all different. -/
theorem variables_of_read {text : String} {d : Dictionary} {s' : Reading} {r : Rule}
    (h : Rule.read text ⟨d, []⟩ = .ok r s') : r.names = s'.names ∧ r.names.Nodup ∧
      ∀ v, v < r.names.length ↔ ∃ a ∈ r.atoms, v ∈ a.vars := by
  have hsafe := safe_of_read h
  obtain ⟨head, body, hr, hg, -⟩ := exists_new_of_read h
  obtain ⟨rfl, -⟩ := new_eq_ok hr
  refine ⟨rfl, hg.nodup List.nodup_nil, fun v => ⟨fun hv => ?_, fun ⟨a, ha, hv⟩ => hsafe.named a ha v hv⟩⟩
  have hmet := hg.met v (Nat.zero_le v) hv
  simp only [Rule.atoms, List.mem_append, List.mem_flatMap, mem_negativesLast, Literal.terms] at hmet ⊢
  rcases hmet with ⟨a, ha, hv⟩ | ⟨l, hl, a, ha, hv⟩
  · exact ⟨a, .inl ha, Atom.mem_vars_iff.mpr hv⟩
  · exact ⟨a, .inr ⟨l, hl, ha⟩, Atom.mem_vars_iff.mpr hv⟩

theorem Safe.of_atLevel {r : Rule} {level : Nat} (h : (r.atLevel level).Safe) : r.Safe :=
  ⟨h.named, h.bound, h.ordered⟩

/-- Rules that were read from a text are safe. -/
theorem Parsed.safe {r : Rule} (h : r.Parsed) : r.Safe := by
  obtain ⟨text, d, d', h⟩ := h
  obtain ⟨s', hs, -⟩ := exists_read_of_parse h
  exact (safe_of_read hs).of_atLevel

/-- The constants of a rule that was read from a text are ids of resources. -/
theorem Parsed.constant_ne_zero {r : Rule} (h : r.Parsed) {a : Atom} (ha : a ∈ r.atoms) {id : Nat}
    (hid : id ∈ a.constants) : id ≠ 0 := by
  obtain ⟨text, d, d', h⟩ := h
  obtain ⟨s', hs, -⟩ := exists_read_of_parse h
  obtain ⟨head, body, hr, -, hhead, hbody⟩ := exists_new_of_read hs
  rw [show r.atoms = (r.atLevel 0).atoms from rfl, (new_eq_ok hr).1] at ha
  have hconst := Atom.mem_constants_iff.mp hid
  simp only [Rule.atoms, List.mem_append, List.mem_flatMap, mem_negativesLast] at ha
  rcases ha with ha | ⟨l, hl, ha⟩
  · exact (hhead a ha _ hconst).1
  · exact ((hbody l hl).2 _ (List.mem_flatMap.mpr ⟨a, ha, hconst⟩)).1

end Rule

end Entail
