import Entail.Proofs.Classes
import Entail.Proofs.Rule.Index

/-!
# Equality closures

`equalityClosure rules base` is the least set that contains the base facts, is closed under the rules
and reads `owl:sameAs` as equality (`EquallyClosed`, `equalityClosure_subset`). In such a set it does
not matter by which of several equal resources a fact is written (`EquallyClosed.mem_congr`), so the
rules can be applied to representatives (`EquallyClosed.mem_of_concludes`). The other way round, what
is closed under rules on representatives gives such a set (`equallyClosed_of_normal`).
-/

namespace Entail

/-- A set of facts is closed under rules, and under what it says to be equal. -/
structure EquallyClosed (rules : List Rule) (X : Set Triple) : Prop where
  rule {r : Rule} (h : r ∈ rules) : r.Closes X
  reflexive {t : Triple} (h : t ∈ X) (p : Position) : .reflexive (t.get p) ∈ X
  symm {a b : Nat} (h : .sameAs a b ∈ X) : .sameAs b a ∈ X
  trans {a b c : Nat} (h : .sameAs a b ∈ X) (h' : .sameAs b c ∈ X) : .sameAs a c ∈ X
  replace {t : Triple} {p : Position} {b : Nat} (h : t ∈ X) (he : .sameAs (t.get p) b ∈ X) :
    t.modify (fun _ => b) p ∈ X

/-- A fact follows from base facts by rules and by equality. -/
inductive EquallyDerivable (rules : List Rule) (base : Set Triple) : Triple → Prop
  | base {t : Triple} (h : t ∈ base) : EquallyDerivable rules base t
  | rule {r : Rule} {σ : Assignment} {a : Atom} (hr : r ∈ rules)
      (hb : ∀ b, .positive b ∈ r.body → EquallyDerivable rules base (b.ground σ)) (ha : a ∈ r.head) :
      EquallyDerivable rules base (a.ground σ)
  | reflexive {t : Triple} (h : EquallyDerivable rules base t) (p : Position) :
      EquallyDerivable rules base (.reflexive (t.get p))
  | symm {a b : Nat} (h : EquallyDerivable rules base (.sameAs a b)) :
      EquallyDerivable rules base (.sameAs b a)
  | trans {a b c : Nat} (h : EquallyDerivable rules base (.sameAs a b))
      (h' : EquallyDerivable rules base (.sameAs b c)) : EquallyDerivable rules base (.sameAs a c)
  | replace {t : Triple} {p : Position} {b : Nat} (h : EquallyDerivable rules base t)
      (he : EquallyDerivable rules base (.sameAs (t.get p) b)) :
      EquallyDerivable rules base (t.modify (fun _ => b) p)

/-- The facts that follow from base facts by rules and by equality. -/
def equalityClosure (rules : List Rule) (base : Set Triple) : Set Triple :=
  {t | EquallyDerivable rules base t}

variable {rules : List Rule} {base X : Set Triple} {t u : Triple} {a b c : Nat} {p : Position}

theorem subset_equalityClosure : base ⊆ equalityClosure rules base := fun _ h => .base h

theorem equallyClosed_equalityClosure : EquallyClosed rules (equalityClosure rules base) where
  rule h _ hb _ ha := .rule h hb ha
  reflexive h p := .reflexive h p
  symm h := .symm h
  trans h h' := .trans h h'
  replace h he := .replace h he

/-- The equality closure is in every set with the base facts that is closed under the rules and under
equality. -/
theorem equalityClosure_subset (hbase : base ⊆ X) (hX : EquallyClosed rules X) :
    equalityClosure rules base ⊆ X := by
  intro t h
  induction h with
  | base h => exact hbase h
  | rule hr _ ha ih => exact hX.rule hr _ ih _ ha
  | reflexive _ p ih => exact hX.reflexive ih p
  | symm _ ih => exact hX.symm ih
  | trans _ _ ih ih' => exact hX.trans ih ih'
  | replace _ _ ih ih' => exact hX.replace ih ih'

/-- Facts about resources with a property are closed if `owl:sameAs` and the constants that rules conclude
have it. -/
theorem equallyClosed_forall {P : Nat → Prop} (hsame : P sameAsId)
    (hrules : ∀ r ∈ rules, r.Safe ∧ ∀ a ∈ r.head, ∀ id ∈ a.constants, P id) :
    EquallyClosed rules {t | ∀ p, P (t.get p)} := by
  have hequality : ∀ {a b : Nat}, P a → P b → ∀ q, P ((Triple.sameAs a b).get q) := by
    intro a b ha hb q
    cases q with
    | subject => exact ha
    | predicate => exact hsame
    | object => exact hb
  exact {
    rule := fun hr => Rule.closes_forall (hrules _ hr).1 (hrules _ hr).2
    reflexive := fun h q => hequality (h q) (h q)
    symm := fun h => hequality (h .object) (h .subject)
    trans := fun h h' => hequality (h .subject) (h' .object)
    replace := fun {t q b} h he q' => by
      have hb : P b := he .object
      cases q <;> cases q' <;>
        first | exact hb | exact h .subject | exact h .predicate | exact h .object }

/-! ## Equal resources -/

/-- Two resources are the same, or a set of facts says so. -/
def EqualIn (X : Set Triple) (a b : Nat) : Prop := a = b ∨ .sameAs a b ∈ X

theorem EqualIn.refl (a : Nat) : EqualIn X a a := .inl rfl

namespace EquallyClosed

variable (h : EquallyClosed rules X)

include h

theorem equalIn_symm (hab : EqualIn X a b) : EqualIn X b a := by
  rcases hab with rfl | hab
  · exact .refl a
  · exact .inr (h.symm hab)

theorem equalIn_trans (hab : EqualIn X a b) (hbc : EqualIn X b c) : EqualIn X a c := by
  rcases hab with rfl | hab
  · exact hbc
  · rcases hbc with rfl | hbc
    · exact .inr hab
    · exact .inr (h.trans hab hbc)

theorem mem_modify (ht : t ∈ X) (hb : EqualIn X (t.get p) b) : t.modify (fun _ => b) p ∈ X := by
  rcases hb with rfl | hb
  · cases p <;> exact ht
  · exact h.replace ht hb

/-- A fact may be written by other resources that are equal to its own. -/
theorem mem_congr (ht : t ∈ X) (htu : ∀ p, EqualIn X (t.get p) (u.get p)) : u ∈ X := by
  have h₁ := h.mem_modify (p := .subject) ht (htu .subject)
  have h₂ := h.mem_modify (p := .predicate) h₁ (htu .predicate)
  have h₃ := h.mem_modify (p := .object) h₂ (htu .object)
  exact h₃

variable {classes : Classes} (hc : ∀ id, EqualIn X id (classes.normalize id))

include hc

theorem normalizeTriple_mem_iff : classes.normalizeTriple t ∈ X ↔ t ∈ X := by
  have hpos : ∀ p, EqualIn X (t.get p) ((classes.normalizeTriple t).get p) := fun p => by
    rw [Classes.get_normalizeTriple]
    exact hc _
  exact ⟨fun ht => h.mem_congr ht fun p => h.equalIn_symm (hpos p), fun ht => h.mem_congr ht hpos⟩

/-- Rules may read their constants as representatives of equal resources. -/
theorem mem_of_concludes {r : Rule} (hr : r ∈ rules) {τ : Assignment}
    (hp : ∀ k u, r.Premise (some classes) τ k u → u ∈ X) (ht : r.Concludes (some classes) τ t) :
    t ∈ X := by
  have hground : ∀ (a : Atom) p,
      EqualIn X ((a.groundIn none τ).get p) ((a.groundIn (some classes) τ).get p) := fun a p => by
    rw [Atom.get_groundIn, Atom.get_groundIn]
    cases a.get p with
    | var v => exact .refl _
    | const id => exact hc id
  obtain ⟨a, ha, rfl⟩ := ht
  refine h.mem_congr (Rule.closes_iff.mp (h.rule hr) τ (a.groundIn none τ) ?_ ⟨a, ha, rfl⟩)
    (hground a)
  rintro k _ ⟨b, hb, rfl⟩
  exact h.mem_congr (hp k _ ⟨b, hb, rfl⟩) fun p => h.equalIn_symm (hground b p)

end EquallyClosed

/-- An atom read by representatives is the normal form of what it becomes otherwise. -/
theorem Atom.groundIn_normalize (a : Atom) (classes : Classes) (σ : Assignment) :
    a.groundIn (some classes) (fun v => classes.normalize (σ v)) =
      classes.normalizeTriple (a.groundIn none σ) := by
  refine Three.eq_of_get fun p => ?_
  rw [Classes.get_normalizeTriple, Atom.get_groundIn, Atom.get_groundIn]
  cases a.get p <;> rfl

/-- An equality whose normal form joins the classes of its sides has its sides in one class. -/
theorem Classes.Forest.normalize_eq_of_sameAs {classes : Classes} (hforest : classes.Forest)
    {B : Set Triple} (hsame : classes.normalize sameAsId = sameAsId)
    (hequal : ∀ t ∈ B, t.isSameAs = true → classes.normalize t.subject = classes.normalize t.object)
    {a b : Nat} (hab : classes.normalizeTriple (.sameAs a b) ∈ B) :
    classes.normalize a = classes.normalize b := by
  have hsides := hequal _ hab (beq_iff_eq.mpr hsame)
  simpa [Classes.normalizeTriple, Three.map, Triple.sameAs, hforest.normalize_normalize] using hsides

/-- If the normal forms of facts are closed under the rules and under equality, so are the facts. -/
theorem equallyClosed_of_normal {classes : Classes} (hforest : classes.Forest) {B : Set Triple}
    (hsame : classes.normalize sameAsId = sameAsId)
    (hrules : ∀ r ∈ rules, ∀ τ, (∀ k u, r.Premise (some classes) τ k u → u ∈ B) →
      ∀ t, r.Concludes (some classes) τ t → classes.normalizeTriple t ∈ B)
    (hreflexive : ∀ t ∈ B, ∀ p, classes.normalizeTriple (.reflexive (t.get p)) ∈ B)
    (hequal : ∀ t ∈ B, t.isSameAs = true → classes.normalize t.subject = classes.normalize t.object) :
    EquallyClosed rules {t | classes.normalizeTriple t ∈ B} := by
  have heq : ∀ {a b : Nat}, classes.normalizeTriple (.sameAs a b) ∈ B →
      classes.normalize a = classes.normalize b := hforest.normalize_eq_of_sameAs hsame hequal
  have hcongr : ∀ {a b c d : Nat}, classes.normalize a = classes.normalize c →
      classes.normalize b = classes.normalize d → classes.normalizeTriple (.sameAs a b) ∈ B →
        classes.normalizeTriple (.sameAs c d) ∈ B := by
    intro a b c d hac hbd hab
    simpa only [Classes.normalizeTriple, Three.map, Triple.sameAs, hac, hbd] using hab
  refine ⟨fun {r} hr => Rule.closes_iff.mpr fun σ t hp ht => ?_, fun {t} ht p => ?_, fun hab => ?_,
    fun hab hbc => ?_, fun {t p b} ht hb => ?_⟩
  · obtain ⟨a, ha, rfl⟩ := ht
    rw [Set.mem_ofPred_eq, ← hforest.normalizeTriple_normalizeTriple, ← Atom.groundIn_normalize]
    refine hrules r hr _ ?_ _ ⟨a, ha, rfl⟩
    rintro k _ ⟨b, hb, rfl⟩
    rw [Atom.groundIn_normalize]
    exact hp k _ ⟨b, hb, rfl⟩
  · have hidem : classes.normalize ((classes.normalizeTriple t).get p) = classes.normalize (t.get p) := by
      rw [Classes.get_normalizeTriple, hforest.normalize_normalize]
    exact hcongr hidem hidem (hreflexive _ ht p)
  · exact hcongr (heq hab) (heq hab).symm hab
  · exact hcongr rfl (heq hbc) hab
  · have hb := heq hb
    have hmodify : classes.normalizeTriple (t.modify (fun _ => b) p) = classes.normalizeTriple t := by
      cases p <;> simp only [Classes.normalizeTriple, Three.map, Three.modify, ← hb, Three.get]
    rw [Set.mem_ofPred_eq, hmodify]
    exact ht

end Entail
