import Entail.Proofs.Rule.Safety
import Entail.Proofs.Table
import Entail.Rule.Evaluation

/-!
# Bindings and assignments

Bindings stand for the assignments that agree with them (`Bindings.Agrees`). Binding an atom to a
fact cuts these down to the assignments under which the atom is the fact, or fails if there are none
(`Bindings.bind_spec`); the pattern of an atom accepts every fact that the atom can still become
(`Bindings.accepts_patternOf`), and the instance of an atom is the fact that all assignments agree
on (`Bindings.instantiate_eq`). Constants are read as the representatives of their classes.
-/

namespace Entail

/-- The resource that a term stands for, with the classes by which constants are normalized. -/
def Term.groundIn (classes : Option Classes) (σ : Assignment) : Term → Nat
  | .var v => σ v
  | .const c => Classes.normalizeIn classes c

/-- The fact that an atom becomes, with the classes by which constants are normalized. -/
def Atom.groundIn (a : Atom) (classes : Option Classes) (σ : Assignment) : Triple :=
  a.map (Term.groundIn classes σ)

@[simp] theorem Atom.groundIn_none (a : Atom) (σ : Assignment) : a.groundIn none σ = a.ground σ := by
  have h : Term.groundIn none σ = Term.ground σ := by
    funext t
    cases t <;> rfl
  rw [groundIn, h, ground]

namespace Atom

variable {a : Atom} {classes : Option Classes}

theorem get_groundIn (a : Atom) (classes : Option Classes) (σ : Assignment) (p : Position) :
    (a.groundIn classes σ).get p = (a.get p).groundIn classes σ := by
  cases p <;> rfl

/-- Only the variables of an atom matter for the fact that it becomes. -/
theorem groundIn_congr {σ τ : Assignment} (h : ∀ v ∈ a.vars, σ v = τ v) :
    a.groundIn classes σ = a.groundIn classes τ := by
  refine Three.eq_of_get fun p => ?_
  rw [get_groundIn, get_groundIn]
  cases hg : a.get p with
  | const c => rfl
  | var v => exact h v (mem_vars.mpr ⟨p, hg⟩)

end Atom

namespace Bindings

variable {b b' : Bindings} {classes : Option Classes} {σ τ : Assignment} {v : Nat}

/-- An assignment has the values that are bound. -/
def Agrees (b : Bindings) (σ : Assignment) : Prop := ∀ v id, b[v]? = some (some id) → σ v = id

/-- A variable is bound. -/
def Binds (b : Bindings) (v : Nat) : Prop := ∃ id, b[v]? = some (some id)

/-- The values that are bound, and a default for all other variables. -/
def toAssignment (b : Bindings) : Assignment := fun v => (b[v]?.getD none).getD 0

theorem agrees_toAssignment (b : Bindings) : b.Agrees b.toAssignment := fun v id h => by
  simp [toAssignment, h]

theorem exists_agrees (b : Bindings) : ∃ σ, b.Agrees σ :=
  ⟨_, b.agrees_toAssignment⟩

theorem Agrees.eq_of_binds (h : b.Agrees σ) (h' : b.Agrees τ) (hv : b.Binds v) : σ v = τ v := by
  obtain ⟨id, hid⟩ := hv
  rw [h v id hid, h' v id hid]

theorem Agrees.congr (h : b.Agrees σ) (he : ∀ v, b.Binds v → τ v = σ v) : b.Agrees τ :=
  fun v id hv => (he v ⟨id, hv⟩).trans (h v id hv)

@[simp] theorem size_free (n : Nat) : (free n).size = n := by simp [free]

theorem not_binds_free {n : Nat} : ¬ (free n).Binds v := by
  rintro ⟨id, h⟩
  simp [free, Array.getElem?_replicate] at h

theorem agrees_free (n : Nat) (σ : Assignment) : (free n).Agrees σ :=
  fun _ id h => (not_binds_free ⟨id, h⟩).elim

/-- `b'` is `b` with the terms of some pairs bound to their values. -/
structure Matches (classes : Option Classes) (pairs : List (Term × Nat)) (b b' : Bindings) :
    Prop where
  size : b'.size = b.size
  agrees (σ : Assignment) :
    b'.Agrees σ ↔ b.Agrees σ ∧ ∀ p ∈ pairs, p.1.groundIn classes σ = p.2
  binds (v : Nat) : b'.Binds v ↔ b.Binds v ∨ ∃ p ∈ pairs, p.1 = .var v

namespace Matches

variable {p : Term × Nat} {pairs : List (Term × Nat)} {b₁ : Bindings}

theorem of_const {c : Nat} {value : Nat} (hc : Classes.normalizeIn classes c = value) :
    Matches classes [(.const c, value)] b b :=
  ⟨rfl, fun σ => by simp [Term.groundIn, hc], fun v => by simp⟩

/-- A variable that is bound has its value. -/
theorem of_bound {value : Nat} (h : b[v]? = some (some value)) :
    Matches classes [(.var v, value)] b b := by
  refine ⟨rfl, fun σ => ?_, fun w => ?_⟩
  · refine (and_iff_left_of_imp fun hσ => ?_).symm
    simpa [Term.groundIn] using hσ v value h
  · refine (or_iff_left_of_imp ?_).symm
    rintro ⟨p, hp, hw⟩
    obtain rfl := List.mem_singleton.mp hp
    cases hw
    exact ⟨value, h⟩

/-- A free variable takes a value. -/
theorem of_free (h : b[v]? = some none) (id : Nat) :
    Matches classes [(.var v, id)] b (b.setIfInBounds v (some id)) := by
  have hget : ∀ w, (b.setIfInBounds v (some id))[w]? =
      if w = v then some (some id) else b[w]? := fun w => by
    have := (Array.getElem?_eq_some_iff.mp h).1
    rw [Array.getElem?_setIfInBounds]
    by_cases e : v = w
    · rw [if_pos e, if_pos this, if_pos e.symm]
    · rw [if_neg e, if_neg (Ne.symm e)]
  refine ⟨by simp, fun σ => ?_, fun w => ?_⟩
  · constructor
    · intro hσ
      refine ⟨fun w i hw => hσ w i ?_, fun p hp => ?_⟩
      · rw [hget, if_neg, hw]
        rintro rfl
        rw [h] at hw
        cases hw
      · obtain rfl := List.mem_singleton.mp hp
        exact hσ v id (by rw [hget, if_pos rfl])
    · rintro ⟨hσ, hp⟩ w i hw
      rw [hget] at hw
      split at hw
      · rename_i e
        cases hw
        exact e ▸ hp (.var v, id) (by simp)
      · exact hσ w i hw
  · simp only [Binds, hget]
    by_cases e : w = v
    · simp [e]
    · simp [e, Ne.symm e]

theorem cons (h₁ : Matches classes [p] b b₁) (h : Matches classes pairs b₁ b') :
    Matches classes (p :: pairs) b b' := by
  refine ⟨h.size.trans h₁.size, fun σ => ?_, fun v => ?_⟩
  · rw [h.agrees, h₁.agrees]
    simp [and_assoc]
  · rw [h.binds, h₁.binds]
    simp [or_assoc]

/-- No assignment gives the terms their values if none does once the first one has its value. -/
theorem exists_ne (h₁ : Matches classes [p] b b₁)
    (hn : ∀ σ, b₁.Agrees σ → ∃ q ∈ pairs, q.1.groundIn classes σ ≠ q.2) (hσ : b.Agrees σ) :
    ∃ q ∈ p :: pairs, q.1.groundIn classes σ ≠ q.2 := by
  by_cases hp : p.1.groundIn classes σ = p.2
  · obtain ⟨q, hq, hne⟩ := hn σ ((h₁.agrees σ).mpr ⟨hσ, by simpa using hp⟩)
    exact ⟨q, List.mem_cons_of_mem _ hq, hne⟩
  · exact ⟨p, List.mem_cons_self, hp⟩

end Matches

/-- Terms are bound one by one; if that fails, no assignment gives them their values. -/
theorem bindTerms_spec (classes : Option Classes) (pairs : List (Term × Nat)) (b : Bindings)
    (hb : ∀ p ∈ pairs, ∀ v, p.1 = .var v → v < b.size) :
    (∃ b', bindTerms classes pairs b = .ok (some b') ∧ Matches classes pairs b b') ∨
      bindTerms classes pairs b = .ok none ∧
        ∀ σ, b.Agrees σ → ∃ p ∈ pairs, p.1.groundIn classes σ ≠ p.2 := by
  induction pairs generalizing b with
  | nil => exact .inl ⟨b, rfl, rfl, fun σ => by simp, fun v => by simp⟩
  | cons p pairs ih =>
    -- once the first term is bound, in `b₁`, the other pairs follow
    have step : ∀ b₁, Matches classes [p] b b₁ →
        bindTerms classes (p :: pairs) b = bindTerms classes pairs b₁ →
        (∃ b', bindTerms classes (p :: pairs) b = .ok (some b') ∧
          Matches classes (p :: pairs) b b') ∨
        bindTerms classes (p :: pairs) b = .ok none ∧
          ∀ σ, b.Agrees σ → ∃ q ∈ p :: pairs, q.1.groundIn classes σ ≠ q.2 := by
      intro b₁ h₁ he
      rw [he]
      rcases ih b₁ fun q hq v hv => h₁.size ▸ hb q (List.mem_cons_of_mem _ hq) v hv with
        ⟨b', hr, hm⟩ | ⟨hr, hn⟩
      · exact .inl ⟨b', hr, h₁.cons hm⟩
      · exact .inr ⟨hr, fun σ hσ => h₁.exists_ne hn hσ⟩
    obtain ⟨t, value⟩ := p
    cases t with
    | const c =>
      by_cases hc : Classes.normalizeIn classes c = value
      · exact step b (.of_const hc) (by rw [bindTerms, if_pos hc])
      · exact .inr ⟨by rw [bindTerms, if_neg hc], fun σ _ => ⟨_, List.mem_cons_self, hc⟩⟩
    | var v =>
      have hv : v < b.size := hb _ List.mem_cons_self v rfl
      have hget : b[v]? = some b[v] := Array.getElem?_eq_getElem hv
      cases hval : b[v] with
      | none =>
        rw [hval] at hget
        exact step _ (.of_free hget value) (by rw [bindTerms, hget])
      | some bound =>
        rw [hval] at hget
        by_cases he : bound = value
        · subst he
          exact step b (.of_bound hget) (by rw [bindTerms, hget]; exact if_pos rfl)
        · refine .inr ⟨by rw [bindTerms, hget]; exact if_neg he, fun σ hσ => ?_⟩
          refine ⟨_, List.mem_cons_self, fun h => he ?_⟩
          rw [← hσ v bound hget]
          exact h

/-- The pairs of an atom and a fact agree just if the atom is the fact. -/
theorem forall_zip_iff {a : Atom} {t : Triple} :
    (∀ p ∈ a.toList.zip t.toList, p.1.groundIn classes σ = p.2) ↔ a.groundIn classes σ = t := by
  obtain ⟨s, p, o⟩ := a
  obtain ⟨s', p', o'⟩ := t
  simp [Three.toList, Atom.groundIn, Three.map]

theorem exists_zip_iff {a : Atom} {t : Triple} :
    (∃ p ∈ a.toList.zip t.toList, p.1 = .var v) ↔ v ∈ a.vars := by
  rw [Atom.mem_vars]
  obtain ⟨s, p, o⟩ := a
  obtain ⟨s', p', o'⟩ := t
  constructor
  · simp only [Three.toList, List.zip_cons_cons, List.zip_nil_right, List.mem_cons,
      List.not_mem_nil, or_false, exists_eq_or_imp, exists_eq_left]
    rintro (h | h | h)
    · exact ⟨.subject, h⟩
    · exact ⟨.predicate, h⟩
    · exact ⟨.object, h⟩
  · rintro ⟨q, hq⟩
    cases q <;> simp only [Three.get] at hq <;> simp [Three.toList, hq]

/-- `b'` is `b` cut down to the assignments under which an atom is a fact. -/
structure Fits (classes : Option Classes) (a : Atom) (t : Triple) (b b' : Bindings) : Prop where
  size : b'.size = b.size
  agrees (σ : Assignment) : b'.Agrees σ ↔ b.Agrees σ ∧ a.groundIn classes σ = t
  binds (v : Nat) : b'.Binds v ↔ b.Binds v ∨ v ∈ a.vars

/-- Every variable of an atom has a place in the bindings. -/
def Scopes (b : Bindings) (a : Atom) : Prop := ∀ v ∈ a.vars, v < b.size

/-- The bindings under which an atom is a fact, if there are any. -/
def bound? (b : Bindings) (classes : Option Classes) (a : Atom) (t : Triple) : Option Bindings :=
  match b.bind classes a t with
  | .ok found => found
  | .error _ => none

/-- Binding an atom to a fact leaves the assignments under which the atom is the fact. -/
theorem bind_spec (classes : Option Classes) {a : Atom} (ha : b.Scopes a) (t : Triple) :
    b.bind classes a t = .ok (b.bound? classes a t) ∧
      match b.bound? classes a t with
      | some b' => Fits classes a t b b'
      | none => ∀ σ, b.Agrees σ → a.groundIn classes σ ≠ t := by
  have hb : ∀ p ∈ a.toList.zip t.toList, ∀ v, p.1 = .var v → v < b.size := fun p hp v hv =>
    ha v (exists_zip_iff.mp ⟨p, hp, hv⟩)
  rcases bindTerms_spec classes (a.toList.zip t.toList) b hb with
    ⟨b', hr, hm⟩ | ⟨hr, hn⟩
  · have e : b.bound? classes a t = some b' := by rw [bound?, bind, hr]
    rw [e]
    exact ⟨hr, hm.size, fun σ => by rw [hm.agrees, forall_zip_iff],
      fun v => by rw [hm.binds, exists_zip_iff]⟩
  · have e : b.bound? classes a t = none := by rw [bound?, bind, hr]
    rw [e]
    refine ⟨hr, fun σ hσ ht => ?_⟩
    obtain ⟨p, hp, hne⟩ := hn σ hσ
    exact hne (forall_zip_iff.mpr ht p hp)

theorem fits_of_bound? {a : Atom} {t : Triple} (ha : b.Scopes a) (h : b.bound? classes a t = some b') :
    Fits classes a t b b' := by
  have hspec := (bind_spec classes ha t).2
  rwa [h] at hspec

section free

variable {n : Nat} {a : Atom} {t : Triple}

theorem Fits.agrees_iff (h : Fits classes a t (free n) b) : b.Agrees σ ↔ a.groundIn classes σ = t :=
  (h.agrees σ).trans (and_iff_right (agrees_free n σ))

theorem Fits.binds_iff (h : Fits classes a t (free n) b) : b.Binds v ↔ v ∈ a.vars :=
  (h.binds v).trans (or_iff_right not_binds_free)

theorem groundIn_ne_of_bound? (ha : (free n).Scopes a) (h : (free n).bound? classes a t = none)
    (σ : Assignment) : a.groundIn classes σ ≠ t := by
  have hspec := (bind_spec classes ha t).2
  rw [h] at hspec
  exact hspec σ (agrees_free n σ)

end free

/-- The resource that a term stands for, if it is bound. -/
def valueOf (b : Bindings) (classes : Option Classes) : Term → Option Nat
  | .const c => some (Classes.normalizeIn classes c)
  | .var v => b[v]?.getD none

/-- What an atom asks of a fact. -/
def patternOf (b : Bindings) (classes : Option Classes) (a : Atom) : Pattern :=
  a.map (b.valueOf classes)

theorem value_eq (classes : Option Classes) {t : Term} (ht : ∀ v, t = .var v → v < b.size) :
    b.value classes t = .ok (b.valueOf classes t) := by
  cases t with
  | const c => rfl
  | var v => simp [value, valueOf, ht v rfl]

theorem pattern_eq {a : Atom} (ha : b.Scopes a) :
    b.pattern classes a = .ok (b.patternOf classes a) := by
  have h : ∀ p, ∀ v, a.get p = .var v → v < b.size := fun p v hv => ha v (Atom.mem_vars.mpr ⟨p, hv⟩)
  have h₁ := value_eq classes (h .subject)
  have h₂ := value_eq classes (h .predicate)
  have h₃ := value_eq classes (h .object)
  simp only [Three.get] at h₁ h₂ h₃
  rw [pattern, h₁, h₂, h₃]
  rfl

/-- The pattern of an atom accepts every fact that the atom can still become. -/
theorem accepts_patternOf {a : Atom} {t : Triple} (hσ : b.Agrees σ)
    (ht : a.groundIn classes σ = t) : (b.patternOf classes a).accepts t = true := by
  refine Pattern.accepts_eq_true_iff.mpr fun p id hp => ?_
  have hp' : b.valueOf classes (a.get p) = some id := by
    rw [← hp]
    cases p <;> rfl
  have hget : t.get p = (a.get p).groundIn classes σ := by
    rw [← ht]
    cases p <;> rfl
  rw [hget]
  cases hg : a.get p with
  | const c =>
    rw [hg] at hp'
    exact (Option.some.inj hp').symm
  | var v =>
    rw [hg, valueOf, Option.getD_eq_iff] at hp'
    rcases hp' with hv | ⟨-, hv⟩
    · exact (hσ v id hv).symm
    · cases hv

/-- The instance of an atom whose variables are bound. -/
theorem instantiate_eq {a : Atom} {rule : Nat} (hσ : b.Agrees σ) (ha : ∀ v ∈ a.vars, b.Binds v) :
    b.instantiate classes rule a = .ok (a.groundIn classes σ) := by
  have h : ∀ p, b.headValue classes rule (a.get p) = .ok ((a.get p).groundIn classes σ) := fun p => by
    cases hg : a.get p with
    | const c => rfl
    | var v =>
      obtain ⟨id, hid⟩ := ha v (Atom.mem_vars.mpr ⟨p, hg⟩)
      simp only [headValue, value, hid, Term.groundIn, hσ v id hid]
      rfl
  have h₁ := h .subject
  have h₂ := h .predicate
  have h₃ := h .object
  simp only [Three.get] at h₁ h₂ h₃
  rw [instantiate, h₁, h₂, h₃]
  rfl

end Bindings

end Entail
