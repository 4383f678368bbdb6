import Entail.Materialization
import Entail.Proofs.Classes.Direction
import Entail.Proofs.Maintenance.Budget
import Entail.Proofs.Maintenance.View
import Entail.Proofs.Rule.EqualityClosure

/-!
# Rounds of materialization with equality

Facts are kept in normal form while classes grow, so a fact `Stands` if some fact with the same normal
form is in the materialization. Whatever a round does, facts that stand go on to do so and classes only
grow (`Equality.Grows`), and all facts stay in a set that is closed under the rules and under equality
(`Equality.Filling`). Where all resources of a class have names, clashes are recorded
(`Equality.Recorded`), and a merge keeps it so (`Equality.Recorded.join`).

A pass over the facts that merges resources is repeated (`equateAll_wp`), and so is a round after which
more facts stand or classes are larger (`saturate_wp`). When nothing changes any more, the facts that
stand are closed under the rules and under equality themselves (`Saturated.equallyClosed`), if
`owl:sameAs` is still its own representative.
-/

namespace Entail

namespace Run

variable {r : Run} {t u : Triple}

/-- A fact is in the materialization, perhaps written by other resources of the same classes. -/
def Stands (r : Run) (t : Triple) : Prop :=
  ∃ u, r.Before u ∧ r.steady.normalizeTriple u = r.steady.normalizeTriple t

/-- The facts of the materialization are in normal form. -/
def Normal (r : Run) : Prop := ∀ t, r.Before t → r.steady.normalizeTriple t = t

theorem Before.stands (h : r.Before t) : r.Stands t := ⟨t, h, rfl⟩

theorem Stands.congr (h : r.Stands t)
    (htu : r.steady.normalizeTriple t = r.steady.normalizeTriple u) : r.Stands u := by
  obtain ⟨v, hv, he⟩ := h
  exact ⟨v, hv, he.trans htu⟩

theorem Normal.stands_iff (h : r.Normal) : r.Stands t ↔ r.Before (r.steady.normalizeTriple t) := by
  constructor
  · rintro ⟨u, hu, he⟩
    rwa [← he, h u hu]
  · exact fun ht => ⟨_, ht, h _ ht⟩

end Run

/-- The context of a materialization with equality: `C` is closed under the rules, under equality and
under what clashes record, and its facts are about resources up to `N`. -/
structure Context.Equating (c : Context) (rules : List Rule) (C : Set Triple) (N : Nat) : Prop where
  enabled : c.mode.equality.enabled = true
  builds : RuleIndex.Builds rules false c.rules
  definite : c.rules.Definite
  stop : c.stop = .never
  clashes (a b : Nat) (h : .sameAs a b ∈ C) (ha : c.dictionary.Apart c.mode.equality.uniqueNames a b) :
    ⟨b, rdfTypeId, nothingId⟩ ∈ C
  closed : EquallyClosed rules C
  known (t : Triple) (h : t ∈ C) (p : Position) : t.get p ≠ 0 ∧ t.get p ≤ N
  bound_le : N ≤ max nothingId c.dictionary.size
  room : N + 1 < Classes.sizeLimit

namespace Context.Equating

variable {c : Context} {rules : List Rule} {C : Set Triple} {N : Nat} (hc : c.Equating rules C N)

include hc

theorem steady_eq (r : Run) : c.steady? r = some r.steady := by
  rw [steady?, hc.enabled]
  rfl

theorem bound_le_maxId (r : Run) : N ≤ c.maxId r :=
  hc.bound_le.trans (Nat.max_le.mpr ⟨le_maxId (by simp), le_maxId (by simp)⟩)

end Context.Equating

namespace Equality

open Materialization (Equated add addAll present applyRules facts mergeBy equateFact renormalize equateAll
  equate saturate materializeLevel materialize)

variable {c : Context} {rules : List Rule} {C : Set Triple} {N : Nat} {r r' : Run} {t : Triple}

/-- What holds while facts of `C` are put into the materialization. -/
structure Filling (C : Set Triple) (N : Nat) (r : Run) : Prop where
  forest : r.steady.Forest
  size_le : r.steady.size ≤ N + 1
  equal (id : Nat) : EqualIn C id (r.steady.normalize id)
  sound (t : Triple) (h : r.Before t) : t ∈ C

/-! ## Facts -/

/-- A fact gets another status. -/
theorem setRow_wp (cleared set : Status) (r : Run) (t : Triple) :
    WP (Routine.rowOf t) r fun row r₁ => WP (Routine.updateStatus row cleared set) r₁ fun changed r' =>
      ∃ s T, (r.Before t ↔ Standing.before s = true) ∧ changed = (s.update cleared set != s) ∧
        r' = { r with table := T } ∧ ∀ u, r'.Before u ↔
          if u = t then Standing.before (s.update cleared set) = true else r.Before u := by
  refine Routine.rowOf_wp fun row r₁ hg hf _ => Routine.updateStatus_wp hf fun T hT => ?_
  refine ⟨r₁.table.status row, T, hg.before_iff.symm.trans (Run.before_iff hf), rfl, ?_, fun u => ?_⟩
  · obtain ⟨table, rfl⟩ := hg.eq
    rfl
  · refine (hT.holds_status_iff hf).trans ?_
    split
    · exact Iff.rfl
    · exact hg.before_iff

/-- A fact gets into the materialization; the answer says whether it was not there. -/
theorem enter_wp (r : Run) (t : Triple) :
    WP (do let row ← Routine.rowOf t; Routine.updateStatus row Status.merged Status.derived) r
      fun isNew r' => (∃ T, r' = { r with table := T }) ∧ (∀ u, r'.Before u ↔ u = t ∨ r.Before u) ∧
        (isNew = true ↔ ¬ r.Before t) := by
  rw [WP.bind_iff]
  refine (setRow_wp Status.merged Status.derived r t).mono fun row r₁ h => h.mono ?_
  rintro isNew r' ⟨s, T, hbefore, rfl, hr', hb⟩
  refine ⟨⟨T, hr'⟩, fun u => ?_, ?_⟩
  · rw [hb, Standing.before_entered]
    by_cases hu : u = t <;> simp [hu]
  · rw [Standing.entered_bne, Bool.not_eq_true', hbefore, Bool.not_eq_true]

/-- `r'` is `r` once the normal form of a fact is in the materialization, and the fact itself is not if
it is another. `isNew` says whether the normal form was not there. -/
structure Enters (r : Run) (t : Triple) (isNew : Bool) (r' : Run) : Prop where
  steady_eq : r'.steady = r.steady
  before_iff (u : Triple) : r'.Before u ↔ u = r.steady.normalizeTriple t ∨ r.Before u ∧ u ≠ t
  isNew_iff : isNew = true ↔ ¬ r.Before (r.steady.normalizeTriple t)

theorem add_wp (hc : c.Equating rules C N) (r : Run) (t : Triple) :
    WP (add c t) r fun isNew r' => Enters r t isNew r' := by
  rw [add, WP.bind_iff]
  refine Routine.reads_wp ?_
  rw [hc.steady_eq]
  dsimp only
  split
  · rename_i hne
    rw [WP.bind_iff]
    refine (setRow_wp Status.derived Status.merged r t).mono fun row r₁ hrow => ?_
    rw [WP.bind_iff, WP.discard_iff]
    refine hrow.mono ?_
    rintro _ _ ⟨s, T, -, -, rfl, hb⟩
    have hleft : ∀ u, Run.Before { r with table := T } u ↔ r.Before u ∧ u ≠ t := fun u => by
      rw [hb, Standing.before_left]
      by_cases hu : u = t <;> simp [hu]
    refine (enter_wp _ _).mono ?_
    rintro isNew _ ⟨⟨T', rfl⟩, hb', hnew⟩
    refine ⟨rfl, fun u => by rw [hb', hleft], ?_⟩
    rw [hnew, hleft, and_iff_left hne]
  · rename_i he
    rw [not_not] at he
    rw [he]
    refine (enter_wp r t).mono ?_
    rintro isNew _ ⟨⟨T, rfl⟩, hb, hnew⟩
    refine ⟨rfl, fun u => (hb u).trans ?_, by rwa [he]⟩
    rw [he]
    by_cases hu : u = t <;> simp [hu]

/-- A fact of `C` enters. -/
theorem Filling.enter (hc : c.Equating rules C N) (h : Filling C N r) (ht : t ∈ C) {isNew : Bool}
    (he : Enters r t isNew r') : Filling C N r' := by
  refine ⟨he.steady_eq ▸ h.forest, he.steady_eq ▸ h.size_le, he.steady_eq ▸ h.equal, fun u hu => ?_⟩
  rcases (he.before_iff u).mp hu with rfl | ⟨hu, -⟩
  · exact (hc.closed.normalizeTriple_mem_iff h.equal).mpr ht
  · exact h.sound u hu

/-- From `r` to `r'` the facts that stand go on to do so, and the classes grow, by an id at least if
resources were `merged`. If none were, facts in normal form stay so, and `changed` says whether there
are more. -/
structure Grows (r r' : Run) (changed merged : Bool) : Prop where
  stands (t : Triple) (h : r.Stands t) : r'.Stands t
  coarser {a b : Nat} (h : r.steady.normalize a = r.steady.normalize b) :
    r'.steady.normalize a = r'.steady.normalize b
  absorbed_le : r.steady.absorbed.card + merged.toNat ≤ r'.steady.absorbed.card
  steady_eq (h : merged = false) : r'.steady = r.steady
  normal (h : merged = false) (hn : r.Normal) : r'.Normal
  changed_iff (h : merged = false) (hn : r.Normal) :
    changed = true ↔ ∃ t, r'.Stands t ∧ ¬ r.Stands t

namespace Grows

variable {r'' : Run} {changed changed' merged merged' : Bool}

theorem refl (r : Run) : Grows r r false false :=
  ⟨fun _ => id, id, le_rfl, fun _ => rfl, fun _ => id, fun _ _ => by simp⟩

theorem trans (h : Grows r r' changed merged) (h' : Grows r' r'' changed' merged') :
    Grows r r'' (changed || changed') (merged || merged') := by
  refine ⟨fun t ht => h'.stands t (h.stands t ht), fun hab => h'.coarser (h.coarser hab), ?_,
    fun hm => ?_, fun hm hn => ?_, fun hm hn => ?_⟩
  · have h₁ := h.absorbed_le
    have h₂ := h'.absorbed_le
    cases merged <;> cases merged' <;> simp only [Bool.toNat_true, Bool.toNat_false, Bool.or_true,
      Bool.or_false, Bool.or_self] at * <;> omega
  all_goals obtain ⟨hm, hm'⟩ := Bool.or_eq_false_iff.mp hm
  · exact (h'.steady_eq hm').trans (h.steady_eq hm)
  · exact h'.normal hm' (h.normal hm hn)
  · rw [Bool.or_eq_true, h.changed_iff hm hn, h'.changed_iff hm' (h.normal hm hn)]
    constructor
    · rintro (⟨t, ht, hnot⟩ | ⟨t, ht, hnot⟩)
      · exact ⟨t, h'.stands t ht, hnot⟩
      · exact ⟨t, ht, fun hr => hnot (h.stands t hr)⟩
    · rintro ⟨t, ht, hnot⟩
      by_cases hr : r'.Stands t
      · exact .inl ⟨t, hr, hnot⟩
      · exact .inr ⟨t, ht, hr⟩

/-- Without merging nothing is lost. -/
theorem before (h : Grows r r' changed false) (hn : r.Normal) (ht : r.Before t) : r'.Before t := by
  have hb := (h.normal rfl hn).stands_iff.mp (h.stands t ht.stands)
  rwa [h.steady_eq rfl, hn t ht] at hb

/-- If nothing changed, all is as before. -/
theorem before_iff (h : Grows r r' false false) (hn : r.Normal) : r'.Before t ↔ r.Before t := by
  refine ⟨fun ht => ?_, h.before hn⟩
  have hstands : r.Stands t := by_contra fun hnot =>
    Bool.false_ne_true ((h.changed_iff rfl hn).mpr ⟨t, ht.stands, hnot⟩)
  have hb := hn.stands_iff.mp hstands
  rwa [← h.steady_eq rfl, h.normal rfl hn t ht] at hb

end Grows

namespace Enters

variable {isNew : Bool} (he : Enters r t isNew r') (hf : r.steady.Forest)

include he hf

/-- Whatever has the normal form of the fact stands. -/
theorem stands {u : Triple} (hu : r.steady.normalizeTriple t = r.steady.normalizeTriple u) :
    r'.Stands u := by
  refine ⟨r.steady.normalizeTriple t, (he.before_iff _).mpr (.inl rfl), ?_⟩
  rw [he.steady_eq, hf.normalizeTriple_normalizeTriple, hu]

/-- Whatever is new is in normal form. -/
theorem normal_or {u : Triple} (hu : r'.Before u) :
    r.steady.normalizeTriple u = u ∨ r.Before u ∧ u ≠ t := by
  rcases (he.before_iff u).mp hu with rfl | hu
  · exact .inl (hf.normalizeTriple_normalizeTriple t)
  · exact .inr hu

theorem grows : Grows r r' isNew false := by
  have hsteady := he.steady_eq
  refine ⟨fun u hu => ?_, fun hab => by rwa [hsteady], ?_, fun _ => hsteady, fun _ hn u hu => ?_,
    fun _ hn => ?_⟩
  · obtain ⟨v, hv, hvu⟩ := hu
    by_cases hvt : v = t
    · exact he.stands hf (hvt ▸ hvu)
    · exact ⟨v, (he.before_iff v).mpr (.inr ⟨hv, hvt⟩), by rw [hsteady, hvu]⟩
  · rw [hsteady]
    exact le_rfl
  · rw [hsteady]
    exact (he.normal_or hf hu).elim id fun hu => hn u hu.1
  · rw [he.isNew_iff, ← hn.stands_iff]
    refine ⟨fun hnot => ⟨t, he.stands hf rfl, hnot⟩, ?_⟩
    rintro ⟨u, ⟨v, hv, hvu⟩, hnot⟩ hstands
    rw [hsteady] at hvu
    rcases (he.before_iff v).mp hv with rfl | ⟨hv, -⟩
    · rw [hf.normalizeTriple_normalizeTriple] at hvu
      exact hnot (hstands.congr hvu)
    · exact hnot ⟨v, hv, hvu⟩

end Enters

/-- A fact of `C` gets into the materialization. -/
theorem add_stands (hc : c.Equating rules C N) (h : Filling C N r) (ht : t ∈ C) :
    WP (add c t) r fun isNew r' => Filling C N r' ∧ Grows r r' isNew false ∧ r'.Stands t :=
  (add_wp hc r t).mono fun _ _ he => ⟨h.enter hc ht he, he.grows h.forest, he.stands h.forest rfl⟩

/-- Facts of `C` get into the materialization. -/
theorem addAll_wp (hc : c.Equating rules C N) (h : Filling C N r) {facts : List Triple}
    (hfacts : ∀ t ∈ facts, t ∈ C) :
    WP (addAll c facts) r fun changed r' => (Filling C N r' ∧ Grows r r' changed false) ∧
      ∀ t ∈ facts, r'.Stands t := by
  refine WP.foldlM (fun changed r' => Filling C N r' ∧ Grows r r' changed false)
    (fun t r' => r'.Stands t) (fun t ht changed r₁ ⟨h₁, ha₁⟩ => ?_) ⟨h, .refl r⟩
  rw [WP.bind_iff]
  refine (add_stands hc h₁ (hfacts t ht)).mono ?_
  rintro isNew r₂ ⟨h₂, ha₂, hstands⟩
  exact WP.pure_iff.mpr ⟨⟨h₂, ha₁.trans ha₂⟩, hstands, fun u _ => ha₂.stands u⟩

/-! ## Rules -/

/-- Every rule is applied. -/
theorem applyRules_wp (hc : c.Equating rules C N) (h : Filling C N r) (hn : r.Normal) :
    WP (applyRules c (.ofLevel none)) r fun changed r' =>
      (Filling C N r' ∧ Grows r r' changed false) ∧
        ∀ s ∈ rules, ∀ τ, (∀ k u, s.Premise (some r.steady) τ k u → r.Before u) →
          ∀ t, s.Concludes (some r.steady) τ t → r'.Stands t := by
  refine (WP.foldlM (l := c.rules.inScope (.ofLevel none))
    (fun changed r' => Filling C N r' ∧ Grows r r' changed false)
    (fun p r' => ∀ τ, (∀ k u, p.1.rule.Premise (some r.steady) τ k u → r.Before u) →
      ∀ t, p.1.rule.Concludes (some r.steady) τ t → r'.Stands t)
    (fun p hp changed r₁ ⟨h₁, ha₁⟩ => ?_) ⟨h, .refl r⟩).mono ?_
  · obtain ⟨i, rule⟩ := p
    have hi := (RuleIndex.mem_inScope.mp hp).1
    have hd := hc.definite rule i hi
    have hsteady := ha₁.steady_eq rfl
    have hclasses : ((c.view present).snapshot r₁).classes = some r.steady :=
      (hc.steady_eq r₁).trans (congrArg some hsteady)
    obtain ⟨heads, hcons, hheads⟩ := RuleIndex.consequences_spec (c.view present) hd.safe hi rfl
      (s := r₁) rfl
    rw [hclasses] at hheads
    rw [WP.bind_iff]
    refine WP.of_eq hcons ?_
    rw [WP.bind_iff]
    refine (addAll_wp hc h₁ fun t ht => ?_).mono ?_
    · obtain ⟨τ, ht, hfires⟩ := (hheads t).mp ht
      have hprem := hfires.premises
      rw [hclasses] at hprem
      exact hc.closed.mem_of_concludes h.equal (hc.builds.rule_mem hi).1
        (fun k u hk => h₁.sound u (View.present_iff.mp (hprem k u hk))) ht
    · rintro isNew r₂ ⟨⟨h₂, ha₂⟩, hstands⟩
      refine WP.pure_iff.mpr ⟨⟨h₂, ha₁.trans ha₂⟩, fun τ hprem t ht => ?_,
        fun q _ hq τ hprem t ht => ha₂.stands t (hq τ hprem t ht)⟩
      refine hstands t ((hheads t).mpr ⟨τ, ht, ?_, ?_⟩)
      · rw [hclasses]
        exact fun k u hk => View.present_iff.mpr (ha₁.before hn (hprem k u hk))
      · exact hd.simple.unmatched_iff.mpr fun _ _ hk => absurd hk hd.not_blocker
  · rintro changed r' ⟨hr', hdone⟩
    refine ⟨hr', fun s hs τ hprem t ht => ?_⟩
    obtain ⟨rule, i, hi, rfl⟩ := hc.builds.exists_rule hs
    exact hdone (i, rule) (RuleIndex.mem_inScope.mpr ⟨hi, rfl⟩) τ hprem t ht

/-! ## Equalities -/

/-- What a fact says about equality holds: its resources are equal to themselves, and those of an
equality are in one class. -/
structure Respects (r : Run) (t : Triple) : Prop where
  reflexive (p : Position) : r.Stands (.reflexive (t.get p))
  equal (h : t.isSameAs = true) : r.steady.normalize t.subject = r.steady.normalize t.object

theorem Grows.respects {changed merged : Bool} (h : Grows r r' changed merged)
    (ht : Respects r t) : Respects r' t :=
  ⟨fun p => h.stands _ (ht.reflexive p), fun hs => h.coarser (ht.equal hs)⟩

/-- The representatives of the resources of facts of `C` can be merged. -/
theorem Filling.known (hc : c.Equating rules C N) (h : Filling C N r) (ht : t ∈ C) (p : Position) :
    r.steady.normalize (t.get p) ≠ 0 ∧ r.steady.normalize (t.get p) ≤ N := by
  have hk := hc.known _ ((hc.closed.normalizeTriple_mem_iff h.equal).mpr ht) p
  rwa [Classes.get_normalizeTriple] at hk

/-- Resources that are equal in `C` are merged. -/
theorem Filling.join (hc : c.Equating rules C N) (h : Filling C N r) {source target : Nat}
    (ht : .sameAs source target ∈ C) {classes : Classes} (hj : r.steady.Joins source target classes) :
    Filling C N { r with steady := classes } := by
  have hsource := (h.known hc ht .subject).2
  have htarget := (h.known hc ht .object).2
  simp only [Three.get, Triple.sameAs] at hsource htarget
  have hsize := h.size_le
  refine ⟨hj.forest, ?_, fun id => ?_, h.sound⟩
  · rw [hj.size_eq]
    omega
  · rw [hj.normalize_eq]
    split
    · rename_i hid
      -- along the path from `id` to `source`, to `target` and on
      have hs : EqualIn C id source := by
        refine hc.closed.equalIn_trans (h.equal id) ?_
        rw [hid]
        exact hc.closed.equalIn_symm (h.equal source)
      exact hc.closed.equalIn_trans hs (hc.closed.equalIn_trans (.inr ht) (h.equal target))
    · exact h.equal id

theorem Grows.of_joins {source target : Nat} {classes : Classes}
    (hj : r.steady.Joins source target classes) : Grows r { r with steady := classes } false true := by
  refine ⟨fun t ht => ?_, hj.coarser _ _, hj.card_eq.ge, fun hm => ?_, fun hm => ?_, fun hm => ?_⟩
  · obtain ⟨u, hu, he⟩ := ht
    exact ⟨u, hu, Classes.normalizeTriple_congr hj.coarser he⟩
  all_goals cases hm

/-- Clashes are recorded: if all resources of a class have names and two of them are apart, they are said to
be of the type `owl:Nothing`. -/
def Recorded (c : Context) (r : Run) : Prop :=
  ∀ a b, c.dictionary.Apart c.mode.equality.uniqueNames a b →
    r.steady.normalize a = r.steady.normalize b →
    (∀ id, r.steady.normalize id = r.steady.normalize a → c.dictionary.Named id) →
    r.Stands ⟨a, rdfTypeId, nothingId⟩

namespace Recorded

variable (h : Recorded c r)

include h

theorem of_steady_eq (hsteady : r'.steady = r.steady) (hstands : ∀ t, r.Stands t → r'.Stands t) :
    Recorded c r' := by
  intro a b hab he hnamed
  rw [hsteady] at he hnamed
  exact hstands _ (h a b hab he hnamed)

/-- If the two resources that are merged are apart, this is recorded. If others of their classes are, it is
recorded of one of the classes already, or the two are apart as well. -/
theorem join {source target : Nat} (hj : r.steady.Joins source target r'.steady)
    (hstands : ∀ t, r.Stands t → r'.Stands t)
    (hclash : c.dictionary.Apart c.mode.equality.uniqueNames source target →
      r'.Stands ⟨target, rdfTypeId, nothingId⟩) : Recorded c r' := by
  intro a b hab he hnamed
  have hcongr : ∀ id, r'.steady.normalize id = r'.steady.normalize a →
      r'.Stands ⟨id, rdfTypeId, nothingId⟩ → r'.Stands ⟨a, rdfTypeId, nothingId⟩ := fun id hid hs =>
    hs.congr (by simp only [Classes.normalizeTriple, Three.map, hid])
  have hwithin : ∀ x y, c.dictionary.Apart c.mode.equality.uniqueNames x y →
      r.steady.normalize x = r.steady.normalize y → r'.steady.normalize x = r'.steady.normalize a →
      r'.Stands ⟨a, rdfTypeId, nothingId⟩ := fun x y hxy hxy' hx =>
    hcongr x hx (hstands _ (h x y hxy hxy' fun id hid => hnamed id ((hj.coarser _ _ hid).trans hx)))
  have hacross : ∀ x y, c.dictionary.Apart c.mode.equality.uniqueNames x y →
      r.steady.normalize x = r.steady.normalize source →
      r.steady.normalize y = r.steady.normalize target → r'.steady.normalize x = r'.steady.normalize a →
      r'.Stands ⟨a, rdfTypeId, nothingId⟩ := by
    intro x y hxy hx hy hxa
    have hsource := (hj.coarser _ _ hx).symm.trans hxa
    have htarget := hj.normalize_source.symm.trans hsource
    rcases hxy.or (hnamed source hsource) with hleft | hxy
    · exact hwithin x source hleft hx hxa
    rcases hxy.or (hnamed target htarget) with hmiddle | hright
    · exact hcongr target htarget (hclash hmiddle)
    · exact hwithin target y hright hy.symm htarget
  have hold := he
  rw [hj.normalize_eq, hj.normalize_eq b] at hold
  split at hold <;> split at hold
  · exact hwithin a b hab (by simp only [*]) rfl
  · exact hacross a b hab ‹_› hold.symm rfl
  · exact hacross b a hab.symm ‹_› hold he.symm
  · exact hwithin a b hab hold rfl

end Recorded

/-- From `r` to `r'` facts and classes grow, and what clashes is recorded if it was. -/
structure Advances (c : Context) (r r' : Run) (changed merged : Bool) : Prop
    extends Grows r r' changed merged where
  recorded (h : Recorded c r) : Recorded c r'

theorem Grows.advances {changed : Bool} (h : Grows r r' changed false) : Advances c r r' changed false :=
  { h with recorded := fun hr => hr.of_steady_eq (h.steady_eq rfl) h.stands }

theorem Advances.trans {r'' : Run} {changed changed' merged merged' : Bool}
    (h : Advances c r r' changed merged) (h' : Advances c r' r'' changed' merged') :
    Advances c r r'' (changed || changed') (merged || merged') :=
  { h.toGrows.trans h'.toGrows with recorded := fun hr => h'.recorded (h.recorded hr) }

/-- A merge, and what is recorded of it. -/
theorem Advances.of_merge {r₁ : Run} {source target : Nat} {changed merged : Bool}
    (hm : Grows r r₁ false merged) (hj : merged = true → r.steady.Joins source target r₁.steady)
    (ha : Grows r₁ r' changed false)
    (hclash : c.dictionary.Apart c.mode.equality.uniqueNames source target →
      r'.Stands ⟨target, rdfTypeId, nothingId⟩) : Advances c r r' changed merged := by
  have hgrows := hm.trans ha
  rw [Bool.false_or, Bool.or_false] at hgrows
  refine { hgrows with recorded := fun hr => ?_ }
  cases merged with
  | false => exact hr.of_steady_eq (hgrows.steady_eq rfl) hgrows.stands
  | true =>
    have hjoins := hj rfl
    rw [← ha.steady_eq rfl] at hjoins
    exact hr.join hjoins hgrows.stands hclash

/-- Merging resources that are equal in `C`. -/
theorem mergeSteady_wp (hc : c.Equating rules C N) (h : Filling C N r) {source target : Nat}
    (ht : .sameAs source target ∈ C) :
    WP (Routine.mergeSteady source target) r fun merged r' =>
      Filling C N r' ∧ Grows r r' false merged ∧
        (merged = true → r.steady.Joins source target r'.steady) ∧
        r'.steady.normalize source = r'.steady.normalize target := by
  by_cases he : r.steady.normalize source = r.steady.normalize target
  · refine ⟨false, r, ?_, h, .refl r, fun hm => absurd hm Bool.false_ne_true, he⟩
    rw [Routine.mergeSteady, Classes.merge?_of_eq he]
  · have hsource := (h.known hc ht .subject).2
    obtain ⟨hpos, htarget⟩ := h.known hc ht .object
    simp only [Three.get, Triple.sameAs] at hsource hpos htarget
    have hroom := hc.room
    obtain ⟨classes, hmerge, hj⟩ := h.forest.merge?_eq he hpos (by omega)
    refine ⟨true, { r with steady := classes }, ?_, h.join hc ht hj, .of_joins hj, fun _ => hj,
      hj.normalize_source⟩
    rw [Routine.mergeSteady, hmerge]

/-- The resources of an equality are merged, and if they are apart, this is recorded. -/
theorem mergeBy_wp (hc : c.Equating rules C N) (h : Filling C N r) (ht : t ∈ C)
    (hs : t.isSameAs = true) (hne : t.subject ≠ t.object) (done : Equated) :
    WP (mergeBy c t done) r fun done' r' => Filling C N r' ∧ ∃ changed merged,
      done' = ⟨done.changed || changed, done.merged || merged⟩ ∧ Advances c r r' changed merged ∧
        r'.steady.normalize t.subject = r'.steady.normalize t.object := by
  obtain ⟨a, p, b⟩ := t
  obtain rfl : p = sameAsId := beq_iff_eq.mp hs
  have hclash := c.dictionary.clash_iff c.mode.equality.uniqueNames hne
  have hends := c.dictionary.mergeDirection_ends c.mode.equality.uniqueNames a b
  rw [mergeBy]
  generalize c.dictionary.mergeDirection c.mode.equality.uniqueNames a b = d at hclash hends
  obtain ⟨source, target, clash⟩ := d
  obtain ⟨hmem, hapart, hback⟩ : .sameAs source target ∈ C ∧
      (clash = true ↔ c.dictionary.Apart c.mode.equality.uniqueNames source target) ∧
      ∀ classes : Classes, classes.normalize source = classes.normalize target →
        classes.normalize a = classes.normalize b := by
    rcases hends with ⟨rfl, rfl⟩ | ⟨rfl, rfl⟩
    · exact ⟨ht, hclash, fun _ => id⟩
    · exact ⟨hc.closed.symm ht, hclash.trans ⟨.symm, .symm⟩, fun _ => Eq.symm⟩
  rw [WP.bind_iff]
  refine (mergeSteady_wp hc h hmem).mono ?_
  rintro merged r₁ ⟨h₁, ha₁, hj, he₁⟩
  -- a merge is announced before the clash is recorded
  have hrecord : ∀ journal, WP (do
      if clash then
        c.announce (.inconsistency target)
        let isNew ← add c ⟨target, rdfTypeId, nothingId⟩
        pure { changed := done.changed || isNew, merged := done.merged || merged }
      else pure { changed := done.changed, merged := done.merged || merged } : Routine Equated)
      { r₁ with journal } fun done' r' => Filling C N r' ∧ ∃ changed merged,
        done' = ⟨done.changed || changed, done.merged || merged⟩ ∧ Advances c r r' changed merged ∧
          r'.steady.normalize a = r'.steady.normalize b := by
    intro journal
    split
    · rename_i hd
      rw [WP.bind_iff]
      refine Context.announce_wp hc.stop fun journal' => ?_
      rw [WP.bind_iff]
      refine (add_stands (r := { r₁ with journal := journal' }) hc { h₁ with }
        (hc.clashes source target hmem (hapart.mp hd))).mono ?_
      rintro isNew r₂ ⟨h₂, ha₂, hstands⟩
      exact WP.pure_iff.mpr ⟨h₂, isNew, merged, rfl, .of_merge ha₁ hj { ha₂ with } fun _ => hstands,
        hback _ (ha₂.coarser he₁)⟩
    · rename_i hd
      exact WP.pure_iff.mpr ⟨{ h₁ with }, false, merged, by rw [Bool.or_false],
        .of_merge ha₁ hj { Grows.refl r₁ with } fun h => absurd (hapart.mpr h) hd, hback _ he₁⟩
  dsimp only
  split
  · rw [WP.bind_iff]
    exact Context.announce_wp hc.stop hrecord
  · exact hrecord r₁.journal

/-- What a fact of `C` says about equality is brought about. -/
theorem equateFact_wp (hc : c.Equating rules C N) (h : Filling C N r) (ht : t ∈ C) (done : Equated) :
    WP (equateFact c done t) r fun done' r' => Filling C N r' ∧ Respects r' t ∧ ∃ changed merged,
      done' = ⟨done.changed || changed, done.merged || merged⟩ ∧ Advances c r r' changed merged := by
  rw [equateFact, WP.bind_iff]
  refine (addAll_wp hc h fun u hu => ?_).mono ?_
  · obtain ⟨id, hid, rfl⟩ := List.mem_map.mp hu
    obtain ⟨p, rfl⟩ := Three.mem_toList.mp hid
    exact hc.closed.reflexive ht p
  rintro changed r₁ ⟨⟨h₁, ha₁⟩, hstands⟩
  have hreflexive : ∀ p, r₁.Stands (.reflexive (t.get p)) := fun p =>
    hstands _ (List.mem_map.mpr ⟨_, Three.mem_toList.mpr ⟨p, rfl⟩, rfl⟩)
  dsimp only
  split
  · rename_i hs
    refine (mergeBy_wp hc h₁ ht hs.1 hs.2 _).mono ?_
    rintro done' r₂ ⟨h₂, recorded, merged, rfl, ha₂, he⟩
    refine ⟨h₂, ⟨fun p => ha₂.stands _ (hreflexive p), fun _ => he⟩, changed || recorded, merged,
      by rw [Bool.or_assoc], ?_⟩
    simpa using ha₁.advances.trans ha₂
  · rename_i hs
    refine WP.pure_iff.mpr ⟨h₁, ⟨hreflexive, fun hsame => ?_⟩, changed, false, by simp, ha₁.advances⟩
    rw [not_and, not_not] at hs
    rw [hs hsame]

theorem mem_facts : t ∈ facts r ↔ r.Before t := Table.mem_map_select

/-- What the facts of the materialization say about equality is brought about. -/
theorem equateFacts_wp (hc : c.Equating rules C N) (h : Filling C N r) (changed : Bool) :
    WP ((facts r).foldlM (equateFact c) ⟨changed, false⟩) r fun done r' =>
      (Filling C N r' ∧ ∃ more, done.changed = (changed || more) ∧ Advances c r r' more done.merged) ∧
        ∀ t ∈ facts r, Respects r' t := by
  refine WP.foldlM (fun (done : Equated) r' => Filling C N r' ∧ ∃ more, done.changed = (changed || more) ∧
      Advances c r r' more done.merged) (fun t r' => Respects r' t)
    (fun t ht done r₁ ⟨h₁, more, hmore, ha₁⟩ => ?_) ⟨h, false, by simp, (Grows.refl r).advances⟩
  refine (equateFact_wp hc h₁ (h.sound t (mem_facts.mp ht)) done).mono ?_
  rintro _ r₂ ⟨h₂, hrespects, new, merged, rfl, ha₂⟩
  refine ⟨⟨h₂, more || new, ?_, ha₁.trans ha₂⟩, hrespects, fun u _ hu => ha₂.respects hu⟩
  dsimp only
  rw [hmore, Bool.or_assoc]

/-- All facts of the materialization get their normal forms. -/
theorem renormalize_wp (hc : c.Equating rules C N) (h : Filling C N r) :
    WP ((facts r).forM (renormalize c)) r fun _ r' => Filling C N r' ∧ r'.Normal ∧
      r'.steady = r.steady ∧ ∀ t, r.Stands t → r'.Stands t := by
  refine (WP.forM (l := facts r) (fun r' => Filling C N r' ∧ r'.steady = r.steady ∧
      (∀ t, r.Stands t → r'.Stands t) ∧ ∀ t, r'.Before t → t ∈ facts r ∨ r.steady.normalizeTriple t = t)
    (fun t r' => r'.Before t → r.steady.normalizeTriple t = t) (fun t ht r₁ ⟨h₁, hs₁, hk₁, hb₁⟩ => ?_)
    ⟨h, rfl, fun _ => id, fun t ht => .inl (mem_facts.mpr ht)⟩).mono ?_
  · rw [renormalize, WP.bind_iff]
    refine Routine.reads_wp ?_
    by_cases hnormal : r₁.steady.isNormalTriple t = true
    · rw [hnormal]
      have ht := h₁.forest.isNormalTriple_iff.mp hnormal
      exact WP.pure_iff.mpr ⟨⟨h₁, hs₁, hk₁, hb₁⟩, fun _ => hs₁ ▸ ht, fun _ _ => id⟩
    · rw [Bool.not_eq_true] at hnormal
      rw [hnormal]
      refine WP.discard_iff.mpr ((add_wp hc r₁ t).mono fun isNew r₂ he => ?_)
      have hnormal₂ {u} (hu : r₂.Before u) := hs₁ ▸ he.normal_or h₁.forest hu
      refine ⟨⟨h₁.enter hc (h.sound t (mem_facts.mp ht)) he, he.steady_eq.trans hs₁,
        fun u hu => (he.grows h₁.forest).stands u (hk₁ u hu), fun u hu => ?_⟩, fun hu => ?_,
        fun u _ hu hu' => ?_⟩
      · exact (hnormal₂ hu).elim .inr fun hu => hb₁ u hu.1
      · exact (hnormal₂ hu).elim id fun hu => absurd rfl hu.2
      · exact (hnormal₂ hu').elim id fun hu' => hu hu'.1
  · rintro _ r' ⟨⟨h', hs', hk', hb'⟩, hdone⟩
    refine ⟨h', fun t ht => ?_, hs', hk'⟩
    rw [hs']
    rcases hb' t ht with hmem | hn
    · exact hdone t hmem ht
    · exact hn

/-- Classes in a run cannot grow for ever. -/
theorem Filling.absorbed_le (h : Filling C N r) : r.steady.absorbed.card ≤ N + 1 :=
  (Classes.card_absorbed_le _).trans h.size_le

/-- Equality is brought about until no more resources are merged. -/
theorem equateAll_wp (hc : c.Equating rules C N) (fuel : Nat) (changed : Bool)
    (hfuel : N + 1 < r.steady.absorbed.card + fuel) (h : Filling C N r) (hn : r.Normal) :
    WP (equateAll c fuel changed) r fun changed' r' => Filling C N r' ∧ r'.Normal ∧ ∃ more merged,
      changed' = (changed || more || merged) ∧ Advances c r r' more merged ∧
        (merged = false → ∀ t, r.Before t → Respects r' t) := by
  -- a pass that is repeated has absorbed an id
  induction fuel generalizing changed r with
  | zero =>
    have := h.absorbed_le
    omega
  | succ fuel ih =>
    rw [equateAll, WP.bind_iff]
    refine Routine.reads_wp ?_
    rw [WP.bind_iff]
    refine (equateFacts_wp hc h changed).mono ?_
    rintro ⟨changed₁, merged₁⟩ r₁ ⟨⟨h₁, more, hchanged, ha₁⟩, hrespects⟩
    dsimp only at hchanged ha₁ ⊢
    cases merged₁ with
    | false =>
      refine WP.pure_iff.mpr ⟨h₁, ha₁.normal rfl hn, more, false, by simp [hchanged], ha₁, fun _ t ht => ?_⟩
      exact hrespects t (mem_facts.mpr ht)
    | true =>
      simp only [Bool.not_true, Bool.false_eq_true, if_false]
      rw [WP.bind_iff]
      refine Routine.reads_wp ?_
      rw [WP.bind_iff]
      refine (renormalize_wp hc h₁).mono ?_
      rintro _ r₂ ⟨h₂, hn₂, hs₂, hk₂⟩
      have ha₂ : Advances c r r₂ true true :=
        ⟨⟨fun t ht => hk₂ t (ha₁.stands t ht), fun hab => hs₂ ▸ ha₁.coarser hab, hs₂ ▸ ha₁.absorbed_le,
          fun hm => (by cases hm), fun hm => (by cases hm), fun hm => (by cases hm)⟩,
          fun hr => (ha₁.recorded hr).of_steady_eq hs₂ hk₂⟩
      have hgrown := ha₂.absorbed_le
      rw [Bool.toNat_true] at hgrown
      refine (ih true (by omega) h₂ hn₂).mono ?_
      rintro _ r₃ ⟨h₃, hn₃, more', merged', rfl, ha₃, -⟩
      exact ⟨h₃, hn₃, _, _, by simp, ha₂.trans ha₃, fun hm => by cases hm⟩

theorem equate_wp (hc : c.Equating rules C N) (h : Filling C N r) (hn : r.Normal) :
    WP (equate c) r fun changed r' => Filling C N r' ∧ r'.Normal ∧ ∃ more merged,
      changed = (more || merged) ∧ Advances c r r' more merged ∧
        (merged = false → ∀ t, r.Before t → Respects r' t) := by
  rw [equate, if_pos hc.enabled, WP.bind_iff]
  refine Routine.reads_wp ?_
  have hbound := hc.bound_le_maxId r
  refine (equateAll_wp hc (c.maxId r + 2) false (by omega) h hn).mono ?_
  rintro changed r' ⟨h', hn', more, merged, hchanged, h⟩
  exact ⟨h', hn', more, merged, by simpa using hchanged, h⟩

/-! ## Rounds -/

/-- Rules and equality lead to nothing new. -/
structure Saturated (rules : List Rule) (r : Run) : Prop where
  rules : ∀ s ∈ rules, ∀ τ, (∀ k u, s.Premise (some r.steady) τ k u → r.Before u) →
    ∀ t, s.Concludes (some r.steady) τ t → r.Stands t
  respects (t : Triple) (h : r.Before t) : Respects r t

/-- Whatever stands is in `C`. -/
theorem Filling.mem_of_stands (hc : c.Equating rules C N) (h : Filling C N r) (ht : r.Stands t) :
    t ∈ C := by
  obtain ⟨u, hu, he⟩ := ht
  rw [← hc.closed.normalizeTriple_mem_iff h.equal, ← he, hc.closed.normalizeTriple_mem_iff h.equal]
  exact h.sound u hu

/-- Rounds end, since each that changes something makes more facts stand or classes larger. -/
theorem saturate_wp (hc : c.Equating rules C N) (fuel rounds : Nat) {l : List Triple}
    (hnodup : l.Nodup) (hl : ∀ t ∈ l, r.Stands t)
    (hfuel : Nat.pow (N + 1) 3 + (N + 1) < l.length + r.steady.absorbed.card + fuel)
    (h : Filling C N r) (hn : r.Normal) :
    WP (saturate c (.ofLevel none) fuel rounds) r fun _ r' => Filling C N r' ∧ r'.Normal ∧
      Saturated rules r' ∧ (∀ t, r.Stands t → r'.Stands t) ∧ (Recorded c r → Recorded c r') := by
  -- `l` lists facts that stand: a round that is followed by another makes it longer or absorbs an id
  induction fuel generalizing rounds l r with
  | zero =>
    have hlen := length_le_of_within (n := N) hnodup fun t ht p =>
      (hc.known t (h.mem_of_stands hc (hl t ht)) p).2
    have hcard := h.absorbed_le
    omega
  | succ fuel ih =>
    rw [saturate, WP.bind_iff]
    refine (applyRules_wp hc h hn).mono ?_
    rintro derived r₁ ⟨⟨h₁, ha₁⟩, hrules⟩
    rw [WP.bind_iff]
    refine (equate_wp hc h₁ (ha₁.normal rfl hn)).mono ?_
    rintro _ r₂ ⟨h₂, hn₂, more, merged, rfl, ha₂, hrespects⟩
    have ha := ha₁.advances.trans ha₂
    rw [Bool.false_or] at ha
    -- what is left to do after a round that changed something
    have hnext : ∀ {l' : List Triple}, l'.Nodup → (∀ t ∈ l', r₂.Stands t) →
        l.length + r.steady.absorbed.card < l'.length + r₂.steady.absorbed.card →
        WP (saturate c (.ofLevel none) fuel (rounds + 1)) r₂ fun _ r' => Filling C N r' ∧ r'.Normal ∧
          Saturated rules r' ∧ (∀ t, r.Stands t → r'.Stands t) ∧ (Recorded c r → Recorded c r') := by
      intro l' hnodup' hl' hlt
      refine (ih (rounds + 1) hnodup' hl' (by omega) h₂ hn₂).mono ?_
      rintro _ r₃ ⟨h₃, hn₃, hsat, hk, hrecorded⟩
      exact ⟨h₃, hn₃, hsat, fun t ht => hk t (ha.stands t ht), fun hr => hrecorded (ha.recorded hr)⟩
    have hle := ha.absorbed_le
    cases merged with
    | true =>
      rw [Bool.or_true, Bool.or_true, if_pos rfl]
      rw [Bool.toNat_true] at hle
      exact hnext hnodup (fun t ht => ha.stands t (hl t ht)) (by omega)
    | false =>
      rw [Bool.or_false]
      cases hchanged : derived || more with
      | true =>
        rw [if_pos rfl]
        rw [hchanged] at ha
        obtain ⟨t, ht, hnot⟩ := (ha.changed_iff rfl hn).mp rfl
        refine hnext (List.nodup_cons.mpr ⟨fun hmem => hnot (hl t hmem), hnodup⟩)
          (List.forall_mem_cons.mpr ⟨ht, fun u hu => ha.stands u (hl u hu)⟩) ?_
        rw [List.length_cons, ha.steady_eq rfl]
        omega
      | false =>
        rw [if_neg Bool.false_ne_true]
        rw [hchanged] at ha
        obtain ⟨-, rfl⟩ := Bool.or_eq_false_iff.mp hchanged
        have hsteady := ha.steady_eq rfl
        refine WP.pure_iff.mpr
          ⟨h₂, hn₂, ⟨fun s hs τ hprem t ht => ?_, fun t ht => ?_⟩, ha.stands, ha.recorded⟩
        · rw [hsteady] at hprem ht
          exact ha₂.stands t (hrules s hs τ (fun k u hk => (ha.before_iff hn).mp (hprem k u hk)) t ht)
        · exact hrespects rfl t ((ha₂.before_iff (ha₁.normal rfl hn)).mp ht)

/-- The facts that stand once rules and equality lead to nothing new. -/
theorem Saturated.equallyClosed (hs : Saturated rules r) (h : Filling C N r) (hn : r.Normal)
    (hsame : r.steady.normalize sameAsId = sameAsId) : EquallyClosed rules {t | r.Stands t} := by
  have hset : {t | r.Stands t} = {t | r.steady.normalizeTriple t ∈ {t | r.Before t}} :=
    Set.ext fun t => hn.stands_iff
  rw [hset]
  exact equallyClosed_of_normal h.forest hsame
    (fun s hr τ hprem t ht => hn.stands_iff.mp (hs.rules s hr τ hprem t ht))
    (fun t ht p => hn.stands_iff.mp ((hs.respects t ht).reflexive p)) fun t ht => (hs.respects t ht).equal

/-- If all of `C` stands, resources have one representative exactly if they are equal in `C`. -/
theorem Saturated.normalize_eq_iff (hc : c.Equating rules C N) (hs : Saturated rules r)
    (h : Filling C N r) (hn : r.Normal) (hsame : r.steady.normalize sameAsId = sameAsId)
    (hC : ∀ t ∈ C, r.Stands t) {a b : Nat} :
    r.steady.normalize a = r.steady.normalize b ↔ EqualIn C a b := by
  constructor
  · intro hab
    have hb := hc.closed.equalIn_symm (h.equal b)
    rw [← hab] at hb
    exact hc.closed.equalIn_trans (h.equal a) hb
  · rintro (rfl | hab)
    · rfl
    · exact h.forest.normalize_eq_of_sameAs hsame (fun t ht => (hs.respects t ht).equal)
        (hn.stands_iff.mp (hC _ hab))

/-- The two sides of an equality in the materialization are one resource. -/
theorem Saturated.eq_of_sameAs (hs : Saturated rules r) (hn : r.Normal) {a b : Nat}
    (hab : r.Before (.sameAs a b)) : a = b := by
  have hside : ∀ p, r.steady.normalize ((Triple.sameAs a b).get p) = (Triple.sameAs a b).get p :=
    fun p => (Classes.get_normalizeTriple ..).symm.trans (congrArg (Three.get · p) (hn _ hab))
  exact (hside .subject).symm.trans (((hs.respects _ hab).equal rfl).trans (hside .object))

/-- Rounds start from an empty materialization with the asserted facts. -/
theorem materialize_wp (hc : c.Equating rules C N) (hsteady : r.steady = .discrete)
    (hnone : ∀ t, ¬ r.Before t) (hasserted : ∀ t, r.Asserted t → t ∈ C) :
    WP (materialize c) r fun _ r' => Filling C N r' ∧ r'.Normal ∧ Saturated rules r' ∧
      (∀ t, r.Asserted t → r'.Stands t) ∧ Recorded c r' := by
  have hnormalize : ∀ id, r.steady.normalize id = id := fun id => by
    rw [hsteady, Classes.normalize_of_root (congrArg Link.parent Classes.link_discrete)]
  have hfilling : Filling C N r := by
    refine ⟨hsteady ▸ Classes.forest_discrete, ?_, fun id => ?_, fun t ht => absurd ht (hnone t)⟩
    · rw [hsteady]
      exact Nat.zero_le _
    · rw [hnormalize]
      exact .refl id
  have hrecorded : Recorded c r := fun a b hab he _ => by
    rw [hnormalize, hnormalize] at he
    exact absurd he hab.ne
  have hlevels : Materialization.levels c.rules c.mode = .ok [none] := by
    rw [Materialization.levels, if_pos]
    rw [Mode.usesLevels, hc.enabled, Bool.not_true, Bool.and_false, Bool.not_false]
  have hselect : ∀ t, t ∈ (r.table.select fun s => s.any Status.asserted).map (·.2) ↔ r.Asserted t :=
    fun t => Table.mem_map_select
  rw [materialize, WP.bind_iff]
  refine Routine.reads_wp ?_
  rw [WP.bind_iff, WP.discard_iff]
  refine (addAll_wp hc hfilling fun t ht => hasserted t ((hselect t).mp ht)).mono ?_
  rintro _ r₁ ⟨⟨h₁, ha₁⟩, hstands⟩
  rw [hlevels, Routine.lift, pure_bind, WP.bind_iff, WP.forM_cons, materializeLevel, WP.bind_iff]
  refine Routine.reads_wp ?_
  have hbound := hc.bound_le_maxId r₁
  have hpow : Nat.pow (N + 1) 3 ≤ c.factBound r₁ := Nat.pow_le_pow_left (by omega) 3
  rw [WP.bind_iff]
  refine (saturate_wp hc _ 0 List.nodup_nil (fun _ h => by cases h) (by omega) h₁
    (ha₁.normal rfl fun t ht => absurd ht (hnone t))).mono ?_
  rintro rounds r₂ ⟨h₂, hn₂, hs₂, hk₂, hr₂⟩
  refine Routine.note_wp fun journal => ?_
  rw [WP.forM_nil, WP.bind_iff]
  refine Routine.reads_wp ?_
  rw [WP.bind_iff]
  refine Routine.note_wp fun journal' => WP.pure_iff.mpr ?_
  exact ⟨{ h₂ with }, hn₂, { hs₂ with respects := fun t ht => { hs₂.respects t ht with } },
    fun t ht => hk₂ t (hstands t ((hselect t).mpr ht)), hr₂ (ha₁.advances.recorded hrecorded)⟩

end Equality

end Entail
