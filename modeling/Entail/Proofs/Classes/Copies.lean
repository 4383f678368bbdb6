import Entail.Proofs.Classes.Members

/-!
# Copies of classes

`copyClass` sets the links of a class back to what they are in another forest. If no class of the other
forest is partly inside and partly outside, the class falls apart into classes of the other forest, and all
other classes stay as they are (`copyClass_refines`). So forests that arise by merges and such copies
(`Arises`) go on to list each class once. While the links are set one after the other they may lead
anywhere: nothing is said of the forests in between, only of the links in the end (`Listed.link_copyClass`).
-/

namespace Entail.Classes

variable {c c' other : Classes} {id : Nat}

/-! ## Ranks -/

/-- Where parents have smaller ranks, the absorbed ids of no greater rank are a bound on the depth. -/
theorem exists_depth_of_rank (rank : Nat → Nat)
    (h : ∀ id, (c.link id).parent ≠ 0 → rank (c.link id).parent < rank id) : ∃ d, c.Depth d := by
  let below (id : Nat) : Finset Nat := c.absorbed.filter (rank · ≤ rank id)
  have hself {id : Nat} (hp : (c.link id).parent ≠ 0) : id ∈ below id :=
    Finset.mem_filter.mpr ⟨mem_absorbed.mpr hp, le_rfl⟩
  refine ⟨fun id => if (c.link id).parent = 0 then 0 else (below id).card, fun id hp => if_pos hp,
    fun id hp => ?_, fun id => ?_⟩
  · rw [if_neg hp]
    split
    · exact Finset.card_pos.mpr ⟨id, hself hp⟩
    · -- `id` itself does not count for its parent
      have hlt := h id hp
      refine Finset.card_lt_card (Finset.ssubset_iff_of_subset ?_ |>.mpr ⟨id, hself hp, fun hmem => ?_⟩)
      · exact Finset.monotone_filter_right _ fun _ _ hle => hle.trans hlt.le
      · exact absurd (Finset.mem_filter.mp hmem).2 hlt.not_ge
  · split
    · exact Nat.zero_le _
    · exact Finset.card_filter_le _ _

/-! ## The links of a copy -/

theorem link_modifyLink_of_le (h : c.size ≤ id) (f : Link → Link) (x : Nat) :
    (c.modifyLink id f).link x = c.link x := by
  rw [size] at h
  simp only [link, modifyLink, Array.getElem?_modify]
  split
  · rename_i he
    rw [← he, Array.getElem?_eq_none h]
    rfl
  · rfl

/-- The links of ids beyond the last that has any stay as they are. -/
theorem link_foldl_modifyLink (other : Classes) (l : List Nat) (c : Classes) (x : Nat) :
    (l.foldl (fun c member => c.modifyLink member fun _ => other.link member) c).link x =
      if x ∈ l ∧ x < c.size then other.link x else c.link x := by
  induction l generalizing c with
  | nil => simp
  | cons member l ih =>
    rw [List.foldl_cons, ih, size_modifyLink]
    by_cases hm : member < c.size
    · rw [link_modifyLink hm]
      by_cases hx : x = member
      · subst hx
        simp [hm]
      · simp [hx]
    · rw [link_modifyLink_of_le (Nat.le_of_not_lt hm)]
      by_cases hx : x = member
      · subst hx
        simp [hm]
      · simp [hx]

theorem size_copyClass (c : Classes) (id : Nat) (other : Classes) :
    (c.copyClass id other).size = c.size := by
  rw [copyClass]
  generalize c.members id = l
  induction l generalizing c with
  | nil => rfl
  | cons member l ih => rw [List.foldl_cons, ih, size_modifyLink]

/-- Every class of `other` that meets the class of `id` in `c` is contained in it. -/
def Covers (c : Classes) (id : Nat) (other : Classes) : Prop :=
  ∀ a b, c.normalize a = id → other.normalize b = other.normalize a → c.normalize b = id

/-- Ids of the class of `id` and no others are equal in `other` to ids of that class. -/
theorem Covers.normalize_eq (hcov : c.Covers id other) {a b : Nat} (h : other.normalize a = other.normalize b) :
    c.normalize a = id ↔ c.normalize b = id :=
  ⟨fun ha => hcov a b ha h.symm, fun hb => hcov b a hb h⟩

namespace Listed

variable (h : c.Listed) (h' : other.Listed)

include h in
/-- The next member is another id of the same class. -/
theorem normalize_next {x : Nat} (hn : c.next x ≠ 0) :
    c.normalize (c.next x) = c.normalize x ∧ c.next x ≠ x := by
  obtain ⟨front, l, he⟩ := List.append_of_mem (h.mem_members_iff.mpr (rfl : c.normalize x = _))
  have hnodup := h.nodup_members x
  cases h.trails_of_members he with
  | last h₀ => exact absurd h₀ hn
  | next =>
    refine ⟨h.mem_members_iff.mp (by rw [he]; simp), fun hx => ?_⟩
    rw [he, hx] at hnodup
    exact (List.nodup_cons.mp (List.nodup_append.mp hnodup).2.1).1 List.mem_cons_self

include h in
/-- An id without links is on its own. -/
theorem eq_of_size_le {x y : Nat} (hsize : c.size ≤ x) (hy : c.normalize y = c.normalize x) : y = x := by
  have hsingle : c.isSingleton x = true := by
    rw [isSingleton, link_eq_default hsize]
    rfl
  exact h.isSingleton_iff.mp hsingle y hy

include h h' in
/-- An id of the class without links is all of the class, so it has no links in the other forest
either. -/
theorem link_eq_default_of_covers (hcov : c.Covers id other) {x : Nat} (hx : c.normalize x = id)
    (hsize : c.size ≤ x) : other.link x = {} := by
  refine eq_of_beq (h'.isSingleton_iff.mpr fun y hy => ?_)
  exact h.eq_of_size_le hsize ((hcov x y hx hy).trans hx.symm)

variable (hid : (c.link id).parent = 0) (hcov : c.Covers id other)

include h h' hid hcov

/-- In the copy the ids of the class have the links of the other forest. -/
theorem link_copyClass (x : Nat) :
    (c.copyClass id other).link x = if c.normalize x = id then other.link x else c.link x := by
  have hmem := (h.trails_of_root hid).2.2 x
  rw [copyClass, link_foldl_modifyLink]
  by_cases hx : c.normalize x = id
  · rw [if_pos hx]
    split
    · rfl
    · rename_i hn
      have hsize : c.size ≤ x := Nat.le_of_not_lt fun hlt => hn ⟨hmem.mpr hx, hlt⟩
      rw [link_eq_default hsize, h.link_eq_default_of_covers h' hcov hx hsize]
  · rw [if_neg hx, if_neg fun hn => hx (hmem.mp hn.1)]

theorem parent_copyClass (x : Nat) : ((c.copyClass id other).link x).parent =
    if c.normalize x = id then (other.link x).parent else (c.link x).parent := by
  rw [h.link_copyClass h' hid hcov]
  split <;> rfl

theorem next_copyClass (x : Nat) : (c.copyClass id other).next x =
    if c.normalize x = id then other.next x else c.next x := by
  rw [next, h.link_copyClass h' hid hcov]
  split <;> rfl

/-- The next member in the other forest is another id of the class, so it has links. -/
theorem forest_copyClass : (c.copyClass id other).Forest := by
  obtain ⟨d, hd⟩ := h.forest.exists_depth
  obtain ⟨d', hd'⟩ := h'.forest.exists_depth
  refine ⟨exists_depth_of_rank (fun x => if c.normalize x = id then d' x else d x)
    fun x hp => ?_, fun x hn => ?_⟩
  · rw [h.parent_copyClass h' hid hcov] at hp ⊢
    split
    · rename_i hx
      rw [if_pos hx] at hp
      rw [if_pos ((hcov.normalize_eq (h'.forest.normalize_parent hp)).mpr hx)]
      exact hd'.parent_lt x hp
    · rename_i hx
      rw [if_neg hx] at hp
      rw [h.forest.normalize_parent hp, if_neg hx]
      exact hd.parent_lt x hp
  · rw [size_copyClass]
    rw [h.next_copyClass h' hid hcov] at hn ⊢
    split
    · rename_i hx
      rw [if_pos hx] at hn
      obtain ⟨he, hne⟩ := h'.normalize_next hn
      have hnext := hcov x _ hx he
      exact Nat.lt_of_not_le fun hsize => hne (h.eq_of_size_le hsize (hx.trans hnext.symm)).symm
    · rename_i hx
      rw [if_neg hx] at hn
      exact h.forest.next_lt x hn

theorem normalize_copyClass (x : Nat) : (c.copyClass id other).normalize x =
    if c.normalize x = id then other.normalize x else c.normalize x := by
  have hforest := h.forest_copyClass h' hid hcov
  refine hforest.induction (P := fun x => (c.copyClass id other).normalize x =
    if c.normalize x = id then other.normalize x else c.normalize x) (fun x hp => ?_)
    (fun x hp ih => ?_) x
  · rw [normalize_of_root hp]
    rw [h.parent_copyClass h' hid hcov] at hp
    split at hp
    · rw [if_pos ‹_›, normalize_of_root hp]
    · rw [if_neg ‹_›, normalize_of_root hp]
  · rw [← hforest.normalize_parent hp, ih]
    rw [h.parent_copyClass h' hid hcov] at hp ⊢
    split
    · rename_i hx
      rw [if_pos hx] at hp
      have he := h'.forest.normalize_parent hp
      rw [if_pos ((hcov.normalize_eq he).mpr hx), he]
    · rename_i hx
      rw [if_neg hx] at hp
      rw [h.forest.normalize_parent hp, if_neg hx]

/-- From the representative of a class in the other forest, the links of the copy lead through that
class. -/
theorem trails_copyClass_of_covered {r : Nat} (hr : (other.link r).parent = 0) (hn : c.normalize r = id) :
    (c.copyClass id other).Trails r (other.members r).tail := by
  obtain ⟨ht, -, hmem⟩ := h'.trails_of_root hr
  refine ht.congr fun m hm => ?_
  rw [h.next_copyClass h' hid hcov, if_pos]
  exact hcov r m hn (((hmem m).mp hm).trans (normalize_of_root hr).symm)

/-- The links of another class lead where they led. -/
theorem trails_copyClass_of_ne {r : Nat} (hr : (c.link r).parent = 0) (hn : r ≠ id) :
    (c.copyClass id other).Trails r (c.members r).tail := by
  obtain ⟨ht, -, hmem⟩ := h.trails_of_root hr
  refine ht.congr fun m hm => ?_
  rw [h.next_copyClass h' hid hcov, if_neg]
  rwa [(hmem m).mp hm]

omit hid in
/-- An id of the class is not represented by what represents another class. -/
theorem normalize_ne_of_covers {a b : Nat} (ha : c.normalize a = id) (hb : c.normalize b ≠ id) :
    other.normalize a ≠ c.normalize b := fun he => hb <| by
  rw [← h.forest.normalize_normalize b, ← he]
  exact hcov a _ ha (h'.forest.normalize_normalize a)

theorem copyClass : (c.copyClass id other).Listed := by
  have hnormalize := h.normalize_copyClass h' hid hcov
  refine ⟨h.forest_copyClass h' hid hcov, fun r hr => ?_⟩
  rw [h.parent_copyClass h' hid hcov] at hr
  split at hr
  · rename_i hn
    obtain ⟨-, hnodup, hmem⟩ := h'.trails_of_root hr
    refine ⟨_, h.trails_copyClass_of_covered h' hid hcov hr hn, hnodup, fun m => (hmem m).trans ?_⟩
    rw [hnormalize]
    split
    · rfl
    · rename_i hm
      have hroot := normalize_of_root hr
      refine iff_of_false (fun he => hm (hcov r m hn (he.trans hroot.symm))) fun he => ?_
      exact h.normalize_ne_of_covers h' hcov hn hm (hroot.trans he.symm)
  · rename_i hn
    have hroot := normalize_of_root hr
    obtain ⟨-, hnodup, hmem⟩ := h.trails_of_root hr
    refine ⟨_, h.trails_copyClass_of_ne h' hid hcov hr (hroot ▸ hn), hnodup, fun m => (hmem m).trans ?_⟩
    rw [hnormalize]
    split
    · rename_i hm
      refine iff_of_false (fun he => hn (hroot.trans (he.symm.trans hm))) fun he => ?_
      exact h.normalize_ne_of_covers h' hcov hm hn (he.trans hroot.symm)
    · rfl

end Listed

/-! ## Forests that arise by merges and copies -/

/-- A forest to which merges of ids other than 0, and copies of whole classes from such forests, have
led. -/
inductive Arises : Classes → Prop
  | discrete : Arises discrete
  | merge {c : Classes} {source target : Nat} (h : Arises c) (hs : source ≠ 0) (ht : target ≠ 0) :
      Arises (c.merge source target).2
  | copyClass {c other : Classes} {id : Nat} (h : Arises c) (h' : Arises other)
      (hid : c.isNormal id = true) (hcov : c.Covers id other) : Arises (c.copyClass id other)

theorem Arises.listed (h : c.Arises) : c.Listed := by
  induction h with
  | discrete => exact listed_discrete
  | @merge c source target _ hs ht ih =>
    by_cases he : c.normalize source = c.normalize target
    · rwa [merge_of_eq he]
    · exact ih.merge he (ih.forest.normalize_ne_zero hs) (ih.forest.normalize_ne_zero ht)
  | copyClass _ _ hid hcov ih ih' => exact ih.copyClass ih' (eq_of_beq hid) hcov

theorem arises_mergeAll (pairs : List (Nat × Nat)) (h : ∀ p ∈ pairs, p.1 ≠ 0 ∧ p.2 ≠ 0) :
    (mergeAll pairs).Arises := by
  induction pairs using List.reverseRecOn with
  | nil => exact .discrete
  | append_singleton pairs p ih =>
    obtain ⟨hs, ht⟩ := h p (by simp)
    rw [mergeAll, List.foldl_append]
    exact .merge (ih fun q hq => h q (List.mem_append_left _ hq)) hs ht

/-- Ids are still equal after the class of `id` was copied: they were equal, and if it is their class, they
are so in `other`. -/
def StillEqual (c : Classes) (id : Nat) (other : Classes) (a b : Nat) : Prop :=
  c.normalize a = c.normalize b ∧ (c.normalize a = id → other.normalize a = other.normalize b)

/-- `c'` is `c` with the class of `id` split into classes of `other`. Its links come to an end and list
each class once, from its representative on (`represents`). -/
structure Refines (c : Classes) (id : Nat) (other c' : Classes) : Prop where
  represents : c'.Represents (c.StillEqual id other)
  outside (x : Nat) (h : c.normalize x ≠ id) :
    c'.normalize x = c.normalize x ∧ c'.members (c.normalize x) = c.members (c.normalize x)
  inside (x : Nat) (h : c.normalize x = id) :
    c'.normalize x = other.normalize x ∧ c'.members (other.normalize x) = other.members (other.normalize x)

/-- If the class of a representative has every class of another forest that it meets, copying it from
there leaves a forest that lists each class once, with the other classes as they were, and with the
classes of the other forest in place of the one that was copied. -/
theorem copyClass_refines (h : c.Arises) (h' : other.Arises) (hid : c.isNormal id = true)
    (hcov : c.Covers id other) : c.Refines id other (c.copyClass id other) := by
  have h := h.listed
  have h' := h'.listed
  have hid := eq_of_beq hid
  have hnormalize := h.normalize_copyClass h' hid hcov
  have hcopy := h.copyClass h' hid hcov
  refine ⟨hcopy.represents fun a b => ?_, fun x hx => ⟨?_, ?_⟩, fun x hx => ⟨?_, ?_⟩⟩
  · rw [StillEqual, hnormalize, hnormalize]
    by_cases ha : c.normalize a = id <;> by_cases hb : c.normalize b = id
    · simp only [ha, hb, if_true, true_and, true_implies]
    · rw [if_pos ha, if_neg hb]
      exact iff_of_false (h.normalize_ne_of_covers h' hcov ha hb) fun he => hb (he.1.symm.trans ha)
    · rw [if_neg ha, if_pos hb]
      exact iff_of_false (h.normalize_ne_of_covers h' hcov hb ha).symm fun he => ha (he.1.trans hb)
    · simp only [ha, hb, if_false, false_implies, and_true]
  · rw [hnormalize, if_neg hx]
  · exact hcopy.members_eq (h.trails_copyClass_of_ne h' hid hcov (h.forest.parent_normalize x) hx)
  · rw [hnormalize, if_pos hx]
  · exact hcopy.members_eq (h.trails_copyClass_of_covered h' hid hcov (h'.forest.parent_normalize x)
      (hcov x _ hx (h'.forest.normalize_normalize x)))

/-- The class of 2, 3, 4, 6 and 7 falls into that of 4, 2 and 6 and that of 7 and 3, which have other
representatives and another order. Only the other forest has links for 12. -/
theorem copyClass_refines_regrouped :
    let c := mergeAll [(3, 2), (4, 2), (7, 6), (6, 2), (9, 8)]
    let other := mergeAll [(2, 4), (6, 2), (3, 7), (12, 9)]
    (c.Arises ∧ other.Arises ∧ c.isNormal 2 = true ∧ c.Covers 2 other) ∧
      c.Refines 2 other (c.copyClass 2 other) := by
  intro c other
  have h : c.Arises := arises_mergeAll _ (by decide)
  have h' : other.Arises := arises_mergeAll _ (by decide)
  have hcov : c.Covers 2 other := by
    have hall : ∀ a ∈ c.members 2, ∀ b ∈ other.members (other.normalize a), c.normalize b = 2 := by decide
    intro a b ha hb
    exact hall a (((h.listed.trails_of_root (by decide)).2.2 a).mpr ha) b (h'.listed.mem_members_iff.mpr hb)
  exact ⟨⟨h, h', by decide, hcov⟩, copyClass_refines h h' (by decide) hcov⟩

example : ((mergeAll [(3, 2), (4, 2)]).copyClass 2 (mergeAll [(4, 2)])).members 2 = [2, 4] := by decide

end Entail.Classes
