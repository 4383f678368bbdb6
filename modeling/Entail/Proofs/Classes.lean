import Mathlib.Data.Finset.Card
import Entail.Classes

/-!
# Forests of equal ids

In a `Classes.Forest` no path to a representative is longer than there are absorbed ids, so
`normalize` gets to its end (`Forest.normalize_parent`, `Forest.normalize_normalize`). Two classes
can be merged if there is room for the links of their representatives (`Forest.merge?_eq`). Then they
are one class, the others stay as they are, and one more id is absorbed (`Joins`).
-/

namespace Entail.Classes

variable {c c' : Classes} {id other source target : Nat}

/-! ## Links -/

theorem link_eq_default (h : c.size ≤ id) : c.link id = {} := by
  rw [link, Array.getElem?_eq_none h]
  rfl

theorem lt_size_of_link_ne (h : c.link id ≠ {}) : id < c.size :=
  Nat.lt_of_not_le fun hle => h (link_eq_default hle)

@[simp] theorem link_discrete : discrete.link id = {} := link_eq_default (Nat.zero_le id)

@[simp] theorem size_grow (n : Nat) : (c.grow n).size = max c.size n := by
  simp only [size, grow, Array.size_append, Array.size_replicate]
  omega

@[simp] theorem link_grow (n : Nat) : (c.grow n).link id = c.link id := by
  by_cases h : id < c.size
  · simp only [link, grow, Array.getElem?_append_left h]
  · have hle := Nat.le_of_not_lt h
    rw [link_eq_default hle, link, grow, Array.getElem?_append_right hle, Array.getElem?_replicate]
    split <;> rfl

@[simp] theorem size_modifyLink (f : Link → Link) : (c.modifyLink id f).size = c.size :=
  Array.size_modify

theorem link_modifyLink (h : id < c.size) (f : Link → Link) :
    (c.modifyLink id f).link other = if other = id then f (c.link id) else c.link other := by
  rw [size] at h
  simp only [link, modifyLink, Array.getElem?_modify]
  by_cases he : other = id
  · rw [he, if_pos rfl, if_pos rfl, Array.getElem?_eq_getElem h]
    rfl
  · rw [if_neg (Ne.symm he), if_neg he]

/-! ## Representatives -/

theorem get_normalizeTriple (c : Classes) (t : Triple) (p : Position) :
    (c.normalizeTriple t).get p = c.normalize (t.get p) := by
  cases p <;> rfl

/-- Where classes are larger, more facts have the same normal form. -/
theorem normalizeTriple_congr (h : ∀ a b, c.normalize a = c.normalize b → c'.normalize a = c'.normalize b)
    {t u : Triple} (he : c.normalizeTriple t = c.normalizeTriple u) :
    c'.normalizeTriple t = c'.normalizeTriple u := by
  simp only [normalizeTriple, Three.map, Three.mk.injEq] at he ⊢
  exact ⟨h _ _ he.1, h _ _ he.2.1, h _ _ he.2.2⟩

/-- The ids that do not represent their classes. -/
def absorbed (c : Classes) : Finset Nat :=
  (Finset.range c.size).filter fun id => (c.link id).parent ≠ 0

theorem mem_absorbed : id ∈ c.absorbed ↔ (c.link id).parent ≠ 0 := by
  rw [absorbed, Finset.mem_filter, Finset.mem_range, and_iff_right_iff_imp]
  intro h
  exact lt_size_of_link_ne fun he => h (by rw [he])

theorem card_absorbed_le (c : Classes) : c.absorbed.card ≤ c.size :=
  (Finset.card_filter_le _ _).trans_eq (Finset.card_range _)

/-- `d` counts the parents of an id. -/
structure Depth (c : Classes) (d : Nat → Nat) : Prop where
  root (id : Nat) (h : (c.link id).parent = 0) : d id = 0
  parent_lt (id : Nat) (h : (c.link id).parent ≠ 0) : d (c.link id).parent < d id
  le (id : Nat) : d id ≤ c.absorbed.card

/-- Paths to representatives are short, and members of classes have links. -/
structure Forest (c : Classes) : Prop where
  exists_depth : ∃ d, c.Depth d
  next_lt (id : Nat) (h : c.next id ≠ 0) : c.next id < c.size

theorem forest_discrete : discrete.Forest :=
  ⟨⟨fun _ => 0, fun _ _ => rfl, fun _ h => absurd (congrArg Link.parent link_discrete) h,
    fun _ => Nat.zero_le _⟩, fun _ h => absurd (congrArg Link.next link_discrete) h⟩

theorem ascend_of_root (h : (c.link id).parent = 0) (steps : Nat) : c.ascend steps id = id := by
  cases steps with
  | zero => rfl
  | succ steps => rw [ascend, if_pos h]

theorem normalize_of_root (h : (c.link id).parent = 0) : c.normalize id = id :=
  ascend_of_root h _

/-- More steps than there are parents lead nowhere else. -/
theorem Depth.ascend_succ {d : Nat → Nat} (hd : c.Depth d) {steps : Nat} (h : d id ≤ steps) :
    c.ascend (steps + 1) id = c.ascend steps id := by
  induction steps generalizing id with
  | zero =>
    have hroot : (c.link id).parent = 0 := by
      by_contra hp
      have := hd.parent_lt id hp
      omega
    rw [ascend_of_root hroot, ascend_of_root hroot]
  | succ steps ih =>
    by_cases hp : (c.link id).parent = 0
    · rw [ascend_of_root hp, ascend_of_root hp]
    · have hlt := hd.parent_lt id hp
      have hle : d (c.link id).parent ≤ steps := by omega
      rw [ascend, if_neg hp, ih hle, ascend, if_neg hp]

theorem lastMember_mem (c : Classes) (id : Nat) : c.lastMember id ∈ c.members id := by
  rw [lastMember, members, List.getLast?_eq_some_getLast (List.cons_ne_nil _ _)]
  exact List.getLast_mem _

namespace Forest

theorem normalize_parent (h : c.Forest) (hp : (c.link id).parent ≠ 0) :
    c.normalize (c.link id).parent = c.normalize id := by
  obtain ⟨d, hd⟩ := h.exists_depth
  have hlt := hd.parent_lt id hp
  have hle := (hd.le id).trans c.card_absorbed_le
  rw [normalize, normalize, hd.ascend_succ (by omega), ascend, if_neg hp]

/-- What holds of representatives, and of an id if it holds of its parent, holds of every id. -/
theorem induction (h : c.Forest) {P : Nat → Prop} (root : ∀ id, (c.link id).parent = 0 → P id)
    (step : ∀ id, (c.link id).parent ≠ 0 → P (c.link id).parent → P id) (id : Nat) : P id := by
  obtain ⟨d, hd⟩ := h.exists_depth
  induction hn : d id using Nat.strong_induction_on generalizing id with
  | _ n ih =>
    by_cases hp : (c.link id).parent = 0
    · exact root id hp
    · exact step id hp (ih _ (hn ▸ hd.parent_lt id hp) _ rfl)

theorem parent_normalize (h : c.Forest) (id : Nat) : (c.link (c.normalize id)).parent = 0 := by
  refine h.induction (P := fun id => (c.link (c.normalize id)).parent = 0) (fun id hp => ?_)
    (fun id hp ih => ?_) id
  · rwa [normalize_of_root hp]
  · rwa [← h.normalize_parent hp]

@[simp] theorem normalize_normalize (h : c.Forest) (id : Nat) :
    c.normalize (c.normalize id) = c.normalize id :=
  normalize_of_root (h.parent_normalize id)

theorem isNormal_iff (h : c.Forest) : c.isNormal id = true ↔ c.normalize id = id := by
  rw [isNormal, beq_iff_eq]
  exact ⟨normalize_of_root, fun hn => hn ▸ h.parent_normalize id⟩

theorem isNormalTriple_iff (h : c.Forest) {t : Triple} :
    c.isNormalTriple t = true ↔ c.normalizeTriple t = t := by
  obtain ⟨s, p, o⟩ := t
  simp [isNormalTriple, normalizeTriple, Three.toList, Three.map, h.isNormal_iff]

theorem normalizeTriple_normalizeTriple (h : c.Forest) (t : Triple) :
    c.normalizeTriple (c.normalizeTriple t) = c.normalizeTriple t := by
  simp only [normalizeTriple, Three.map, h.normalize_normalize]

/-- The last member of a class is the first, or it has links. -/
theorem lastMember_lt (h : c.Forest) {n : Nat} (hid : id < n) : c.lastMember id < max c.size n := by
  have hfollowing : ∀ steps id, ∀ m ∈ c.following steps id, m < c.size := by
    intro steps
    induction steps with
    | zero => simp [following]
    | succ steps ih =>
      intro id m hm
      rw [following] at hm
      split at hm
      · cases hm
      · rename_i hne
        rcases List.mem_cons.mp hm with rfl | hm
        · exact h.next_lt id hne
        · exact ih _ m hm
  rcases List.mem_cons.mp (c.lastMember_mem id) with he | hm
  · rw [he]
    omega
  · have := hfollowing _ _ _ hm
    omega

end Forest

/-! ## Merging -/

/-- `c'` is `c` with the class of `source` merged into that of `target`. -/
structure Joins (c : Classes) (source target : Nat) (c' : Classes) : Prop where
  forest : c'.Forest
  normalize_eq (id : Nat) : c'.normalize id =
    if c.normalize id = c.normalize source then c.normalize target else c.normalize id
  size_eq : c'.size = max c.size (max (c.normalize source) (c.normalize target) + 1)
  card_eq : c'.absorbed.card = c.absorbed.card + 1

namespace Joins

variable (h : c.Joins source target c')

include h

theorem normalize_source : c'.normalize source = c'.normalize target := by
  rw [h.normalize_eq, h.normalize_eq target, if_pos rfl]
  split <;> rfl

/-- Ids with one representative go on to have one. -/
theorem coarser (a b : Nat) (hab : c.normalize a = c.normalize b) :
    c'.normalize a = c'.normalize b := by
  rw [h.normalize_eq, h.normalize_eq, hab]

end Joins

/-- `c'` is `c` with the representative of `target` as the parent of that of `source`. -/
structure Grafts (c : Classes) (source target : Nat) (c' : Classes) : Prop where
  size_eq : c'.size = max c.size (max (c.normalize source) (c.normalize target) + 1)
  parent_eq (id : Nat) : (c'.link id).parent =
    if id = c.normalize source then c.normalize target else (c.link id).parent
  next_eq (id : Nat) : c'.next id = c.next id ∨ c'.next id = c.normalize source

namespace Grafts

variable (hg : c.Grafts source target c') (h : c.Forest)
  (hne : c.normalize source ≠ c.normalize target) (htarget : c.normalize target ≠ 0)

include hg h htarget

theorem card_absorbed : c'.absorbed.card = c.absorbed.card + 1 := by
  have habsorbed : c'.absorbed = insert (c.normalize source) c.absorbed := by
    ext id
    rw [mem_absorbed, Finset.mem_insert, mem_absorbed, hg.parent_eq]
    split
    · simp [*]
    · simp [*]
  rw [habsorbed,
    Finset.card_insert_of_notMem fun hmem => mem_absorbed.mp hmem (h.parent_normalize source)]

include hne

/-- Whatever was in the class of `source` is one step deeper now. -/
theorem forest : c'.Forest := by
  obtain ⟨d, hd⟩ := h.exists_depth
  refine ⟨⟨fun id => if c.normalize id = c.normalize source then d id + 1 else d id,
    fun id hp => ?_, fun id hp => ?_, fun id => ?_⟩, fun id hn => ?_⟩
  · rw [hg.parent_eq] at hp
    split at hp
    · exact absurd hp htarget
    · rename_i hid
      rw [if_neg (by rwa [normalize_of_root hp]), hd.root id hp]
  · rw [hg.parent_eq] at hp ⊢
    split
    · rename_i hid
      rw [h.normalize_normalize, if_neg (Ne.symm hne), hid, h.normalize_normalize, if_pos rfl,
        hd.root _ (h.parent_normalize target)]
      omega
    · rename_i hid
      rw [if_neg hid] at hp
      rw [h.normalize_parent hp]
      have := hd.parent_lt id hp
      split <;> omega
  · rw [hg.card_absorbed h htarget]
    have := hd.le id
    split <;> omega
  · rw [hg.size_eq]
    rcases hg.next_eq id with he | he
    · have := h.next_lt id (he ▸ hn)
      omega
    · omega

theorem normalize_eq (id : Nat) : c'.normalize id =
    if c.normalize id = c.normalize source then c.normalize target else c.normalize id := by
  have hforest := hg.forest h hne htarget
  refine h.induction (P := fun id => c'.normalize id =
    if c.normalize id = c.normalize source then c.normalize target else c.normalize id)
    (fun id hp => ?_) (fun id hp ih => ?_) id
  · rw [normalize_of_root hp]
    split
    · rename_i hid
      have hp' : (c'.link id).parent = c.normalize target := by rw [hg.parent_eq, if_pos hid]
      rw [← hforest.normalize_parent (by rwa [hp']), hp']
      exact normalize_of_root (by rw [hg.parent_eq, if_neg (Ne.symm hne), h.parent_normalize target])
    · rename_i hid
      exact normalize_of_root (by rw [hg.parent_eq, if_neg hid, hp])
  · have hid : id ≠ c.normalize source := fun he => hp (he ▸ h.parent_normalize source)
    have hp' : (c'.link id).parent = (c.link id).parent := by rw [hg.parent_eq, if_neg hid]
    rw [← hforest.normalize_parent (by rwa [hp']), hp', ih, h.normalize_parent hp]

theorem joins : c.Joins source target c' :=
  ⟨hg.forest h hne htarget, hg.normalize_eq h hne htarget, hg.size_eq, hg.card_absorbed h htarget⟩

end Grafts

theorem merge_of_eq (he : c.normalize source = c.normalize target) :
    c.merge source target = (false, c) := by
  rw [merge]
  simp only [if_pos he]

theorem merge_fst (hne : c.normalize source ≠ c.normalize target) :
    (c.merge source target).1 = true := by
  rw [merge]
  simp only [if_neg hne]

/-- Classes that are one already stay as they are. -/
theorem merge?_of_eq (he : c.normalize source = c.normalize target) :
    c.merge? source target = some (false, c) := by
  simp only [merge?, canMerge, he, beq_self_eq_true, Bool.true_or, if_true, merge_of_eq he]

/-- Merging two classes links the last member of the target to the source, and the source to its new
parent. -/
theorem link_merge (hne : c.normalize source ≠ c.normalize target)
    (hlast : c.lastMember (c.normalize target) <
      max c.size (max (c.normalize source) (c.normalize target) + 1)) (id : Nat) :
    (c.merge source target).2.link id =
      ⟨if id = c.normalize source then c.normalize target else (c.link id).parent,
        if id = c.lastMember (c.normalize target) then c.normalize source else c.next id⟩ := by
  rw [merge]
  simp only [if_neg hne]
  -- the target's last member is linked on before the source gets its parent
  rw [link_modifyLink (by rw [size_modifyLink, size_grow]; omega),
    link_modifyLink (by rwa [size_grow]), link_modifyLink (by rwa [size_grow])]
  simp only [link_grow, next]
  by_cases hs : id = c.normalize source
  · subst hs
    rw [if_pos rfl, if_pos rfl]
    split
    · rename_i hl
      rw [← hl]
    · rfl
  · rw [if_neg hs, if_neg hs]
    split
    · rename_i hl
      rw [← hl]
    · rfl

theorem size_merge (hne : c.normalize source ≠ c.normalize target) :
    (c.merge source target).2.size =
      max c.size (max (c.normalize source) (c.normalize target) + 1) := by
  rw [merge]
  simp only [if_neg hne, size_modifyLink, size_grow]

/-- Different classes become one. -/
theorem Forest.joins_merge (h : c.Forest) (hne : c.normalize source ≠ c.normalize target)
    (htarget : c.normalize target ≠ 0) : c.Joins source target (c.merge source target).2 := by
  have hlink := link_merge hne (h.lastMember_lt (by omega))
  refine Grafts.joins ⟨size_merge hne, fun id => by rw [hlink], fun id => ?_⟩ h hne htarget
  rw [next, hlink]
  dsimp only
  exact (ite_eq_or_eq ..).symm

/-- Classes are merged if there is room for the links of their representatives. -/
theorem Forest.merge?_eq_merge (h : c.Forest)
    (hroom : max (c.normalize source) (c.normalize target) + 1 < sizeLimit) :
    c.merge? source target = some (c.merge source target) := by
  have hlast : c.lastMember (c.normalize target) <
      max c.size (max (c.normalize source) (c.normalize target) + 1) := h.lastMember_lt (by omega)
  rw [merge?, if_pos]
  simp only [canMerge, hroom, hlast, decide_true, Bool.and_self, Bool.or_true]

/-- Different classes are merged. -/
theorem Forest.merge?_eq (h : c.Forest) (hne : c.normalize source ≠ c.normalize target)
    (htarget : c.normalize target ≠ 0)
    (hroom : max (c.normalize source) (c.normalize target) + 1 < sizeLimit) :
    ∃ c', c.merge? source target = some (true, c') ∧ c.Joins source target c' := by
  refine ⟨(c.merge source target).2, ?_, h.joins_merge hne htarget⟩
  rw [h.merge?_eq_merge hroom, ← merge_fst hne]

end Entail.Classes
