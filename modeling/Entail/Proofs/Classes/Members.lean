import Mathlib.Data.List.Perm.Subperm
import Mathlib.Data.Setoid.Basic
import Entail.Proofs.Classes

/-!
# Members of classes

After some merges the classes of a forest are those of the least equivalence that relates the ids of
each merge, and the list of members of a class has every id of it once (`mergeAll_represents`). Both
are kept by a merge because the links of a forest are `Listed`: from a representative on, the links to
the next members lead through its class, and nowhere twice. A merge links the last member of the target
to the source, so the lists of the two classes become one (`Trails.append`). Where the links lead is
said without a bound on the steps (`Climbs`, `Trails`), so that following them comes to an end.
-/

namespace Entail.Classes

variable {c c' : Classes} {id other r source target : Nat} {l l' : List Nat}

/-! ## Following the links -/

/-- The parents of an id lead to `r`, which has none. -/
inductive Climbs (c : Classes) : Nat → Nat → Prop
  | root {id : Nat} (h : (c.link id).parent = 0) : Climbs c id id
  | parent {id r : Nat} (h : (c.link id).parent ≠ 0) (hr : Climbs c (c.link id).parent r) :
      Climbs c id r

/-- The members behind an id are those of a list, in this order. -/
inductive Trails (c : Classes) : Nat → List Nat → Prop
  | last {id : Nat} (h : c.next id = 0) : Trails c id []
  | next {id : Nat} {l : List Nat} (h : c.next id ≠ 0) (hl : Trails c (c.next id) l) :
      Trails c id (c.next id :: l)

theorem Forest.climbs (h : c.Forest) (id : Nat) : c.Climbs id (c.normalize id) := by
  refine h.induction (P := fun id => c.Climbs id (c.normalize id)) (fun id hp => ?_)
    (fun id hp ih => ?_) id
  · rw [normalize_of_root hp]
    exact .root hp
  · rw [h.normalize_parent hp] at ih
    exact .parent hp ih

namespace Trails

theorem following_eq (h : c.Trails id l) {steps : Nat} (hl : l.length ≤ steps) :
    c.following steps id = l := by
  induction h generalizing steps with
  | last h =>
    cases steps with
    | zero => rfl
    | succ steps => rw [following, if_pos h]
  | next h _ ih =>
    cases steps with
    | zero => cases hl
    | succ steps => rw [following, if_neg h, ih (Nat.le_of_succ_le_succ hl)]

/-- The links of a member lead on as they did on the way to it. -/
theorem suffix (h : c.Trails id l) {front : List Nat} (he : id :: l = front ++ other :: l') :
    c.Trails other l' := by
  induction h generalizing front with
  | last h =>
    cases front with
    | nil =>
      cases he
      exact .last h
    | cons _ front => simp at he
  | next h hl ih =>
    cases front with
    | nil =>
      cases he
      exact .next h hl
    | cons _ front => exact ih (List.cons.inj he).2

theorem next_eq (h : c.Trails id l) : c.next id = l.headD 0 := by
  cases h with
  | last h => exact h
  | next => rfl

theorem unique (h : c.Trails id l) (h' : c.Trails id l') : l = l' := by
  induction h generalizing l' with
  | last h =>
    cases h' with
    | last => rfl
    | next h' => exact absurd h h'
  | next h _ ih =>
    cases h' with
    | last h' => exact absurd h' h
    | next _ h' => rw [ih h']

theorem congr (h : c.Trails id l) (hn : ∀ m ∈ id :: l, c'.next m = c.next m) : c'.Trails id l := by
  induction h with
  | last h => exact .last ((hn _ List.mem_cons_self).trans h)
  | next h _ ih =>
    have he := hn _ List.mem_cons_self
    rw [← he]
    refine .next (by rwa [he]) ?_
    rw [he]
    exact ih fun m hm => hn m (List.mem_cons_of_mem _ hm)

/-- If the last of some members is linked to `source`, what is behind that follows. -/
theorem append (h : c.Trails id l) (hnodup : (id :: l).Nodup)
    (hn : ∀ m ∈ id :: l, c'.next m =
      if m = (id :: l).getLast (List.cons_ne_nil _ _) then source else c.next m)
    (hs : source ≠ 0) (h' : c'.Trails source l') : c'.Trails id (l ++ source :: l') := by
  induction h with
  | @last id h =>
    have he : c'.next id = source := (hn id List.mem_cons_self).trans (if_pos rfl)
    rw [← he] at hs h' ⊢
    exact .next hs h'
  | @next id l h hl ih =>
    obtain ⟨hfresh, hnodup⟩ := List.nodup_cons.mp hnodup
    rw [List.getLast_cons (List.cons_ne_nil _ _)] at hn
    -- the last member is behind `id`
    have hlast : id ≠ (c.next id :: l).getLast (List.cons_ne_nil _ _) := by
      rintro he
      have hmem := List.getLast_mem (List.cons_ne_nil (c.next id) l)
      rw [← he] at hmem
      exact hfresh hmem
    have he : c'.next id = c.next id := (hn id List.mem_cons_self).trans (if_neg hlast)
    have hrest := ih hnodup fun m hm => hn m (List.mem_cons_of_mem _ hm)
    rw [← he] at h hrest ⊢
    exact .next h hrest

end Trails

/-! ## Members -/

/-- From a representative on, the links lead to the other ids of its class, once to each. -/
structure Listed (c : Classes) : Prop where
  forest : c.Forest
  exists_trails (id : Nat) (h : (c.link id).parent = 0) :
    ∃ l, c.Trails id l ∧ (id :: l).Nodup ∧ ∀ m, m ∈ id :: l ↔ c.normalize m = id

theorem listed_discrete : discrete.Listed :=
  ⟨forest_discrete, fun id _ => ⟨[], .last (congrArg Link.next link_discrete), List.nodup_singleton id,
    fun m => by rw [List.mem_singleton, normalize_of_root (congrArg Link.parent link_discrete)]⟩⟩

namespace Listed

variable (h : c.Listed)

include h

/-- All members of a class have links but for the first. -/
theorem members_eq_of_trails (ht : c.Trails id l) (hn : l.Nodup) : c.members id = id :: l := by
  have hlt : ∀ m ∈ l, m < c.size := by
    clear hn
    induction ht with
    | last => simp
    | next hne _ ih => exact List.forall_mem_cons.mpr ⟨h.forest.next_lt _ hne, ih⟩
  have hle : l.length ≤ (List.range c.size).length :=
    (hn.subperm fun m hm => List.mem_range.mpr (hlt m hm)).length_le
  rw [List.length_range] at hle
  rw [members, ht.following_eq (hle.trans (Nat.le_succ _))]

/-- The links of a representative lead through its members. -/
theorem trails_of_root (hid : (c.link id).parent = 0) :
    c.Trails id (c.members id).tail ∧ (c.members id).Nodup ∧
      ∀ m, m ∈ c.members id ↔ c.normalize m = id := by
  obtain ⟨l, ht, hn, hm⟩ := h.exists_trails id hid
  rw [h.members_eq_of_trails ht (List.nodup_cons.mp hn).2]
  exact ⟨ht, hn, hm⟩

theorem nodup_members (id : Nat) : (c.members (c.normalize id)).Nodup :=
  (h.trails_of_root (h.forest.parent_normalize id)).2.1

theorem mem_members_iff : other ∈ c.members (c.normalize id) ↔ c.normalize other = c.normalize id :=
  (h.trails_of_root (h.forest.parent_normalize id)).2.2 other

/-- What is behind an id in the list of its class is what its links lead to. -/
theorem trails_of_members {front : List Nat}
    (he : c.members (c.normalize id) = front ++ id :: l) : c.Trails id l :=
  (h.trails_of_root (h.forest.parent_normalize id)).1.suffix he

/-- Wherever one starts, the links come to an end. -/
theorem trails_members (id : Nat) : c.Trails id (c.members id).tail := by
  obtain ⟨front, l, he⟩ := List.append_of_mem (h.mem_members_iff.mpr (rfl : c.normalize id = _))
  have ht := h.trails_of_members he
  have hn := h.nodup_members id
  rw [he] at hn
  rwa [h.members_eq_of_trails ht (List.nodup_cons.mp (List.nodup_append.mp hn).2.1).2]

theorem members_eq (ht : c.Trails id l) : c.members id = id :: l := by
  rw [← (h.trails_members id).unique ht]
  rfl

theorem isSingleton_iff :
    c.isSingleton id = true ↔ ∀ other, c.normalize other = c.normalize id → other = id := by
  have hlink : c.isSingleton id = true ↔ (c.link id).parent = 0 ∧ c.next id = 0 := by
    rw [isSingleton, beq_iff_eq, Link.mk.injEq, next]
  rw [hlink]
  constructor
  · rintro ⟨hp, hn⟩ other ho
    rw [normalize_of_root hp] at ho
    have hm := ((h.trails_of_root hp).2.2 other).mpr ho
    rwa [h.members_eq (.last hn), List.mem_singleton] at hm
  · intro hall
    have hp : (c.link id).parent = 0 := by
      have := h.forest.parent_normalize id
      rwa [hall _ (h.forest.normalize_normalize id)] at this
    obtain ⟨ht, hnodup, hmem⟩ := h.trails_of_root hp
    refine ⟨hp, ht.next_eq.trans ?_⟩
    cases hl : (c.members id).tail with
    | nil => rfl
    | cons other l =>
      -- another member would be equal to `id`
      have hm : other ∈ (c.members id).tail := by simp [hl]
      obtain rfl : other = id := by
        refine hall other ?_
        rw [normalize_of_root hp]
        exact (hmem other).mp (List.mem_of_mem_tail hm)
      exact absurd hm (List.nodup_cons.mp hnodup).1

end Listed

/-! ## Merging -/

theorem Forest.normalize_ne_zero (h : c.Forest) (hid : id ≠ 0) : c.normalize id ≠ 0 := by
  refine h.induction (P := fun id => id ≠ 0 → c.normalize id ≠ 0) (fun id hp hid => ?_)
    (fun id hp ih _ => ?_) id hid
  · rwa [normalize_of_root hp]
  · rw [← h.normalize_parent hp]
    exact ih hp

namespace Listed

section merge

variable (h : c.Listed) (hne : c.normalize source ≠ c.normalize target)
  (hs : c.normalize source ≠ 0) (ht : c.normalize target ≠ 0)

include h hne

theorem next_merge (id : Nat) : (c.merge source target).2.next id =
    if id = c.lastMember (c.normalize target) then c.normalize source else c.next id := by
  rw [next, link_merge hne (h.forest.lastMember_lt (by omega))]

/-- The links of a class that is not merged into lead where they led. -/
theorem trails_merge_of_ne (hid : (c.link id).parent = 0) (hn : id ≠ c.normalize target) :
    (c.merge source target).2.Trails id (c.members id).tail := by
  obtain ⟨htrails, -, hmem⟩ := h.trails_of_root hid
  refine htrails.congr fun m hm => ?_
  rw [h.next_merge hne, if_neg]
  rintro rfl
  refine hn (((hmem _).mp hm).symm.trans ?_)
  exact h.mem_members_iff.mp (c.lastMember_mem _)

include hs

/-- The links of the target lead to its members and then to those of the source. -/
theorem trails_merge : (c.merge source target).2.Trails (c.normalize target)
    ((c.members (c.normalize target)).tail ++ c.members (c.normalize source)) := by
  obtain ⟨htrails, hnodup, -⟩ := h.trails_of_root (h.forest.parent_normalize target)
  have hlast : c.lastMember (c.normalize target) =
      (c.normalize target :: (c.members (c.normalize target)).tail).getLast (List.cons_ne_nil _ _) := by
    change ((_ :: (c.members (c.normalize target)).tail).getLast?).getD _ = _
    rw [List.getLast?_eq_some_getLast (List.cons_ne_nil _ _), Option.getD_some]
  exact htrails.append hnodup (fun m _ => by rw [h.next_merge hne, hlast]) hs
    (h.trails_merge_of_ne hne (h.forest.parent_normalize source) hne)

include ht

theorem merge : (c.merge source target).2.Listed := by
  have hj := h.forest.joins_merge hne ht
  have hparent (id) : ((c.merge source target).2.link id).parent =
      if id = c.normalize source then c.normalize target else (c.link id).parent := by
    rw [link_merge hne (h.forest.lastMember_lt (by omega))]
  refine ⟨hj.forest, fun id hp => ?_⟩
  rw [hparent] at hp
  split at hp
  · exact absurd hp ht
  · rename_i hid
    by_cases hn : id = c.normalize target
    · -- the merged class
      subst hn
      refine ⟨_, h.trails_merge hne hs, ?_, fun m => ?_⟩
      · refine List.nodup_append.mpr ⟨h.nodup_members target, h.nodup_members source, fun m hm m' hm' he => ?_⟩
        have hm := h.mem_members_iff.mp hm
        have hm' := h.mem_members_iff.mp hm'
        exact hne (hm'.symm.trans (he ▸ hm))
      · rw [hj.normalize_eq, ← List.cons_append, List.mem_append]
        change m ∈ c.members _ ∨ _ ↔ _
        rw [h.mem_members_iff, h.mem_members_iff]
        split <;> simp [*]
    · obtain ⟨-, hnodup, hmem⟩ := h.trails_of_root hp
      refine ⟨_, h.trails_merge_of_ne hne hp hn, hnodup, fun m => (hmem m).trans ?_⟩
      rw [hj.normalize_eq]
      split
      · rename_i hm
        exact iff_of_false (fun he => hid (he.symm.trans hm)) fun he => hn he.symm
      · rfl

theorem members_merge : (c.merge source target).2.members (c.normalize target) =
    c.members (c.normalize target) ++ c.members (c.normalize source) :=
  (h.merge hne hs ht).members_eq (h.trails_merge hne hs)

end merge

end Listed

/-! ## Merging again and again -/

/-- The forest that some merges make of ids on their own, one merge after the other. -/
def mergeAll (pairs : List (Nat × Nat)) : Classes :=
  pairs.foldl (fun c p => (c.merge p.1 p.2).2) discrete

/-- Ids are related by the least equivalence that relates those of every pair. -/
def Joined (pairs : List (Nat × Nat)) : Nat → Nat → Prop := Relation.EqvGen fun a b => (a, b) ∈ pairs

/-- The classes of a forest are those of an equivalence, and the walks along its links come to an end
and answer what the equivalence says. -/
structure Represents (c : Classes) (R : Nat → Nat → Prop) : Prop where
  climbs (id : Nat) : c.Climbs id (c.normalize id)
  normalize_eq_iff (a b : Nat) : c.normalize a = c.normalize b ↔ R a b
  trails (id : Nat) : ∃ l, c.Trails id l ∧ c.members id = id :: l
  mem_members_iff (id other : Nat) : other ∈ c.members (c.normalize id) ↔ R id other
  nodup_members (id : Nat) : (c.members (c.normalize id)).Nodup
  next_eq (id : Nat) (front rest : List Nat) (h : c.members (c.normalize id) = front ++ id :: rest) :
    c.next id = rest.headD 0
  isNormal_iff (id : Nat) : c.isNormal id = true ↔ c.normalize id = id
  isSingleton_iff (id : Nat) : c.isSingleton id = true ↔ ∀ other, R id other → other = id
  get_normalizeTriple (t : Triple) (p : Position) :
    (c.normalizeTriple t).get p = c.normalize (t.get p)
  normalizeTriple_eq_iff (t u : Triple) :
    c.normalizeTriple t = c.normalizeTriple u ↔ ∀ p, R (t.get p) (u.get p)
  isNormalTriple_iff (t : Triple) : c.isNormalTriple t = true ↔ c.normalizeTriple t = t

/-- A merge answers whether the ids were not equal yet. If so, the target's representative represents
both classes, its members followed by those of the source, and all other classes stay as they are.
Nothing but a lack of room keeps the classes from being merged. -/
structure Unites (c : Classes) (R : Nat → Nat → Prop) (source target : Nat) (merged : Bool)
    (c' : Classes) : Prop where
  merged_iff : merged = true ↔ ¬ R source target
  eq_of_not_merged (h : merged = false) : c' = c
  normalize_eq (h : merged = true) (id : Nat) (hid : R id source ∨ R id target) :
    c'.normalize id = c.normalize target
  members_eq (h : merged = true) : c'.members (c.normalize target) =
    c.members (c.normalize target) ++ c.members (c.normalize source)
  others (h : merged = true) (id : Nat) (hs : ¬ R id source) (ht : ¬ R id target) :
    c'.normalize id = c.normalize id ∧ c'.members (c.normalize id) = c.members (c.normalize id)
  merge?_eq (h : max (c.normalize source) (c.normalize target) + 1 < sizeLimit) :
    c.merge? source target = some (merged, c')

namespace Listed

variable {R : Nat → Nat → Prop} (h : c.Listed) (hR : ∀ a b, c.normalize a = c.normalize b ↔ R a b)

include h hR

theorem represents : c.Represents R where
  climbs := h.forest.climbs
  normalize_eq_iff := hR
  trails id := ⟨_, h.trails_members id, rfl⟩
  mem_members_iff id other := h.mem_members_iff.trans (eq_comm.trans (hR id other))
  nodup_members := h.nodup_members
  next_eq _ _ _ he := (h.trails_of_members he).next_eq
  isNormal_iff _ := h.forest.isNormal_iff
  isSingleton_iff id := h.isSingleton_iff.trans
    (forall_congr' fun other => imp_congr_left (eq_comm.trans (hR id other)))
  get_normalizeTriple := c.get_normalizeTriple
  normalizeTriple_eq_iff t u := by
    simp only [← hR, ← get_normalizeTriple]
    exact ⟨fun he p => by rw [he], Three.eq_of_get⟩
  isNormalTriple_iff _ := h.forest.isNormalTriple_iff

theorem unites (hs : source ≠ 0) (ht : target ≠ 0) :
    c.Unites R source target (c.merge source target).1 (c.merge source target).2 := by
  have hroom : max (c.normalize source) (c.normalize target) + 1 < sizeLimit →
      c.merge? source target = some (c.merge source target) := h.forest.merge?_eq_merge
  by_cases he : c.normalize source = c.normalize target
  · rw [merge_of_eq he] at hroom ⊢
    exact ⟨⟨nofun, fun hn => absurd ((hR _ _).mp he) hn⟩, fun _ => rfl, nofun, nofun, nofun, hroom⟩
  · have hs := h.forest.normalize_ne_zero hs
    have ht := h.forest.normalize_ne_zero ht
    have hj := h.forest.joins_merge he ht
    have hother {a b : Nat} (hab : ¬ R a b) : c.normalize a ≠ c.normalize b := fun h => hab ((hR _ _).mp h)
    refine ⟨⟨fun _ hr => he ((hR _ _).mpr hr), fun _ => merge_fst he⟩, fun hn => ?_, fun _ id hid => ?_,
      fun _ => h.members_merge he hs ht, fun _ id hns hnt => ⟨?_, ?_⟩, hroom⟩
    · rw [merge_fst he] at hn
      cases hn
    · rw [hj.normalize_eq]
      split
      · rfl
      · rename_i hns
        exact (hR _ _).mpr (hid.resolve_left fun hr => hns ((hR _ _).mpr hr))
    · rw [hj.normalize_eq, if_neg (hother hns)]
    · exact (h.merge he hs ht).members_eq
        (h.trails_merge_of_ne he (h.forest.parent_normalize id) (hother hnt))

end Listed

/-- What keeps ids equal, makes those of a pair equal and relates each id to its representative makes
equal what the pairs relate. -/
theorem normalize_eq_iff_joined {pairs : List (Nat × Nat)} {p : Nat × Nat}
    (h : ∀ a b, Joined pairs a b → c.normalize a = c.normalize b)
    (hp : c.normalize p.1 = c.normalize p.2)
    (hid : ∀ id, Joined (pairs ++ [p]) id (c.normalize id)) (a b : Nat) :
    c.normalize a = c.normalize b ↔ Joined (pairs ++ [p]) a b := by
  constructor
  · intro hab
    have hb := (hid b).symm
    rw [← hab] at hb
    exact (hid a).trans _ _ _ hb
  · refine @Setoid.eqvGen_le _ _ (Setoid.ker c.normalize) (fun a b hab => ?_) a b
    rcases List.mem_append.mp hab with hab | hab
    · exact h a b (.rel a b hab)
    · obtain rfl := List.mem_singleton.mp hab
      exact hp

/-- Merges keep the links listed, and make equal what the pairs relate. -/
theorem listed_mergeAll (pairs : List (Nat × Nat)) (h : ∀ p ∈ pairs, p.1 ≠ 0 ∧ p.2 ≠ 0) :
    (mergeAll pairs).Listed ∧
      ∀ a b, (mergeAll pairs).normalize a = (mergeAll pairs).normalize b ↔ Joined pairs a b := by
  induction pairs using List.reverseRecOn with
  | nil =>
    refine ⟨listed_discrete, fun a b => ?_⟩
    rw [mergeAll, List.foldl_nil, normalize_of_root (congrArg Link.parent link_discrete),
      normalize_of_root (congrArg Link.parent link_discrete)]
    constructor
    · rintro rfl
      exact .refl _
    · refine @Setoid.eqvGen_le _ _ (Setoid.ker id) (fun a b hab => ?_) a b
      exact absurd hab List.not_mem_nil
  | append_singleton pairs p ih =>
    obtain ⟨hl, hR⟩ := ih fun q hq => h q (List.mem_append_left _ hq)
    obtain ⟨hs, ht⟩ := h p (List.mem_append_right _ (List.mem_singleton_self p))
    have hmono {a b : Nat} (hab : Joined pairs a b) : Joined (pairs ++ [p]) a b :=
      hab.mono fun _ _ => List.mem_append_left _
    have hpair : Joined (pairs ++ [p]) p.1 p.2 := .rel _ _ (List.mem_append_right _ (List.mem_singleton_self p))
    rw [show mergeAll (pairs ++ [p]) = ((mergeAll pairs).merge p.1 p.2).2 by
      rw [mergeAll, List.foldl_append]; rfl]
    by_cases he : (mergeAll pairs).normalize p.1 = (mergeAll pairs).normalize p.2
    · rw [merge_of_eq he]
      exact ⟨hl, normalize_eq_iff_joined (fun a b => (hR a b).mpr) he fun id =>
        hmono ((hR _ _).mp (hl.forest.normalize_normalize id).symm)⟩
    · have ht := hl.forest.normalize_ne_zero ht
      have hj := hl.forest.joins_merge he ht
      refine ⟨hl.merge he (hl.forest.normalize_ne_zero hs) ht, normalize_eq_iff_joined
        (fun a b hab => hj.coarser a b ((hR a b).mpr hab)) hj.normalize_source fun id => ?_⟩
      have hrep (id) : Joined (pairs ++ [p]) id ((mergeAll pairs).normalize id) :=
        hmono ((hR _ _).mp (hl.forest.normalize_normalize id).symm)
      rw [hj.normalize_eq]
      split
      · rename_i hid
        exact (hmono ((hR _ _).mp hid)).trans _ _ _ (hpair.trans _ _ _ (hrep p.2))
      · exact hrep id

/-- After merges of ids other than 0, the classes are those of the least equivalence that relates the
ids of each merge. Following the parents or the members comes to an end; each class is listed with all
its ids once, and the other questions to the forest are answered accordingly. A further merge succeeds
if its ids were not equal yet, and puts the members of the source behind those of the target. The
merges are those of `merge`, for which the array of links has room for every id; where there is room
for the links of a pair, the merge that can fail does the same (`Unites.merge?_eq`). -/
theorem mergeAll_represents (pairs : List (Nat × Nat)) (h : ∀ p ∈ pairs, p.1 ≠ 0 ∧ p.2 ≠ 0) :
    (mergeAll pairs).Represents (Joined pairs) ∧ ∀ source target, source ≠ 0 → target ≠ 0 →
      (mergeAll pairs).Unites (Joined pairs) source target ((mergeAll pairs).merge source target).1
        ((mergeAll pairs).merge source target).2 := by
  obtain ⟨hl, hR⟩ := listed_mergeAll pairs h
  exact ⟨hl.represents hR, fun _ _ => hl.unites hR⟩

theorem mergeAll_represents_chained :
    (∀ p ∈ [(3, 2), (5, 4), (4, 2)], p.1 ≠ 0 ∧ p.2 ≠ 0) ∧
      (mergeAll [(3, 2), (5, 4), (4, 2)]).Represents (Joined [(3, 2), (5, 4), (4, 2)]) ∧
      ∀ source target, source ≠ 0 → target ≠ 0 →
        (mergeAll [(3, 2), (5, 4), (4, 2)]).Unites (Joined [(3, 2), (5, 4), (4, 2)]) source target
          ((mergeAll [(3, 2), (5, 4), (4, 2)]).merge source target).1
          ((mergeAll [(3, 2), (5, 4), (4, 2)]).merge source target).2 :=
  ⟨by decide, mergeAll_represents _ (by decide)⟩

example : (mergeAll [(3, 2), (5, 4), (4, 2)]).members 2 = [2, 3, 4, 5] := by decide

end Entail.Classes
