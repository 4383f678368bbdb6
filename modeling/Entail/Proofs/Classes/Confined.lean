import Mathlib.Order.Interval.Finset.Nat
import Entail.Proofs.Classes.Copies

/-!
# Classes within a finite set of ids

A merge of ids of a finite set does not lead out of it (`Confined.merge?`). The ids of the set are in one
class less then, so there are less merges than ids.
-/

namespace Entail.Classes

variable {c c' : Classes} {K : Finset Nat}

/-- Every class lists its members, and ids of `K` are represented by ids of `K`. -/
structure Confined (K : Finset Nat) (c : Classes) : Prop where
  listed : c.Listed
  normalize_mem (id : Nat) (h : id ∈ K) : c.normalize id ∈ K

theorem Confined.inter {K' : Finset Nat} (h : c.Confined K) (h' : c.Confined K') : c.Confined (K ∩ K') :=
  ⟨h.listed, fun id hid => Finset.mem_inter.mpr ⟨h.normalize_mem id (Finset.mem_inter.mp hid).1,
    h'.normalize_mem id (Finset.mem_inter.mp hid).2⟩⟩

/-- The number of classes that the ids of a set are in. -/
def classCount (K : Finset Nat) (c : Classes) : Nat := (K.image c.normalize).card

theorem classCount_le (K : Finset Nat) (c : Classes) : c.classCount K ≤ K.card := Finset.card_image_le

theorem classCount_pos {id : Nat} (h : id ∈ K) (c : Classes) : 0 < c.classCount K :=
  Finset.card_pos.mpr ⟨_, Finset.mem_image_of_mem _ h⟩

/-- A merge of ids of `K` does not lead out of it, and makes one class less, or none. -/
theorem Confined.merge? (h : c.Confined K) (hzero : 0 ∉ K) {source target : Nat} (hs : source ∈ K)
    (ht : target ∈ K) {merged : Bool} (hm : c.merge? source target = some (merged, c')) :
    c'.Confined K ∧ if merged then
      c'.absorbed.card = c.absorbed.card + 1 ∧ c'.classCount K + 1 = c.classCount K else c' = c := by
  rw [Classes.merge?] at hm
  split at hm
  swap
  · cases hm
  have hm := Option.some.inj hm
  by_cases he : c.normalize source = c.normalize target
  · rw [merge_of_eq he] at hm
    cases hm
    exact ⟨h, rfl⟩
  have hns : c.normalize source ≠ 0 := h.listed.forest.normalize_ne_zero fun h0 => hzero (h0 ▸ hs)
  have hnt : c.normalize target ≠ 0 := h.listed.forest.normalize_ne_zero fun h0 => hzero (h0 ▸ ht)
  have hl := h.listed.merge he hns hnt
  have hj := h.listed.forest.joins_merge he hnt
  have hfst := merge_fst he
  rw [hm] at hl hj hfst
  subst hfst
  refine ⟨⟨hl, fun id hid => ?_⟩, hj.card_eq, ?_⟩
  · rw [hj.normalize_eq]
    split
    · exact h.normalize_mem _ ht
    · exact h.normalize_mem _ hid
  · -- the representative of the source is the one that is not a representative any more
    have himage : K.image c'.normalize = (K.image c.normalize).erase (c.normalize source) := by
      ext id
      rw [Finset.mem_erase, Finset.mem_image, Finset.mem_image]
      constructor
      · rintro ⟨a, ha, rfl⟩
        rw [hj.normalize_eq]
        split
        · exact ⟨Ne.symm he, target, ht, rfl⟩
        · exact ⟨‹_›, a, ha, rfl⟩
      · rintro ⟨hne, a, ha, rfl⟩
        exact ⟨a, ha, by rw [hj.normalize_eq, if_neg hne]⟩
    rw [classCount, himage, Finset.card_erase_of_mem (Finset.mem_image_of_mem _ hs)]
    exact Nat.sub_add_cancel (classCount_pos hs c)

/-- Ids beyond those with links are on their own. -/
theorem Confined.of_le (h : c.Listed) {n : Nat} (hn : c.size ≤ n) : c.Confined (Finset.Icc 1 n) := by
  refine ⟨h, fun id hid => ?_⟩
  rw [Finset.mem_Icc] at hid ⊢
  refine ⟨Nat.one_le_iff_ne_zero.mpr (h.forest.normalize_ne_zero (by omega)), ?_⟩
  by_cases hlt : c.normalize id < c.size
  · omega
  · have := h.eq_of_size_le (Nat.le_of_not_lt hlt) (h.forest.normalize_normalize id).symm
    omega

end Entail.Classes
