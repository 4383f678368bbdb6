import Mathlib.Data.Fintype.Basic
import Entail.Update

/-!
# Bits and standings

What setting and clearing bits does to a test of a single bit (`Bits.any_or`, `Bits.any_update`),
what a test of several bits says of each (`Bits.IsBit.only_or`), and the standings of a fact as
conditions on single bits (`Standing.kept_iff`, `Standing.after_iff`).
-/

namespace Entail

namespace Bits

theorem or_and (s m b : Bits) : (s ||| m) &&& b = (s &&& b) ||| (m &&& b) := by
  simp only [← UInt8.toBitVec_inj, UInt8.toBitVec_and, UInt8.toBitVec_or]
  ext i hi
  simp [Bool.and_or_distrib_right]

theorem any_or (s m b : Bits) : (s ||| m).any b = (s.any b || m.any b) := by
  rw [Bool.eq_iff_iff]
  simp only [any, or_and, bne_iff_ne, ne_eq, Bool.or_eq_true, UInt8.or_eq_zero_iff]
  tauto

theorem any_comm (s m : Bits) : s.any m = m.any s := by
  rw [any, any, UInt8.and_comm]

theorem any_mask_or (s a b : Bits) : s.any (a ||| b) = (s.any a || s.any b) := by
  rw [any_comm, any_or, any_comm a, any_comm b]

theorem zero_any (b : Bits) : (0 : Bits).any b = false := by
  simp [any]

theorem any_eq_false_iff {s m : Bits} : s.any m = false ↔ s &&& m = 0 := by
  simp [any]

/-- The mask has one bit. -/
def IsBit (b : Bits) : Prop :=
  ∃ k < 8, b.toBitVec = BitVec.twoPow 8 k

namespace IsBit

variable {b m s : Bits}

theorem ne_zero (hb : IsBit b) : b ≠ 0 := by
  obtain ⟨k, hk, he⟩ := hb
  rintro rfl
  have := congrArg (BitVec.getLsbD · k) he
  simp [hk] at this

/-- Of a mask with one bit, a byte has all or nothing. -/
theorem and_eq (hb : IsBit b) (s : Bits) : s &&& b = if s.any b then b else 0 := by
  have hne := hb.ne_zero
  obtain ⟨k, -, hk⟩ := hb
  have h : (s &&& b).toBitVec = if s.toBitVec.getLsbD k then b.toBitVec else 0#8 := by
    rw [UInt8.toBitVec_and, hk, BitVec.and_twoPow]
  cases hs : s.toBitVec.getLsbD k with
  | true =>
    rw [hs, if_pos rfl] at h
    have hsb : s &&& b = b := UInt8.toBitVec_inj.mp h
    have hany : s.any b = true := by rwa [any, hsb, bne_iff_ne]
    rw [hany, if_pos rfl, hsb]
  | false =>
    rw [hs, if_neg Bool.false_ne_true] at h
    have hsb : s &&& b = 0 := UInt8.toBitVec_inj.mp h
    rw [any_eq_false_iff.mpr hsb, if_neg Bool.false_ne_true, hsb]

theorem any_self (hb : IsBit b) : b.any b = true := by
  rw [any, UInt8.and_self, bne_iff_ne]
  exact hb.ne_zero

/-- The test of one bit reads it. -/
theorem any_eq (hb : IsBit b) : ∃ k : Nat, ∀ s : Bits, s.any b = s.toBitVec.getLsbD k := by
  have hne := hb.ne_zero
  obtain ⟨k, -, hk⟩ := hb
  refine ⟨k, fun s => ?_⟩
  have h : (s &&& b).toBitVec = if s.toBitVec.getLsbD k then b.toBitVec else 0#8 := by
    rw [UInt8.toBitVec_and, hk, BitVec.and_twoPow]
  rw [Bool.eq_iff_iff, any, bne_iff_ne, ne_eq, ← UInt8.toBitVec_inj, h]
  cases s.toBitVec.getLsbD k with
  | true => simpa [← UInt8.toBitVec_inj] using hne
  | false => simp

/-- A byte with a bit has something of every mask with the bit. -/
theorem any_of_any (hb : IsBit b) (hs : s.any b = true) (hm : b.any m = true) :
    s.any m = true := by
  have h : s ||| b = s := by
    have hsb := hb.and_eq s
    rw [if_pos hs] at hsb
    rw [← hsb, ← UInt8.toBitVec_inj, UInt8.toBitVec_or, UInt8.toBitVec_and]
    ext i hi
    simp +contextual
  rw [← h, any_or, hm, Bool.or_true]

/-- Setting a bit changes a byte that does not have it. -/
theorem or_bne (hb : IsBit b) (s : Bits) : ((s ||| b) != s) = !s.any b := by
  cases hs : s.any b with
  | true =>
    have hsb := hb.and_eq s
    rw [if_pos hs] at hsb
    rw [Bool.not_true, bne_eq_false_iff_eq, ← hsb, ← UInt8.toBitVec_inj, UInt8.toBitVec_or,
      UInt8.toBitVec_and]
    ext i hi
    simp +contextual
  | false =>
    rw [Bool.not_false, bne_iff_ne]
    intro h
    have := any_or s b b
    rw [h, hs, hb.any_self] at this
    cases this

/-- A bit is all that is set of it and other bits if it is set and none of the others is. -/
theorem only_or (hb : IsBit b) (hm : m &&& b = 0) (s : Bits) :
    s.only (m ||| b) b = (s.any b && !s.any m) := by
  have hand : s &&& (m ||| b) = (s &&& m) ||| (s &&& b) := by
    rw [UInt8.and_comm, or_and, UInt8.and_comm m, UInt8.and_comm b]
  rw [Bool.eq_iff_iff, only, beq_iff_eq, hand, hb.and_eq s, Bool.and_eq_true, Bool.not_eq_true']
  constructor
  · intro h
    have hzero : (s &&& m) = 0 := by
      -- what is set of the others would be set of the bit
      have hsub : (s &&& m) &&& b = s &&& m := by
        rw [← h]
        cases s.any b <;> rw [← UInt8.toBitVec_inj] <;> simp only [UInt8.toBitVec_and,
          UInt8.toBitVec_or, if_true, Bool.false_eq_true, if_false] <;> ext i hi <;>
          simp +contextual
      rw [← hsub, UInt8.and_assoc, hm, UInt8.and_zero]
    rw [hzero, UInt8.zero_or] at h
    refine ⟨?_, any_eq_false_iff.mpr hzero⟩
    cases hs : s.any b with
    | true => rfl
    | false =>
      rw [hs, if_neg Bool.false_ne_true] at h
      exact absurd h.symm hb.ne_zero
  · rintro ⟨hs, hn⟩
    rw [if_pos hs, any_eq_false_iff.mp hn, UInt8.zero_or]

end IsBit

/-- The bytes that are powers of two have one bit. -/
theorem isBit (k : Fin 8) : IsBit (UInt8.ofNat (Nat.pow 2 k.val)) :=
  ⟨k, k.isLt, by revert k; decide⟩

theorem isBit_asserted : IsBit Status.asserted := isBit 1

theorem isBit_derived : IsBit Status.derived := isBit 2

theorem isBit_merged : IsBit Status.merged := isBit 3

theorem isBit_deletedNew : IsBit Flag.Update.deletedNew := isBit 0

theorem isBit_deleted : IsBit Flag.Update.deleted := isBit 1

theorem isBit_addedNew : IsBit Flag.Update.addedNew := isBit 2

theorem isBit_added : IsBit Flag.Update.added := isBit 3

theorem isBit_disproved : IsBit Flag.Update.disproved := isBit 5

theorem isBit_provedNew : IsBit Flag.Level.provedNew := isBit 0

theorem isBit_proved : IsBit Flag.Level.proved := isBit 1

theorem isBit_checked : IsBit Flag.Level.checked := isBit 3

theorem isBit_delayed : IsBit Flag.Level.delayed := isBit 4

theorem any_update {b : Bits} (hb : IsBit b) (s c t : Bits) :
    (s.update c t).any b = ((s.any b && !c.any b) || t.any b) := by
  obtain ⟨k, hk⟩ := hb.any_eq
  by_cases h : k < 8
  · simp [hk, update, h]
  · have hz : ∀ u : Bits, u.toBitVec.getLsbD k = false := fun u =>
      BitVec.getLsbD_of_ge _ _ (by omega)
    simp only [hk, hz, Bool.false_and, Bool.or_self]

/-- Clearing bits changes a byte that has some of them. -/
theorem update_bne (s m : Bits) : (s.update m 0 != s) = s.any m := by
  cases hs : s.any m with
  | true =>
    rw [bne_iff_ne]
    intro h
    have hand : s &&& m = 0 := by
      rw [← h, update, UInt8.or_zero, UInt8.and_assoc, UInt8.and_comm _ m, UInt8.and_not_self, UInt8.and_zero]
    rw [any_eq_false_iff.mpr hand] at hs
    cases hs
  | false =>
    have hand := any_eq_false_iff.mp hs
    rw [bne_eq_false_iff_eq, update, UInt8.or_zero, ← UInt8.toBitVec_inj, UInt8.toBitVec_and,
      UInt8.toBitVec_not]
    have hand := UInt8.toBitVec_inj.mpr hand
    rw [UInt8.toBitVec_and] at hand
    ext i hi
    simpa using congrArg (fun v : BitVec 8 => v[i]) hand

theorem update_zero (s set : Bits) : s.update 0 set = s ||| set := by
  simp [update]

end Bits

namespace Flag

open Flag.Update Flag.Level

theorem only_disproved (f : Flags) :
    f.only (disproved ||| added) disproved = (f.any disproved && !f.any added) :=
  Bits.isBit_disproved.only_or (m := added) (by decide) f

theorem only_proved (f : Flags) :
    f.only (proved ||| provedMerged) proved = (f.any proved && !f.any provedMerged) :=
  Bits.isBit_proved.only_or (m := provedMerged) (by decide) f

theorem only_provedNew (f : Flags) :
    f.only (proved ||| provedMerged ||| provedNew) provedNew =
      (f.any provedNew && !f.any proved && !f.any provedMerged) := by
  rw [Bits.isBit_provedNew.only_or (by decide), Bits.any_mask_or, Bool.not_or, Bool.and_assoc]

end Flag

namespace Standing

open Flag.Update

theorem before_iff (s : Status) :
    before s = (s.any Status.derived && !s.any Status.merged) :=
  Bits.isBit_derived.only_or (m := Status.merged) (by decide) s

theorem before_cleared (s : Status) :
    before (s.update (Status.derived ||| Status.merged) 0) = false := by
  rw [before_iff, Bits.any_update Bits.isBit_derived, Bits.any_or, Bits.isBit_derived.any_self]
  simp [Bits.zero_any]

/-- A status that is not given up changes if its fact leaves the materialization. -/
theorem cleared_bne {s : Status} (h : s.any Status.merged = false) :
    (s.update (Status.derived ||| Status.merged) 0 != s) = before s := by
  rw [Bits.update_bne, Bits.any_mask_or, before_iff, h, Bool.or_false, Bool.not_false, Bool.and_true]

theorem before_entered (s : Status) : before (s.update Status.merged Status.derived) = true := by
  rw [before_iff, Bits.any_update Bits.isBit_derived, Bits.any_update Bits.isBit_merged,
    Bits.isBit_derived.any_self, Bits.isBit_merged.any_self]
  simp [show Status.derived.any Status.merged = false from rfl]

theorem before_left (s : Status) : before (s.update Status.derived Status.merged) = false := by
  rw [before_iff, Bits.any_update Bits.isBit_merged, Bits.isBit_merged.any_self]
  simp

/-- A status changes if its fact enters the materialization. -/
theorem entered_bne (s : Status) : (s.update Status.merged Status.derived != s) = !before s := by
  cases hb : before s with
  | false =>
    rw [Bool.not_false, bne_iff_ne]
    intro he
    rw [← he, before_entered] at hb
    cases hb
  | true =>
    rw [before_iff, Bool.and_eq_true, Bool.not_eq_true'] at hb
    have hderived := Bits.isBit_derived.and_eq s
    rw [if_pos hb.1] at hderived
    have hmerged := UInt8.toBitVec_inj.mpr (Bits.any_eq_false_iff.mp hb.2)
    rw [UInt8.toBitVec_and, show UInt8.toBitVec 0 = 0#8 from rfl] at hmerged
    rw [Bool.not_true, bne_eq_false_iff_eq, Bits.update, ← UInt8.toBitVec_inj, ← hderived,
      UInt8.toBitVec_or, UInt8.toBitVec_and, UInt8.toBitVec_not, UInt8.toBitVec_and]
    ext i hi
    have hbit := congrArg (fun v : BitVec 8 => v[i]) hmerged
    simp only [BitVec.getElem_and, BitVec.getElem_zero] at hbit
    simp only [BitVec.getElem_or, BitVec.getElem_and, BitVec.getElem_not]
    cases hs : s.toBitVec[i] <;> simp_all

theorem only_deleted (f : Flags) :
    f.only (added ||| deleted) deleted = (f.any deleted && !f.any added) :=
  Bits.isBit_deleted.only_or (m := added) (by decide) f

theorem only_added (f : Flags) :
    f.only (added ||| addedMerged) added = (f.any added && !f.any addedMerged) :=
  Bits.isBit_added.only_or (m := addedMerged) (by decide) f

theorem only_added_of_deleted (f : Flags) :
    f.only (added ||| addedMerged ||| deleted) added =
      (f.any added && !f.any addedMerged && !f.any deleted) := by
  rw [show added ||| addedMerged ||| deleted = addedMerged ||| deleted ||| added from rfl,
    Bits.isBit_added.only_or (by decide), Bits.any_mask_or, Bool.not_or, Bool.and_assoc]

theorem only_added_not_deleted (f : Flags) :
    f.only (added ||| deleted) added = (f.any added && !f.any deleted) := by
  rw [show added ||| deleted = deleted ||| added from rfl, Bits.isBit_added.only_or (by decide)]

theorem only_deleted_not_added (f : Flags) :
    f.only (added ||| addedMerged ||| deleted) deleted =
      (f.any deleted && !f.any added && !f.any addedMerged) := by
  rw [Bits.isBit_deleted.only_or (by decide), Bits.any_mask_or, Bool.not_or, Bool.and_assoc]

theorem kept_iff (s : Standing) :
    s.kept = (before s.status && !(s.flags.any deleted && !s.flags.any added)) := by
  rw [kept, only_deleted]

theorem withAdded_iff (s : Standing) :
    s.withAdded = (before s.status || (s.flags.any added && !s.flags.any addedMerged)) := by
  rw [withAdded, only_added]

theorem after_iff (s : Standing) :
    s.after = ((before s.status && !(s.flags.any deleted || s.flags.any addedMerged)) ||
      (s.flags.any added && !s.flags.any addedMerged)) := by
  rw [after, only_added, Bits.any_mask_or]

end Standing

end Entail
