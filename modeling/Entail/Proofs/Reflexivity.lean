import Mathlib.Data.List.Basic
import Entail.Proofs.Bits
import Entail.Update.Reflexivity

/-!
# Packed bits do not hide one another

A check sets the bit at the place of its pair and leaves every other bit as it was (`bit_check`).
As long as 64 bits are enough for the places, those of different pairs differ (`pair_inj`) and lie
in the bytes (`place_lt`), so the bits set are those of a set of pairs (`Holds`). Then a check says
that its bit is new just if no check before it was of the same pair (`checkAll_eq_firsts`). With
more bits than that some answer is wrong (`exists_checkAll_ne_firsts`).
-/

namespace Entail.Reflexivity

/-- Checks of pairs of a resource and a kind, one after another: the answers and the bits
afterwards. -/
def checkAll : List (Nat × Nat) → Reflexivity → List Bool × Reflexivity
  | [], r => ([], r)
  | pair :: rest, r =>
    let (isNew, r) := r.check pair.1 pair.2
    let (answers, r) := checkAll rest r
    (isNew :: answers, r)

/-- For each pair of a list, whether it is not among those before it. -/
def firsts (pairs : List (Nat × Nat)) : List Bool :=
  pairs.mapIdx fun i pair => !(pairs.take i).contains pair

variable {r : Reflexivity} {maxId width id kind id' kind' : Nat} {checked pairs : List (Nat × Nat)}

/-! ## Bits -/

/-- Whether the bit with the given place is set. -/
def bit (r : Reflexivity) (place : Nat) : Bool := (r.byte (place / 8)).any (maskOf place)

theorem maskOf_any (place other : Nat) :
    (maskOf place).any (maskOf other) = decide (place % 8 = other % 8) := by
  have h : ∀ i j : Fin 8, Bits.any (1 <<< UInt8.ofNat i) (1 <<< UInt8.ofNat j) =
      decide (i.val = j.val) := by decide
  exact h ⟨place % 8, Nat.mod_lt _ (by decide)⟩ ⟨other % 8, Nat.mod_lt _ (by decide)⟩

theorem bit_new (place : Nat) : (new maxId width).bit place = false := by
  simp [bit, byte, new, Bits.zero_any]

theorem check_of_le (h : r.size ≤ r.place id kind / 8) : r.check id kind = (true, r) :=
  if_neg (Nat.not_lt.mpr h)

theorem check_of_lt (h : r.place id kind / 8 < r.size) :
    r.check id kind = (!r.bit (r.place id kind), { r with
      bytes := r.bytes.insert (r.place id kind / 8)
        (r.byte (r.place id kind / 8) ||| maskOf (r.place id kind)) }) :=
  if_pos h

theorem isNew_check (h : r.place id kind / 8 < r.size) :
    (r.check id kind).1 = !r.bit (r.place id kind) := by
  rw [check_of_lt h]

/-- A check sets the bit of its pair and no other. -/
theorem bit_check (h : r.place id kind / 8 < r.size) (place : Nat) :
    (r.check id kind).2.bit place = (r.bit place || decide (r.place id kind = place)) := by
  rw [check_of_lt h]
  generalize r.place id kind = own
  simp only [bit, byte, Std.HashMap.getElem?_insert, beq_iff_eq]
  by_cases hbyte : own / 8 = place / 8
  · have hiff : own % 8 = place % 8 ↔ own = place := by omega
    simp only [hbyte, if_true, Option.getD_some, Bits.any_or, maskOf_any, hiff]
  · have hne : own ≠ place := fun he => hbyte (he ▸ rfl)
    simp only [hbyte, if_false, hne, decide_false, Bool.or_false]

/-! ## Places -/

/-- The number of bits of all resources up to `maxId` is above the place of each of their pairs. -/
theorem pair_lt (hid : id ≤ maxId) (hkind : kind < width) :
    id * width + kind < (maxId + 1) * width :=
  calc id * width + kind
    _ < id * width + width := Nat.add_lt_add_left hkind _
    _ = (id + 1) * width := (Nat.succ_mul id width).symm
    _ ≤ (maxId + 1) * width := Nat.mul_le_mul_right width (Nat.succ_le_succ hid)

/-- A pair is the quotient and the remainder of its place. -/
theorem pair_inj (hkind : kind < width) (hkind' : kind' < width)
    (h : id * width + kind = id' * width + kind') : (id, kind) = (id', kind') := by
  have hdiv (n : Nat) {k : Nat} (hk : k < width) : (n * width + k) / width = n := by
    rw [Nat.mul_comm, Nat.mul_add_div (Nat.zero_lt_of_lt hk), Nat.div_eq_of_lt hk, Nat.add_zero]
  have hid : id = id' := by rw [← hdiv id hkind, h, hdiv id' hkind']
  subst hid
  rw [Nat.add_left_cancel h]

/-- Every place below that number is the place of a pair. -/
theorem exists_pair {place : Nat} (hwidth : 0 < width) (h : place < (maxId + 1) * width) :
    ∃ id ≤ maxId, ∃ kind < width, id * width + kind = place :=
  ⟨place / width, Nat.le_of_lt_succ (Nat.div_lt_of_lt_mul (Nat.mul_comm .. ▸ h)), place % width,
    Nat.mod_lt _ hwidth, Nat.div_add_mod' place width⟩

theorem size_new (hfits : (maxId + 1) * width < Nat.pow 2 64) :
    (new maxId width).size = ((maxId + 1) * width + 7) / 8 := by
  have hwrap : wrap ((maxId + 1) * width) = (maxId + 1) * width := Nat.mod_eq_of_lt hfits
  rw [new, hwrap]

theorem place_eq (hfits : (maxId + 1) * r.width < Nat.pow 2 64) (hid : id ≤ maxId)
    (hkind : kind < r.width) : r.place id kind = id * r.width + kind :=
  Nat.mod_eq_of_lt (Nat.lt_trans (pair_lt hid hkind) hfits)

/-- The bytes reach as far as the last bit of the last resource. -/
theorem place_lt (hfits : (maxId + 1) * r.width < Nat.pow 2 64) (hid : id ≤ maxId)
    (hkind : kind < r.width) : r.place id kind / 8 < (new maxId r.width).size := by
  have hlt := pair_lt hid hkind
  rw [place_eq hfits hid hkind, size_new hfits]
  omega

/-! ## Checks -/

/-- The bits are as many as for a new tracker, and those set are the bits of the pairs checked. -/
structure Holds (r : Reflexivity) (maxId width : Nat) (checked : List (Nat × Nat)) : Prop where
  width_eq : r.width = width
  size_eq : r.size = (new maxId width).size
  bit_eq : ∀ id ≤ maxId, ∀ kind < width, r.bit (id * width + kind) = checked.contains (id, kind)

theorem holds_new : (new maxId width).Holds maxId width [] :=
  ⟨rfl, rfl, fun _ _ _ _ => bit_new _⟩

theorem Holds.check (hfits : (maxId + 1) * width < Nat.pow 2 64) (h : r.Holds maxId width checked)
    (hid : id ≤ maxId) (hkind : kind < width) :
    (r.check id kind).1 = !checked.contains (id, kind) ∧
      (r.check id kind).2.Holds maxId width (checked ++ [(id, kind)]) := by
  obtain ⟨rfl, hsize, hbit⟩ := h
  have hlt : r.place id kind / 8 < r.size := hsize ▸ place_lt hfits hid hkind
  have hplace := place_eq hfits hid hkind
  refine ⟨?_, ?_, ?_, fun id' hid' kind' hkind' => ?_⟩
  · rw [isNew_check hlt, hplace, hbit id hid kind hkind]
  · rw [check_of_lt hlt]
  · rw [check_of_lt hlt]
    exact hsize
  · -- no other pair has the place that was set
    have hiff : id * r.width + kind = id' * r.width + kind' ↔ (id', kind') = (id, kind) :=
      ⟨fun he => (pair_inj hkind hkind' he).symm, fun he => by cases he; rfl⟩
    rw [bit_check hlt, hplace, hbit id' hid' kind' hkind']
    simp only [hiff, List.contains_append, List.contains_cons, List.contains_nil, Bool.or_false,
      Bool.beq_eq_decide_eq]

/-- By induction on the pairs still to be checked; those before them have become bits. -/
theorem Holds.answers (hfits : (maxId + 1) * width < Nat.pow 2 64) (h : r.Holds maxId width checked)
    (hpairs : ∀ pair ∈ pairs, pair.1 ≤ maxId ∧ pair.2 < width) :
    (checkAll pairs r).1 = pairs.mapIdx (fun i pair => !(checked ++ pairs.take i).contains pair) ∧
      (checkAll pairs r).2.Holds maxId width (checked ++ pairs) := by
  induction pairs generalizing r checked with
  | nil => exact ⟨rfl, (List.append_nil checked).symm ▸ h⟩
  | cons pair rest ih =>
    obtain ⟨id, kind⟩ := pair
    obtain ⟨hid, hkind⟩ := hpairs _ List.mem_cons_self
    obtain ⟨hanswer, hnext⟩ := h.check hfits hid hkind
    obtain ⟨hanswers, hafter⟩ := ih hnext fun pair hpair => hpairs pair (List.mem_cons_of_mem _ hpair)
    rw [List.append_assoc] at hafter
    refine ⟨?_, hafter⟩
    rw [checkAll, List.mapIdx_cons]
    simp only [hanswer, hanswers, List.take_zero, List.append_nil, List.take_succ_cons,
      List.append_assoc, List.singleton_append]

/-- As long as the bits can be counted with 64 bits, a check says that its bit is new just if no
check before it was of the same pair, and every pair has its bit in the bytes. -/
theorem checkAll_eq_firsts (hfits : (maxId + 1) * width < Nat.pow 2 64)
    (hpairs : ∀ pair ∈ pairs, pair.1 ≤ maxId ∧ pair.2 < width) :
    (checkAll pairs (new maxId width)).1 = firsts pairs ∧
      ∀ id ≤ maxId, ∀ kind < width,
        (new maxId width).place id kind / 8 < (new maxId width).size :=
  ⟨(holds_new.answers hfits hpairs).1, fun _ hid _ hkind =>
    place_lt (r := new maxId width) hfits hid hkind⟩

/-- The bits of the third resource are in two bytes. -/
theorem checkAll_eq_firsts_straddling :
    (10 + 1) * 3 < Nat.pow 2 64 ∧
      (∀ pair ∈ [(2, 1), (2, 2), (2, 1), (5, 2), (2, 2), (10, 2)], pair.1 ≤ 10 ∧ pair.2 < 3) ∧
      (checkAll [(2, 1), (2, 2), (2, 1), (5, 2), (2, 2), (10, 2)] (new 10 3)).1 =
        [true, true, false, true, false, true] ∧
      (new 10 3).place 10 2 / 8 < (new 10 3).size := by
  have hfits : (10 + 1) * 3 < Nat.pow 2 64 := by decide
  have hpairs : ∀ pair ∈ [(2, 1), (2, 2), (2, 1), (5, 2), (2, 2), (10, 2)],
      pair.1 ≤ 10 ∧ pair.2 < 3 := by decide
  obtain ⟨hanswers, hplaces⟩ := checkAll_eq_firsts hfits hpairs
  exact ⟨hfits, hpairs, hanswers.trans (by decide), hplaces 10 (by decide) 2 (by decide)⟩

/-- With one bit for each resource up to 2 ^ 64 - 1 the number of bits is taken for zero and no byte is
kept, so that a pair checked twice is new twice. -/
theorem not_forall_checkAll_eq_firsts :
    ¬ ∀ maxId width, ∀ pairs : List (Nat × Nat), maxId < Nat.pow 2 64 → 0 < width → width < Nat.pow 2 8 →
      (∀ pair ∈ pairs, pair.1 ≤ maxId ∧ pair.2 < width) →
      (checkAll pairs (new maxId width)).1 = firsts pairs ∧
        ∀ id ≤ maxId, ∀ kind < width,
          (new maxId width).place id kind / 8 < (new maxId width).size := by
  intro h
  have hanswers : (checkAll [(0, 0), (0, 0)] (new (Nat.pow 2 64 - 1) 1)).1 = firsts [(0, 0), (0, 0)] :=
    (h (Nat.pow 2 64 - 1) 1 [(0, 0), (0, 0)] (by decide) (by decide) (by decide) (by decide)).1
  revert hanswers
  decide

/-- A pair is not new once a pair with the same place was checked. -/
theorem check_check_of_place_eq (h : r.place id kind / 8 < r.size)
    (hplace : r.place id' kind' = r.place id kind) :
    ((r.check id kind).2.check id' kind').1 = false := by
  have hplace' : (r.check id kind).2.place id' kind' = r.place id kind := by
    rw [check_of_lt h]
    exact hplace
  have hlt : (r.check id kind).2.place id' kind' / 8 < (r.check id kind).2.size := by
    rw [hplace', check_of_lt h]
    exact h
  rw [isNew_check hlt, hplace', bit_check h, decide_eq_true rfl, Bool.or_true, Bool.not_true]

/-- With more bits than 64 bits can count some answer is wrong: no byte is kept, or the first place
that is too large is taken for the first place of all. -/
theorem exists_checkAll_ne_firsts (hwidth : 0 < width)
    (hlarge : Nat.pow 2 64 ≤ (maxId + 1) * width) :
    ∃ pairs : List (Nat × Nat), (∀ pair ∈ pairs, pair.1 ≤ maxId ∧ pair.2 < width) ∧
      (checkAll pairs (new maxId width)).1 ≠ firsts pairs := by
  by_cases hsize : (new maxId width).size = 0
  · have hcheck : (new maxId width).check 0 0 = (true, new maxId width) :=
      check_of_le (hsize.symm ▸ Nat.zero_le _)
    refine ⟨[(0, 0), (0, 0)], by simpa using hwidth, ?_⟩
    simp only [checkAll, hcheck]
    decide
  · have hlt : Nat.pow 2 64 < (maxId + 1) * width := by
      refine Nat.lt_of_le_of_ne hlarge fun he => hsize ?_
      rw [new, ← he]
      rfl
    obtain ⟨id, hid, kind, hkind, hpair⟩ := exists_pair hwidth hlt
    have hzero : (new maxId width).place 0 0 = 0 := by simp [place, wrap]
    have hplace : (new maxId width).place id kind = 0 := by
      show wrap (id * width + kind) = 0
      rw [hpair]
      rfl
    have hsame : (((new maxId width).check 0 0).2.check id kind).1 = false :=
      check_check_of_place_eq (hzero.symm ▸ Nat.pos_of_ne_zero hsize) (hplace.trans hzero.symm)
    have hother : (id, kind) ≠ (0, 0) := by
      rintro ⟨⟩
      rw [Nat.zero_mul] at hpair
      cases hpair
    refine ⟨[(0, 0), (id, kind)], by simpa using ⟨hwidth, hid, hkind⟩, ?_⟩
    simp [checkAll, hsame, firsts, hother]

end Entail.Reflexivity
