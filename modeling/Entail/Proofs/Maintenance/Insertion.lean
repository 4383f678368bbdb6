import Entail.Maintenance.Insertion
import Entail.Proofs.Maintenance.Budget
import Entail.Proofs.Maintenance.Queue
import Entail.Proofs.Maintenance.View

/-!
# Insertion

While a level is worked off (`InsertionTask.Inserting`), only facts of a set `M` that the instances of
the level do not lead out of are queued and added. What is there is `Saturated` if the conclusions of
every instance that holds in it are there or queued. `replay_wp` establishes this, given that it is so
for the instances that hold in what was kept and added, and `consider_wp` keeps it when a queued fact
is added. In the end every queued fact is there (`insert_wp`).
-/

namespace Entail

namespace InsertionTask

open Flag.Update

variable {c : Context} {rules : List Rule} {task : InsertionTask} {U M : Set Triple} {N : Nat}
  {r r' r'' : Run} {t : Triple}

/-! ## Frames -/

/-- `r'` is `r` with more facts queued for addition or added, and perhaps more rows. -/
structure Adds (r r' : Run) : Prop where
  eq : ∃ table reflexivity journal polls flags added deleted, r' = { r with
    table, reflexivity, journal, polls, update := { r.update with flags, added, deleted } }
  table : r.table.Grows r'.table
  flags (row : Nat) (b : Flags) (h : addedNew.any b = false) (h' : added.any b = false) :
    (r'.flags row).any b = (r.flags row).any b
  has (t : Triple) (h : r.Has addedNew t) : r'.Has addedNew t
  kept (t : Triple) (h : r.Has added t) : r'.Has added t
  listed : r.listed .added <+: r'.listed .added
  listed_deleted : r'.listed .deleted = r.listed .deleted

namespace Adds

theorem trans (h : Adds r r') (h' : Adds r' r'') : Adds r r'' := by
  refine ⟨?_, h.table.trans h'.table,
    fun row b hb hb' => (h'.flags row b hb hb').trans (h.flags row b hb hb'),
    fun t ht => h'.has t (h.has t ht), fun t ht => h'.kept t (h.kept t ht),
    h.listed.trans h'.listed, h'.listed_deleted.trans h.listed_deleted⟩
  obtain ⟨_, _, _, _, _, _, _, rfl⟩ := h.eq
  obtain ⟨_, _, _, _, _, _, _, rfl⟩ := h'.eq
  exact ⟨_, _, _, _, _, _, _, rfl⟩

theorem journal (h : Adds r r') (journal : Array Entry) : Adds r { r' with journal } := by
  refine { h with eq := ?_ }
  obtain ⟨_, _, _, _, _, _, _, rfl⟩ := h.eq
  exact ⟨_, _, _, _, _, _, _, rfl⟩

theorem grows (h : Adds r r') : r.Grows { r with table := r'.table } := ⟨⟨_, rfl⟩, h.table⟩

theorem before_iff (h : Adds r r') : r'.Before t ↔ r.Before t := h.grows.before_iff

theorem asserted_iff (h : Adds r r') : r'.Asserted t ↔ r.Asserted t := h.grows.asserted_iff

theorem has_iff (h : Adds r r') (hp : r.Plain) {b : Flags}
    (hb : ∀ row, (r'.flags row).any b = (r.flags row).any b) : r'.Has b t ↔ r.Has b t :=
  Iff.trans (Run.has_congr (r := { r with table := r'.table }) rfl hb) (h.grows.has_iff hp)

theorem sameQueues (h : Adds r r') : r.SameQueues r' := by
  obtain ⟨_, _, _, _, _, _, _, rfl⟩ := h.eq
  exact ⟨rfl, rfl, rfl, rfl⟩

theorem deleted_iff (h : Adds r r') (hp : r.Plain) : r'.Has deleted t ↔ r.Has deleted t :=
  h.has_iff hp fun row => h.flags row deleted rfl rfl

theorem after (h : Adds r r') (hp : r.Plain) (ht : r.After t) : r'.After t :=
  ht.imp (And.imp h.before_iff.mpr (mt (h.deleted_iff hp).mp)) (h.kept t)

end Adds

/-- `r'` is `r` with more facts queued for addition, and perhaps more rows. -/
structure Derives (r r' : Run) : Prop extends Adds r r' where
  added_eq (row : Nat) : (r'.flags row).any added = (r.flags row).any added

namespace Derives

theorem refl (r : Run) : Derives r r :=
  ⟨⟨⟨_, _, _, _, _, _, _, rfl⟩, .refl _, fun _ _ _ _ => rfl, fun _ => id, fun _ => id,
    List.prefix_refl _, rfl⟩, fun _ => rfl⟩

/-- A queue was worked off further. -/
theorem moved (r : Run) {w : WorkList} (hw : w ≠ .proved) (cursor polls : Nat) :
    Derives r (r.moved w cursor polls) := by
  cases w with
  | proved => exact absurd rfl hw
  | deleted => exact ⟨⟨⟨_, _, _, _, _, _, _, rfl⟩, .refl _, fun _ _ _ _ => rfl, fun _ => id,
      fun _ => id, List.prefix_refl _, rfl⟩, fun _ => rfl⟩
  | added => exact ⟨⟨⟨_, _, _, _, _, _, _, rfl⟩, .refl _, fun _ _ _ _ => rfl, fun _ => id,
      fun _ => id, List.prefix_refl _, rfl⟩, fun _ => rfl⟩

theorem trans (h : Derives r r') (h' : Derives r' r'') : Derives r r'' :=
  ⟨h.toAdds.trans h'.toAdds, fun row => (h'.added_eq row).trans (h.added_eq row)⟩

/-- More rows. -/
theorem grow (h : r.Grows r') (hp : r.Plain) : Derives r r' := by
  have hhas : ∀ b t, r'.Has b t ↔ r.Has b t := fun _ _ => h.has_iff hp
  have ht := h.table
  obtain ⟨table, rfl⟩ := h.eq
  exact ⟨⟨⟨_, _, _, _, _, _, _, rfl⟩, ht, fun _ _ _ _ => rfl, fun t => (hhas _ t).mpr,
    fun t => (hhas _ t).mpr, List.prefix_refl _, rfl⟩, fun _ => rfl⟩

/-- A fact is queued. -/
theorem mark {row : Nat} (h : Routine.Marked .update .added addedNew row t r r') : Derives r r' := by
  refine ⟨⟨?_, by rw [h.table_eq]; exact .refl _, fun row b hb _ => h.flags row b hb,
    fun s hs => (h.has_self Bits.isBit_addedNew).mpr (.inl hs), fun s => (h.has_of_ne rfl).mpr,
    h.listed, h.listed_of_ne (by decide)⟩, fun row => h.flags row added rfl⟩
  obtain ⟨_, _, rfl⟩ := h.eq
  exact ⟨_, _, _, _, _, _, _, rfl⟩

theorem journal (h : Derives r r') (journal : Array Entry) : Derives r { r' with journal } :=
  { h.toAdds.journal journal with added_eq := h.added_eq }

theorem listed_prefix (h : Derives r r') {w : WorkList} (hw : w ≠ .proved) :
    r.listed w <+: r'.listed w := by
  cases w with
  | proved => exact absurd rfl hw
  | deleted => exact h.listed_deleted ▸ List.prefix_refl _
  | added => exact h.listed

theorem alike (h : Derives r r') (hp : r.Plain) : r.Alike r' :=
  ⟨h.before_iff, h.deleted_iff hp, h.has_iff hp h.added_eq⟩

/-- An instance that holds after more facts were queued held before. -/
theorem holds_after {level : Option Nat} {a : c.rules.Instance level} (h : Derives r r') (hp : r.Plain)
    (ha : a.Holds r'.After r'.After) : a.Holds r.After r.After :=
  ha.mono (fun _ _ _ => (h.alike hp).after_iff.mp) fun _ _ _ => (h.alike hp).after_iff.mpr

/-- What is queued does not matter to an evaluation. -/
theorem snapshot_eq (hc : c.Basic rules) (h : Derives r r')
    {f : Run → Role → Occurrence → RowIndex → Status → Bool}
    (hf : ∀ role o row status, f r' role o row status = f r role o row status)
    (hnew : ∀ role o row status, r.table.fact? row = none → Standing.before status = false →
      f r role o row status = false) :
    (c.view f).snapshot r' = (c.view f).snapshot r := by
  refine View.snapshot_congr (c.view f) ?_ h.table.rows (fun role o row hle => ?_)
    fun role o row t _ hlt => ?_
  · exact (hc.steady_eq r').trans (hc.steady_eq r).symm
  · show f r' role o row (r'.table.status row) = f r role o row (r.table.status row)
    rw [hf, h.table.rows.status row hle]
  · exact (hf role o row _).trans (hnew role o row _ (Table.fact?_eq_none hlt) (h.table.before_eq hlt))

theorem kept_eq (h : Derives r r') (row : Nat) (status : Status) :
    (r'.standing row status).kept = (r.standing row status).kept :=
  Standing.kept_congr rfl (h.flags row deleted rfl rfl) (h.added_eq row)

theorem withAdded_eq (h : Derives r r') (row : Nat) (status : Status) :
    (r'.standing row status).withAdded = (r.standing row status).withAdded :=
  Standing.withAdded_congr rfl (h.added_eq row) (h.flags row addedMerged rfl rfl)

theorem after_eq (h : Derives r r') (row : Nat) (status : Status) :
    (r'.standing row status).after = (r.standing row status).after :=
  Standing.after_congr rfl (h.flags row deleted rfl rfl) (h.added_eq row)
    (h.flags row addedMerged rfl rfl)

end Derives

theorem present_eq (hc : c.Basic rules) (row : RowIndex) (status : Status) :
    present c r row status = (r.standing row status).after := by
  rw [present, hc.equality, Bool.false_and, Bool.false_and, Bool.or_false]

/-! ## Queueing derived facts -/

/-- What holds while the facts of a level are added. -/
structure Inserting (c : Context) (task : InsertionTask) (U M : Set Triple) (r : Run) : Prop where
  plain : r.Plain
  facts (row : Nat) (t : Triple) (h : r.table.fact? row = some t) : t ∈ U
  sorted : Sorted r.table c.rules (r.Has addedNew) task.level task.lowerEnd (r.listed .added)
  later : Later r.table c.rules r.update.initiallyAdded (r.Has addedNew) task.level
  lowerEnd : task.lowerEnd ≤ (r.listed .added).length
  sound (t : Triple) (h : r.Has addedNew t) : t ∈ M
  surviving (t : Triple) (h : r.After t) (hup : c.rules.Upto task.level t) : t ∈ M
  queued (t : Triple) (h : r.Has added t) : r.Has addedNew t ∧ c.rules.Upto task.level t
  known (t : Triple) (h : r.Has addedNew t) (hb : c.rules.Below task.level t) : r.After t
  lower (t : Triple) (h : t ∈ M) (hb : c.rules.Below task.level t) : r.After t
  before (t : Triple) (h : r.Has deleted t) : r.Before t
  fresh (t : Triple) (h : r.Has added t) (hb : r.Before t) : r.Has deleted t
  deletions : Includes r.table (r.Has deleted) (r.listed .deleted)

namespace Inserting

theorem grow (h : Inserting c task U M r) (hg : r.Grows r') (hroom : r'.table.size < Marks.room)
    (hU : ∀ row t, r'.table.fact? row = some t → t ∈ U) : Inserting c task U M r' := by
  have hhas : ∀ {b s}, r'.Has b s ↔ r.Has b s := hg.has_iff h.plain
  have hafter : ∀ {s}, r'.After s ↔ r.After s := hg.after_iff h.plain
  have hlisted : ∀ w, r'.listed w = r.listed w := fun w => by
    obtain ⟨_, rfl⟩ := hg.eq
    rfl
  refine ⟨hg.plain h.plain hroom, hU, ?_, ?_, by rw [hlisted]; exact h.lowerEnd,
    fun t ht => h.sound t (hhas.mp ht), fun t ht => h.surviving t (hafter.mp ht), fun t ht => ?_,
    fun t ht hb => hafter.mpr (h.known t (hhas.mp ht) hb),
    fun t ht hb => hafter.mpr (h.lower t ht hb),
    fun t ht => hg.before_iff.mpr (h.before t (hhas.mp ht)),
    fun t ht hb => hhas.mpr (h.fresh t (hhas.mp ht) (hg.before_iff.mp hb)), ?_⟩
  · rw [hlisted]
    exact (h.sorted.extend (fun _ _ => hg.table.rows.fact?) fun t ht => ht.mem).congr fun t => hhas
  · have hlater := h.later.extend (fun _ _ => hg.table.rows.fact?) fun t ht => ht.mem
    obtain ⟨_, rfl⟩ := hg.eq
    exact hlater.congr fun t _ => hhas
  · have hq := h.queued t (hhas.mp ht)
    exact ⟨hhas.mpr hq.1, hq.2⟩
  · rw [hlisted]
    exact (h.deletions.extend (fun _ _ => hg.table.rows.fact?) fun t ht => ht.mem).congr
      fun t => hhas.mp

/-- A fact of the level is queued. -/
theorem mark {row : Nat} (h : Inserting c task U M r) (hf : r.table.fact? row = some t)
    (hat : c.rules.At task.level t) (ht : t ∈ M)
    (hm : Routine.Marked .update .added addedNew row t r r') : Inserting c task U M r' := by
  have hd := Derives.mark hm
  have hafter : ∀ {s}, r'.After s ↔ r.After s := (hd.alike h.plain).after_iff
  refine ⟨hm.plain, by rw [hm.table_eq]; exact h.facts, ?_, ?_,
    h.lowerEnd.trans hm.listed.length_le, fun s hs => ?_,
    fun s hs => h.surviving s (hafter.mp hs), fun s hs => ?_, fun s hs hb => ?_,
    fun s hs hb => hafter.mpr (h.lower s hs hb),
    fun s hs => hd.before_iff.mpr (h.before s ((hm.has_of_ne rfl).mp hs)),
    fun s hs hb => (hm.has_of_ne rfl).mpr
      (h.fresh s ((hm.has_of_ne rfl).mp hs) (hd.before_iff.mp hb)), ?_⟩
  · simpa using hm.sorted Bits.isBit_addedNew hf hat h.lowerEnd [] (by simpa using h.sorted)
  · have hlater := hm.later Bits.isBit_addedNew hat h.later
    obtain ⟨_, _, rfl⟩ := hm.eq
    exact hlater
  · rcases (hm.has_self Bits.isBit_addedNew).mp hs with hs | rfl
    · exact h.sound s hs
    · exact ht
  · have hq := h.queued s ((hm.has_of_ne rfl).mp hs)
    exact ⟨(hm.has_self Bits.isBit_addedNew).mpr (.inl hq.1), hq.2⟩
  · rcases (hm.has_self Bits.isBit_addedNew).mp hs with hs | rfl
    · exact hafter.mpr (h.known s hs hb)
    · exact absurd hb hat.not_below
  · rw [hm.table_eq, hd.listed_deleted]
    exact h.deletions.congr fun s => (hm.has_of_ne rfl).mp

theorem moved (h : Inserting c task U M r) {w : WorkList} (hw : w ≠ .proved) (cursor polls : Nat) :
    Inserting c task U M (r.moved w cursor polls) := by
  cases w with
  | proved => exact absurd rfl hw
  | deleted => exact { h with plain := { h.plain with } }
  | added => exact { h with plain := { h.plain with } }

theorem exists_lists (h : Inserting c task U M r) {w : WorkList} (hw : w ≠ .proved) :
    ∃ S, Lists r.table S (r.listed w) := by
  cases w with
  | proved => exact absurd rfl hw
  | deleted => exact ⟨_, h.deletions.lists⟩
  | added => exact ⟨_, h.sorted.lists⟩

theorem journal (h : Inserting c task U M r) (journal : Array Entry) :
    Inserting c task U M { r with journal } :=
  { h with plain := { h.plain with } }

/-- A queued fact is added. -/
theorem setAdded {row : Nat} {m : Marks} (h : Inserting c task U M r)
    (hf : r.table.fact? row = some t) (hnew : r.Has addedNew t) (hup : c.rules.Upto task.level t)
    (hno : ¬ r.After t) (ha : r.update.flags.Adds row added m) :
    Inserting c task U M { r with update := { r.update with flags := m } } ∧
      Adds r { r with update := { r.update with flags := m } } ∧
      ∀ s, Run.After { r with update := { r.update with flags := m } } s ↔ r.After s ∨ s = t := by
  have hother : ∀ {b s}, added.any b = false →
      (Run.Has { r with update := { r.update with flags := m } } b s ↔ r.Has b s) :=
    Run.has_withFlags_of_ne hf ha
  have hself : ∀ {s}, Run.Has { r with update := { r.update with flags := m } } added s ↔
      r.Has added s ∨ s = t := by
    intro s
    rw [Run.has_withFlags hf ha, Bits.isBit_added.any_self]
    simp
  have hafter : ∀ s, Run.After { r with update := { r.update with flags := m } } s ↔
      r.After s ∨ s = t := fun s => by
    rw [Run.After, Run.After, hother rfl, hself, or_assoc]
    rfl
  refine ⟨?_, ⟨⟨_, _, _, _, _, _, _, rfl⟩, .refl _, fun other b _ hb => ?_,
    fun s => (hother rfl).mpr, fun s hs => hself.mpr (.inl hs), List.prefix_refl _, rfl⟩, hafter⟩
  · refine { h with
      plain := h.plain.withMarks (l := .update) hf ha rfl
      sorted := h.sorted.congr fun s => hother rfl
      later := h.later.congr fun s _ => hother rfl
      sound := fun s hs => h.sound s ((hother rfl).mp hs)
      surviving := fun s hs hup => ?_
      queued := fun s hs => ?_
      known := fun s hs hb => (hafter s).mpr (.inl (h.known s ((hother rfl).mp hs) hb))
      lower := fun s hs hb => (hafter s).mpr (.inl (h.lower s hs hb))
      before := fun s hs => h.before s ((hother rfl).mp hs)
      fresh := fun s hs hb => (hother rfl).mpr ?_
      deletions := h.deletions.congr fun s => (hother rfl).mp }
    · rcases (hafter s).mp hs with hs | rfl
      · exact h.surviving s hs hup
      · exact h.sound s hnew
    · rcases hself.mp hs with hs | rfl
      · exact ⟨(hother rfl).mpr (h.queued s hs).1, (h.queued s hs).2⟩
      · exact ⟨(hother rfl).mpr hnew, hup⟩
    · rcases hself.mp hs with hs | rfl
      · exact h.fresh s hs hb
      · exact by_contra fun hd => hno (.inl ⟨hb, hd⟩)
  · show (m.flags other).any b = (r.update.flags.flags other).any b
    rw [ha.any, hb, Bool.and_false, Bool.or_false]

end Inserting

section level

variable (hc : c.Basic rules) (hl : task.level.isSome = c.mode.usesLevels) (hU : Universe rules U N)
  (hroom : N < Marks.room) (hbudget : N < task.budget)
  (hM : ∀ a : c.rules.Instance task.level, a.Holds (· ∈ M) (· ∈ M) → ∀ t, a.Concludes t → t ∈ M)
  (hMU : M ⊆ U)

include hc hU hroom hbudget hMU

omit hbudget in
/-- A derived fact of the level is queued. -/
theorem derive_wp (depth : Nat) (h : Inserting c task U M r) (ht : t ∈ M)
    (hat : c.rules.At task.level t) :
    WP (derive c task (depth + 1) t) r fun _ r' => Inserting c task U M r' ∧ Derives r r' ∧
      r.SameCursors r' ∧ r'.Has addedNew t := by
  rw [derive, hc.equality]
  dsimp only
  rw [WP.bind_iff]
  refine Routine.reads_wp ?_
  simp only [Bool.not_false, Bool.true_or, if_true]
  rw [WP.bind_iff]
  refine Routine.rowOf_wp fun row r₁ hg hf hrows => ?_
  have hU₁ : ∀ row u, r₁.table.fact? row = some u → u ∈ U := fun row u hu => by
    rcases hrows row u hu with hu | rfl
    · exact h.facts row u hu
    · exact hMU ht
  have h₁ := h.grow hg ((hU.size_le hU₁).trans_lt hroom) hU₁
  refine Routine.mark_wp (l := .update) Bits.isBit_addedNew rfl h₁.plain hf fun isNew r₂ _ hm => ?_
  rw [WP.bind_iff]
  refine Context.announce_wp hc.stop fun journal => ?_
  simp only [Bool.false_eq_true, false_and, and_false, if_false]
  refine WP.pure_iff.mpr ⟨(h₁.mark hf hat ht hm).journal journal,
    ((Derives.grow hg h.plain).trans (.mark hm)).journal journal, ?_,
    (hm.has_self Bits.isBit_addedNew).mpr (.inr rfl)⟩
  intro w
  refine (hm.sameCursors w).trans ?_
  obtain ⟨_, rfl⟩ := hg.eq
  rfl

theorem deriveFact_wp (h : Inserting c task U M r) (ht : t ∈ M) (hat : c.rules.At task.level t) :
    WP (task.deriveFact c t) r fun _ r' => Inserting c task U M r' ∧ Derives r r' ∧
      r.SameCursors r' ∧ r'.Has addedNew t := by
  obtain ⟨depth, hdepth⟩ := Nat.exists_eq_succ_of_ne_zero (Nat.ne_zero_of_lt hbudget)
  rw [deriveFact, hdepth]
  exact derive_wp hc hU hroom hMU depth h ht hat

include hl hM

omit hU hroom hbudget hM hMU in
/-- What holds in what is there holds in `M`. -/
theorem Inserting.holds (h : Inserting c task U M r) {a : c.rules.Instance task.level}
    (ha : a.Holds r.After r.After) : a.Holds (· ∈ M) (· ∈ M) :=
  ha.mono (fun _ u hk hu => h.surviving u hu (a.upto_of_premise hc.builds hl hk))
    fun _ u hk hu => h.lower u hu (hc.below_of_blocker hl a hk)

/-- What the rules of the level derive from a fact gets queued. -/
theorem apply_wp (h : Inserting c task U M r)
    {f : Run → Role → Occurrence → RowIndex → Status → Bool}
    (hf : ∀ r', Derives r r' → ∀ role o row status, f r' role o row status = f r role o row status)
    (hnew : ∀ role o row status, r.table.fact? row = none → Standing.before status = false →
      f r role o row status = false)
    (hconf : RuleIndex.Confines ((c.view f).snapshot r) r.After r.After) {p : RuleIndex.Polarity}
    (ht : p.Allows r.After r.After t) (row : RowIndex) :
    WP (p.apply c.rules (c.view f) row t task.scope fun _ head => task.deriveFact c head) r
      fun _ r' => Inserting c task U M r' ∧ Derives r r' ∧ r.SameCursors r' ∧
        ∀ head, c.rules.Emits ((c.view f).snapshot r) (.ofLevel task.level) p t head →
          r'.Has addedNew head := by
  have hhandles := RuleIndex.apply_handles (c.view f) (n := (c.view f).snapshot r)
    (fun r' => Inserting c task U M r' ∧ Derives r r' ∧ r.SameCursors r')
    (fun head r' => r'.Has addedNew head) row (.ofLevel task.level)
    (fun _ head => task.deriveFact c head) hc.simple rfl
    (fun r' hr' => hr'.2.1.snapshot_eq hc (hf r' hr'.2.1) hnew) p (t := t) ?_
  · refine (hhandles r ⟨h, .refl r, fun _ => rfl⟩).mono ?_
    rintro _ r' ⟨⟨h', hd, hcur⟩, hdone, _⟩
    exact ⟨h', hd, hcur, hdone⟩
  · rintro rule head hemits r₁ ⟨h₁, hd₁, hcur₁⟩
    obtain ⟨a, ha, hhead⟩ := hemits.exists_holds (hc.steady_eq r) hconf ht
    have hMh : head ∈ M := hM a (h.holds hc hl ha) head hhead
    refine (deriveFact_wp hc hU hroom hbudget hMU h₁ hMh (a.at_of_concludes hc.builds hl hhead)).mono ?_
    rintro _ r₂ ⟨h₂, hd₂, hcur₂, hdone⟩
    refine ⟨⟨h₂, hd₁.trans hd₂, fun w => (hcur₂ w).trans (hcur₁ w)⟩, ?_, fun u => hd₂.has u⟩
    rintro _ rfl
    exact hdone

/-! ## Changes at lower levels -/

/-- The conclusions of every instance that holds in what is there are there or queued. -/
def Saturated (c : Context) (level : Option Nat) (r : Run) : Prop :=
  ∀ a : c.rules.Instance level, a.Holds r.After r.After →
    ∀ head, a.Concludes head → r.After head ∨ r.Has addedNew head

/-- The conclusions of every instance that holds in what is kept and added are there or queued. -/
def Supported (c : Context) (level : Option Nat) (r : Run) : Prop :=
  ∀ a : c.rules.Instance level, a.Holds r.Kept r.WithAdded →
    ∀ head, a.Concludes head → r.After head ∨ r.Has addedNew head

omit hc hl hU hroom hbudget hM hMU in
/-- What is there but was not kept is added, and was not deleted. -/
theorem Inserting.added_of_not_kept (h : Inserting c task U M r) (ht : r.After t)
    (hk : ¬ r.Kept t) : r.Has added t ∧ ¬ r.Has deleted t := by
  have hadded : r.Has added t := by
    rcases ht with ⟨hb, hd⟩ | ha
    · exact absurd ⟨hb, fun hg => hd hg.1⟩ hk
    · exact ha
  exact ⟨hadded, fun hd => hk ⟨h.before t hd, fun hg => hg.2 hadded⟩⟩

section replays

omit hl hU hroom hbudget hM hMU

/-- Where a filter is about what is present, a literal finds what is there. -/
theorem present_iff_after (hp : r.Plain) {f : Run → Role → Occurrence → RowIndex → Status → Bool}
    {role : Role} {o : Occurrence} {u : Triple}
    (hf : ∀ row status, f r role o row status = present c r row status) :
    ((c.view f).snapshot r).Present role o u ↔ r.After u := by
  refine View.present_iff.trans (Iff.trans ?_ hp.holds_after_iff)
  exact iff_of_eq (congrArg (fun p => Table.Holds _ p u) (funext fun row =>
    (hf row _).trans (present_eq hc row _)))

theorem replays_added (hp : r.Plain) :
    RuleIndex.Replays ((c.view (replayAdded c)).snapshot r) r.Kept r.WithAdded r.After where
  classes_eq := hc.steady_eq r
  before_iff _ _ := View.present_iff.trans Run.holds_kept_iff
  after_iff _ _ := present_iff_after hc hp fun _ _ => rfl
  absent_iff _ _ := present_iff_after hc hp fun _ _ => rfl
  absentBefore _ _ h := (present_iff_after hc hp fun _ _ => rfl).mpr h
  withAdded _ _ h := ((present_iff_after hc hp fun _ _ => rfl).mp h).withAdded

theorem replays_deleted (hp : r.Plain) :
    RuleIndex.Replays ((c.view (replayDeleted c)).snapshot r) r.Kept r.WithAdded r.After where
  classes_eq := hc.steady_eq r
  before_iff _ _ := View.present_iff.trans Run.holds_kept_iff
  after_iff _ _ := present_iff_after hc hp fun _ _ => rfl
  absent_iff _ _ := present_iff_after hc hp fun _ _ => rfl
  absentBefore _ _ h := View.present_iff.mpr (hp.holds_withAdded_iff.mpr h.withAdded)
  withAdded _ _ h := hp.holds_withAdded_iff.mp (View.present_iff.mp h)

theorem replayAdded_eq (h : Derives r r') (role : Role) (o : Occurrence) (row : RowIndex)
    (status : Status) : replayAdded c r' role o row status = replayAdded c r role o row status := by
  cases role <;> simp only [replayAdded, present_eq hc, h.kept_eq, h.after_eq]

theorem replayDeleted_eq (h : Derives r r') (role : Role) (o : Occurrence) (row : RowIndex)
    (status : Status) :
    replayDeleted c r' role o row status = replayDeleted c r role o row status := by
  cases role <;>
    simp only [replayDeleted, present_eq hc, h.kept_eq, h.withAdded_eq, h.after_eq]

theorem replayAdded_new (hp : r.Plain) (role : Role) (o : Occurrence) (row : RowIndex)
    (status : Status) (hn : r.table.fact? row = none) (hs : Standing.before status = false) :
    replayAdded c r role o row status = false := by
  cases role <;>
    simp only [replayAdded, present_eq hc, hp.after_eq_false hn hs, Run.kept_eq_false hs]

theorem replayDeleted_new (hp : r.Plain) (role : Role) (o : Occurrence) (row : RowIndex)
    (status : Status) (hn : r.table.fact? row = none) (hs : Standing.before status = false) :
    replayDeleted c r role o row status = false := by
  cases role <;> simp only [replayDeleted, present_eq hc, hp.after_eq_false hn hs,
    Run.kept_eq_false hs, hp.withAdded_eq_false hn hs, hs]

/-- An instance of the level that concludes `head` has gained the premise `t`, which was added. -/
def GainedBy (c : Context) (level : Option Nat) (r : Run) (t head : Triple) : Prop :=
  (r.Has added t ∧ ¬ r.Has deleted t) ∧
    c.rules.Emits ((c.view (replayAdded c)).snapshot r) (.ofLevel level) .positive t head

/-- An instance of the level that concludes `head` is not blocked by `t` any more, which is gone. -/
def FreedBy (c : Context) (level : Option Nat) (r : Run) (t head : Triple) : Prop :=
  r.Gone t ∧ c.rules.Emits ((c.view (replayDeleted c)).snapshot r) (.ofLevel level) .negative t head

theorem gainedBy_iff {level : Option Nat} {head : Triple} (hp : r.Plain) (hd : Derives r r') :
    GainedBy c level r' t head ↔ GainedBy c level r t head := by
  rw [GainedBy, GainedBy, (hd.alike hp).added_iff, (hd.alike hp).deleted_iff,
    hd.snapshot_eq hc (replayAdded_eq hc hd) (replayAdded_new hc hp)]

theorem freedBy_iff {level : Option Nat} {head : Triple} (hp : r.Plain) (hd : Derives r r') :
    FreedBy c level r' t head ↔ FreedBy c level r t head := by
  rw [FreedBy, FreedBy, (hd.alike hp).gone_iff,
    hd.snapshot_eq hc (replayDeleted_eq hc hd) (replayDeleted_new hc hp)]

/-- What comes of instances that hold now is there or queued, if what gained a premise and what is not
blocked any more is queued. -/
theorem Saturated.of_replayed (h : Inserting c task U M r) (hd : Derives r r')
    (hsup : Supported c task.level r)
    (hgained : ∀ t head, GainedBy c task.level r t head → r'.Has addedNew head)
    (hfreed : ∀ (a : c.rules.Instance task.level) k t head, a.Blocker k t →
      FreedBy c task.level r t head → r'.Has addedNew head) : Saturated c task.level r' := by
  intro a ha head hhead
  have ha := hd.holds_after h.plain ha
  by_cases hkept : a.Holds r.Kept r.WithAdded
  · exact (hsup a hkept head hhead).imp (hd.alike h.plain).after_iff.mpr (hd.has head)
  · rcases a.exists_emits (replays_added hc h.plain) (replays_deleted hc h.plain) ha hkept hhead with
      ⟨k, u, _, hu, hk, hemits⟩ | ⟨k, u, hblock, hu, hw, hemits⟩
    · exact .inr (hgained u head ⟨h.added_of_not_kept hu hk, hemits⟩)
    · exact .inr (hfreed a k u head hblock ⟨hw.gone hu, hemits⟩)

end replays

/-- What the rules of the level derive from an added fact gets queued. -/
theorem replayAddition_wp {row : Nat} (h : Inserting c task U M r)
    (hf : r.table.fact? row = some t) :
    WP (task.replayAddition c row) r fun _ r' => Inserting c task U M r' ∧ Derives r r' ∧
      r.SameCursors r' ∧ ∀ head, GainedBy c task.level r t head → r'.Has addedNew head := by
  have hflags : (r.flags row).only (added ||| addedMerged ||| deleted) added = true ↔
      r.Has added t ∧ ¬ r.Has deleted t := by
    rw [Standing.only_added_of_deleted, h.plain.addedMerged, Run.has_iff hf, Run.has_iff hf]
    simp
  rw [replayAddition, WP.bind_iff]
  refine Routine.reads_wp ?_
  by_cases ha : r.Has added t ∧ ¬ r.Has deleted t
  · rw [if_pos (hflags.mpr ha), WP.bind_iff]
    refine Routine.factOf_wp hf ?_
    refine (apply_wp hc hl hU hroom hbudget hM hMU h (fun r' => replayAdded_eq hc)
      (replayAdded_new hc h.plain) ((replays_added hc h.plain).confines fun _ => Run.Kept.after)
      (p := .positive) (.inr ha.1) row).mono ?_
    rintro _ r' ⟨h', hd, hcur, hdone⟩
    exact ⟨h', hd, hcur, fun head hh => hdone head hh.2⟩
  · rw [if_neg (mt hflags.mp ha)]
    exact WP.pure_iff.mpr ⟨h, .refl r, fun _ => rfl, fun _ hh => absurd hh.1 ha⟩

/-- What the rules of the level derive because a fact is gone gets queued. -/
theorem replayDeletion_wp {row : Nat} (h : Inserting c task U M r)
    (hf : r.table.fact? row = some t) :
    WP (task.replayDeletion c row) r fun _ r' => Inserting c task U M r' ∧ Derives r r' ∧
      r.SameCursors r' ∧ ∀ head, FreedBy c task.level r t head → r'.Has addedNew head := by
  have hflags : (r.flags row).only (added ||| addedMerged ||| deleted) deleted = true ↔
      r.Gone t := by
    rw [Standing.only_deleted_not_added, h.plain.addedMerged, Run.Gone, Run.has_iff hf,
      Run.has_iff hf]
    simp
  rw [replayDeletion, WP.bind_iff]
  refine Routine.reads_wp ?_
  by_cases hg : r.Gone t
  · have hno : ¬ r.After t := fun ha => ha.elim (fun hb => hb.2 hg.1) hg.2
    rw [if_pos (hflags.mpr hg), WP.bind_iff]
    refine Routine.factOf_wp hf ?_
    refine (apply_wp hc hl hU hroom hbudget hM hMU h (fun r' => replayDeleted_eq hc)
      (replayDeleted_new hc h.plain)
      ((replays_deleted hc h.plain).confines fun _ => Run.Kept.after) (p := .negative) hno row).mono ?_
    rintro _ r' ⟨h', hd, hcur, hdone⟩
    exact ⟨h', hd, hcur, fun head hh => hdone head hh.2⟩
  · rw [if_neg (mt hflags.mp hg)]
    exact WP.pure_iff.mpr ⟨h, .refl r, fun _ => rfl, fun _ hh => absurd hh.1 hg⟩

omit hc hl hroom hM hMU in
/-- A queue is gone through: what is due for each of its facts is queued. -/
theorem drain_wp {w : WorkList} (hw : w ≠ .proved) {live : Nat → Prop} {next : Routine RowIndex}
    (hnext : Routine.Takes w live next)
    (hlive : ∀ place place', live place' → place < place' → live place)
    {handle : RowIndex → Routine Unit} (Due : Triple → Triple → Prop)
    (hhandle : ∀ r' (row : Nat) t, Inserting c task U M r' → Derives r r' →
      r'.table.fact? row = some t → WP (handle row) r' fun _ r'' => Inserting c task U M r'' ∧
        Derives r' r'' ∧ r'.SameCursors r'' ∧ ∀ head, Due t head → r''.Has addedNew head)
    (h : Inserting c task U M r) (hstart : (r.update.queue w).cursor = 0) :
    WP (Routine.drain next (fun row _ => handle row) task.budget ()) r fun _ r' =>
      Inserting c task U M r' ∧ Derives r r' ∧
      (∀ w', w' ≠ w → (r'.update.queue w').cursor = (r.update.queue w').cursor) ∧
      (live (r'.update.queue w).cursor → (r'.listed w).length ≤ (r'.update.queue w).cursor) ∧
      (∀ place, place < (r'.update.queue w).cursor → live place) ∧
      ∀ (place row : Nat) t, live place → (r'.listed w)[place]? = some row →
        r.table.fact? row = some t → ∀ head, Due t head → r'.Has addedNew head := by
  refine (Routine.workOff_wp live (N := N) 0 hnext
    (fun _ r' => Inserting c task U M r' ∧ Derives r r' ∧
      ∀ w', w' ≠ w → (r'.update.queue w').cursor = (r.update.queue w').cursor)
    (fun row r' => ∀ t, r.table.fact? row = some t → ∀ head, Due t head → r'.Has addedNew head)
    (fun _ r' hr' => hr'.1.plain.running) (fun _ r' hr' => ?_) (fun _ r' cursor polls hr' => ?_)
    (fun _ r' place row hr' _ _ hrow => ?_) hlive task.budget hbudget ⟨h, .refl r, fun _ _ => rfl⟩
    hstart).mono ?_
  · obtain ⟨S, hlists⟩ := hr'.1.exists_lists hw
    exact ⟨hlists.length_le.trans (hU.size_le hr'.1.facts), fun row hrow => hlists.pos hrow⟩
  · have hd := Derives.moved r' hw cursor polls
    refine ⟨⟨hr'.1.moved hw cursor polls, hr'.2.1.trans hd, fun w' hw' => ?_⟩,
      fun row hj t hf head hdue => hd.has head (hj t hf head hdue)⟩
    rw [Run.queue_moved_of_ne hw']
    exact hr'.2.2 w' hw'
  · obtain ⟨h', hd, hcur⟩ := hr'
    obtain ⟨S, hlists⟩ := h'.exists_lists hw
    obtain ⟨t, hf, -⟩ := (hlists.mem_iff row).mp (List.mem_of_getElem? hrow)
    refine (hhandle r' row t h' hd hf).mono ?_
    rintro _ r'' ⟨h'', hd', hcur', hdone⟩
    refine ⟨⟨h'', hd.trans hd', fun w' hw' => (hcur' w').trans (hcur w' hw')⟩, hcur' w,
      hd'.listed_prefix hw, fun s hs head hdue => ?_,
      fun other _ hj s hs head hdue => hd'.has head (hj s hs head hdue)⟩
    have hs := hd.table.rows.fact? hs
    rw [hf] at hs
    cases hs
    exact hdone head hdue
  · rintro _ r' ⟨⟨h', hd, hcur⟩, hj, hend, -, hlive'⟩
    exact ⟨h', hd, hcur, hend, fun place hlt => (hlive' place (Nat.zero_le _) hlt).1,
      fun place row t hl hrow hf => hj place row (Nat.zero_le _) hl hrow t hf⟩

/-- What gained a premise at a lower level is queued. -/
theorem replayAdditions_wp (h : Inserting c task U M r) (hstart : r.update.added.cursor = 0)
    (hlower : ∀ t, r.Has added t → c.rules.Below task.level t) :
    WP (Routine.drain (c.whileRunning (Routine.dequeueBefore .added task.lowerEnd))
      (fun row _ => task.replayAddition c row) task.budget ()) r fun _ r' => Inserting c task U M r' ∧
        Derives r r' ∧ r'.update.added.cursor = task.lowerEnd ∧
        r'.update.deleted.cursor = r.update.deleted.cursor ∧
        ∀ t head, GainedBy c task.level r t head → r'.Has addedNew head := by
  refine (drain_wp hU hbudget (w := .added) (by decide)
    ((Routine.takes_dequeueBefore task.lowerEnd).whileRunning hc.stop)
    (fun place place' h₁ h₂ => h₂.trans h₁) (GainedBy c task.level r) (fun r' row t h' hd hf => ?_)
    h hstart).mono ?_
  · refine (replayAddition_wp hc hl hU hroom hbudget hM hMU h' hf).mono ?_
    rintro _ r'' ⟨h'', hd', hcur, hdone⟩
    exact ⟨h'', hd', hcur, fun head hdue => hdone head ((gainedBy_iff hc h.plain hd).mpr hdue)⟩
  · rintro _ r' ⟨h', hd, hcur, hend, hlive, hdue⟩
    refine ⟨h', hd, ?_, hcur .deleted (by decide), fun t head hgained => ?_⟩
    · have hle := h'.lowerEnd
      have hplace := hlive task.lowerEnd
      dsimp only [Run.listed, Update.queue] at hle hend hplace
      omega
    · -- an added fact was queued by a lower level
      obtain ⟨row, hf⟩ := hgained.1.1.mem
      obtain ⟨place, hlt, hplace⟩ := h.sorted.exists_below (h.queued t hgained.1.1).1
        (hlower t hgained.1.1) hf
      obtain ⟨more, hmore⟩ := hd.listed
      refine hdue place row t hlt ?_ hf head hgained
      rw [← hmore, List.getElem?_append_left (List.getElem?_eq_some_iff.mp hplace).1]
      exact hplace

/-- What is not blocked any more after a deletion at a lower level is queued. -/
theorem replayDeletions_wp (h : Inserting c task U M r) (hstart : r.update.deleted.cursor = 0) :
    WP (Routine.drain (c.whileRunning (Routine.dequeue .deleted))
      (fun row _ => task.replayDeletion c row) task.budget ()) r fun _ r' => Inserting c task U M r' ∧
        Derives r r' ∧ r'.update.added.cursor = r.update.added.cursor ∧
        ∀ t head, FreedBy c task.level r t head → r'.Has addedNew head := by
  refine (drain_wp hU hbudget (w := .deleted) (by decide) (Routine.takes_dequeue.whileRunning hc.stop)
    (fun _ _ _ _ => trivial) (FreedBy c task.level r) (fun r' row t h' hd hf => ?_) h hstart).mono ?_
  · refine (replayDeletion_wp hc hl hU hroom hbudget hM hMU h' hf).mono ?_
    rintro _ r'' ⟨h'', hd', hcur, hdone⟩
    exact ⟨h'', hd', hcur, fun head hdue => hdone head ((freedBy_iff hc h.plain hd).mpr hdue)⟩
  · rintro _ r' ⟨h', hd, hcur, -, -, hdue⟩
    refine ⟨h', hd, hcur .added (by decide), fun t head hfreed => ?_⟩
    obtain ⟨row, hf⟩ := hfreed.1.1.mem
    obtain ⟨place, hplace⟩ := List.mem_iff_getElem?.mp (h.deletions.mem row t hf hfreed.1.1)
    exact hdue place row t trivial (by rwa [hd.listed_deleted]) hf head hfreed

/-- The consequences of changes at lower levels are queued. -/
theorem replay_wp (h : Inserting c task U M r) (hstart : r.update.added.cursor = 0)
    (hdeleted : c.rules.hasNegation task.scope = true → r.update.deleted.cursor = 0)
    (hlower : ∀ t, r.Has added t → c.rules.Below task.level t)
    (hsup : Supported c task.level r) :
    WP (task.replay c) r fun _ r' => Inserting c task U M r' ∧ Derives r r' ∧
      r'.update.added.cursor = task.lowerEnd ∧ Saturated c task.level r' := by
  rw [replay, WP.bind_iff]
  refine (replayAdditions_wp hc hl hU hroom hbudget hM hMU h hstart hlower).mono ?_
  rintro _ r₁ ⟨h₁, hd₁, hcursor, hcur₁, hgained⟩
  cases hneg : c.rules.hasNegation task.scope with
  | false =>
    refine WP.pure_iff.mpr ⟨h₁, hd₁, hcursor, .of_replayed hc h hd₁ hsup hgained fun a k t head hk _ => ?_⟩
    have := a.hasNegation_of_blocker hk
    rw [show c.rules.hasNegation (.ofLevel task.level) = false from hneg] at this
    cases this
  | true =>
    simp only [if_true]
    refine (replayDeletions_wp hc hl hU hroom hbudget hM hMU h₁ (hcur₁.trans (hdeleted hneg))).mono ?_
    rintro _ r₂ ⟨h₂, hd₂, hcur₂, hfreed⟩
    exact ⟨h₂, hd₁.trans hd₂, hcur₂.trans hcursor, .of_replayed hc h (hd₁.trans hd₂) hsup
      (fun t head ht => hd₂.has head (hgained t head ht))
      fun a k t head _ ht => hfreed t head ((freedBy_iff hc h.plain hd₁).mpr ht)⟩

/-! ## Adding queued facts -/

/-- What follows from a fact that was just added is queued. -/
theorem propagate_wp {row : Nat} (h : Inserting c task U M r) (hf : r.table.fact? row = some t)
    (ht : r.After t) (hat : c.rules.At task.level t)
    (hsat : ∀ a : c.rules.Instance task.level, a.Holds (fun u => r.After u ∧ u ≠ t) r.After →
      ∀ head, a.Concludes head → r.After head ∨ r.Has addedNew head) :
    WP (task.propagate c row t) r fun _ r' => Inserting c task U M r' ∧ Derives r r' ∧
      r.SameCursors r' ∧ Saturated c task.level r' := by
  rw [propagate, hc.equality]
  simp only [Bool.false_eq_true, if_false]
  cases hrec : c.rules.hasRecursive task.scope with
  | false =>
    refine WP.pure_iff.mpr ⟨h, .refl r, fun _ => rfl, fun a ha head hhead => hsat a
      ⟨fun k u hk => ⟨ha.premises k u hk, ?_⟩, ha.blockers⟩ head hhead⟩
    rintro rfl
    have := a.hasRecursive_of_at hc.builds hl hk hat
    rw [show c.rules.hasRecursive (.ofLevel task.level) = false from hrec] at this
    cases this
  | true =>
    simp only [if_true]
    have hpresent : ∀ {role : Role} {o : Occurrence} {u : Triple}, role ≠ .positiveBeforePivot →
        (((c.view (additionFilter c row)).snapshot r).Present role o u ↔ r.After u) :=
      fun hrole => present_iff_after hc h.plain fun _ _ => by
        rw [additionFilter]
        exact hrole
    have hconf : RuleIndex.Confines ((c.view (additionFilter c row)).snapshot r) r.After
        r.After := by
      refine ⟨fun hu => ?_, (hpresent (by decide)).mp, fun _ _ => (hpresent (by decide)).mpr,
        fun _ _ => (hpresent (by decide)).mpr⟩
      obtain ⟨other, ho, hk⟩ := View.present_iff.mp hu
      exact (h.plain.after_iff ho).mp
        ((present_eq hc ..).symm.trans (Bool.and_eq_true_iff.mp hk).2)
    refine (apply_wp hc hl hU hroom hbudget hM hMU h (f := additionFilter c row)
      (fun r' hd role o other status => ?_) (fun role o other status hn hs => ?_) hconf
      (p := .positive) ht row).mono ?_
    · cases role <;> simp only [additionFilter, present_eq hc, hd.after_eq]
    · cases role <;> simp only [additionFilter, present_eq hc, h.plain.after_eq_false hn hs,
        Bool.and_false]
    · rintro _ r' ⟨h', hd, hcur, hdone⟩
      refine ⟨h', hd, hcur, fun a ha head hhead => ?_⟩
      have ha := hd.holds_after h.plain ha
      by_cases hpivot : ∃ k, a.Premise k t
      · obtain ⟨k, hk⟩ := hpivot
        refine .inr (hdone head (a.emits_of_premise (P := fun _ => True) (hc.steady_eq r) hk trivial
          (fun i w hw hne => ?_) (fun i w hw => (hpresent (by decide)).mpr (ha.premises i w hw))
          (fun i w hw hp => ha.blockers i w hw ((hpresent (by decide)).mp hp)) hhead))
        obtain ⟨other, ho⟩ := (ha.premises i w hw).mem
        exact View.present_iff.mpr ⟨other, ho, Bool.and_eq_true_iff.mpr
          ⟨bne_iff_ne.mpr (Table.row_ne hf ho fun he => hne ⟨trivial, he⟩),
            (present_eq hc ..).trans ((h.plain.after_iff ho).mpr (ha.premises i w hw))⟩⟩
      · refine (hsat a ⟨fun k u hk => ⟨ha.premises k u hk, ?_⟩, ha.blockers⟩ head hhead).imp
          (hd.alike h.plain).after_iff.mpr (hd.has head)
        rintro rfl
        exact hpivot ⟨k, hk⟩

/-- A queued fact is there once it was considered. -/
theorem consider_wp {row : Nat} (h : Inserting c task U M r) (hsat : Saturated c task.level r)
    (hf : r.table.fact? row = some t) (hnew : r.Has addedNew t) (hup : c.rules.Upto task.level t)
    (count : Nat) :
    WP (task.consider c row count) r fun _ r' => Inserting c task U M r' ∧
      Saturated c task.level r' ∧ Adds r r' ∧ r'.update.added.cursor = r.update.added.cursor ∧
      r'.After t ∧ ∀ s, r.After s → r'.After s := by
  rw [consider, WP.bind_iff]
  refine Routine.reads_wp ?_
  rw [Table.row?, hf]
  dsimp only [Option.map_some]
  rw [WP.bind_iff]
  refine Routine.reads_wp ?_
  rw [present_eq hc]
  by_cases hafter : r.After t
  · rw [(h.plain.after_iff hf).mpr hafter, if_pos rfl]
    exact WP.pure_iff.mpr ⟨h, hsat, (Derives.refl r).toAdds, rfl, hafter, fun _ => id⟩
  · have hat : c.rules.At task.level t := hup.resolve_left fun hb => hafter (h.known t hnew hb)
    rw [if_neg (mt (h.plain.after_iff hf).mp hafter), add, WP.bind_iff]
    refine Routine.reads_wp ?_
    rw [hc.steady_eq]
    simp only [ne_eq, not_true_eq_false, if_false]
    rw [addNormal, WP.bind_iff]
    refine Routine.addFlags_wp Bits.isBit_added (h.plain.row_lt hf) fun m ha => ?_
    obtain ⟨h₁, hadds, hafter₁⟩ := h.setAdded hf hnew hup hafter ha
    -- what follows the announcement
    have hrest : ∀ (journal : Array Entry) (n : Nat), WP (do
        task.propagate c row t
        pure n)
        { r with journal, update := { r.update with flags := m } } fun _ r' =>
          Inserting c task U M r' ∧ Saturated c task.level r' ∧ Adds r r' ∧
          r'.update.added.cursor = r.update.added.cursor ∧ r'.After t ∧
          ∀ s, r.After s → r'.After s := by
      intro journal n
      rw [WP.bind_iff]
      refine (propagate_wp hc hl hU hroom hbudget hM hMU (h₁.journal journal) hf
        ((hafter₁ t).mpr (.inr rfl)) hat fun a ha₁ head hhead => ?_).mono ?_
      · exact (hsat a (ha₁.mono (fun _ u _ hu => ((hafter₁ u).mp hu.1).resolve_right hu.2)
          fun _ u _ hu => (hafter₁ u).mpr (.inl hu)) head hhead).imp
            (fun hh => (hafter₁ head).mpr (.inl hh)) (hadds.has head)
      · rintro _ r' ⟨h', hd, hcur, hsat'⟩
        refine WP.pure_iff.mpr ⟨h', hsat', (hadds.journal journal).trans hd.toAdds, hcur .added, ?_,
          fun s hs => ?_⟩
        · exact (hd.alike (h₁.journal journal).plain).after_iff.mpr ((hafter₁ t).mpr (.inr rfl))
        · exact (hd.alike (h₁.journal journal).plain).after_iff.mpr ((hafter₁ s).mpr (.inl hs))
    rw [hc.equality]
    simp only [Bool.false_eq_true, false_and, if_false]
    split
    · rw [WP.bind_iff]
      exact Context.announce_wp hc.stop fun journal => hrest journal _
    · exact hrest r.journal _

/-- The work list is worked off from a place behind which all facts are of the level. -/
theorem addQueued_wp (h : Inserting c task U M r) (hsat : Saturated c task.level r)
    (hle : r.update.added.cursor ≤ task.lowerEnd) :
    WP (Routine.drain (c.whileRunning (Routine.dequeue .added)) (task.consider c) task.budget 0) r
      fun _ r' => Inserting c task U M r' ∧ Adds r r' ∧ Saturated c task.level r' ∧
        ∀ t, r'.Has addedNew t → c.rules.Upto task.level t → r'.After t := by
  refine (Routine.workOff_wp (w := .added) (fun _ => True) (N := N) r.update.added.cursor
    (Routine.takes_dequeue.whileRunning hc.stop)
    (fun _ r' => Inserting c task U M r' ∧ Adds r r' ∧ Saturated c task.level r')
    (fun row r' => ∀ t, r'.table.fact? row = some t → r'.After t)
    (fun _ r' hr' => hr'.1.plain.running) (fun _ r' hr' => ?_) (fun _ r' cursor polls hr' => ?_)
    (fun count r' place row hr' _ _ hrow => ?_) (fun _ _ _ _ => trivial) task.budget hbudget
    ⟨h, (Derives.refl r).toAdds, hsat⟩ rfl).mono ?_
  · exact ⟨hr'.1.sorted.lists.length_le.trans (hU.size_le hr'.1.facts),
      fun row hrow => hr'.1.sorted.lists.pos hrow⟩
  · obtain ⟨h', hadds', hsat'⟩ := hr'
    exact ⟨⟨h'.moved (w := .added) (by decide) cursor polls, hadds'.trans
      (Derives.moved r' (w := .added) (by decide) cursor polls).toAdds, hsat'⟩, fun row hj => hj⟩
  · obtain ⟨h', hadds', hsat'⟩ := hr'
    obtain ⟨t, hf, hnew, hup⟩ := (h'.sorted.lists.mem_iff row).mp (List.mem_of_getElem? hrow)
    refine (consider_wp hc hl hU hroom hbudget hM hMU h' hsat' hf hnew hup count).mono ?_
    rintro _ r'' ⟨h'', hsat'', hadds'', hcur', ht, hkeep⟩
    refine ⟨⟨h'', hadds'.trans hadds'', hsat''⟩, hcur', hadds''.listed, fun s hs => ?_,
      fun other hother hj s hs => ?_⟩
    · rw [hadds''.table.rows.fact? hf] at hs
      cases hs
      exact ht
    · obtain ⟨u, hu, -⟩ := (h'.sorted.lists.mem_iff other).mp hother
      rw [hadds''.table.rows.fact? hu] at hs
      cases hs
      exact hkeep s (hj s hu)
  · rintro count r' ⟨⟨h', hadds', hsat'⟩, hj, -, -, -⟩
    refine ⟨h', hadds', hsat', fun t hnew hup => ?_⟩
    rcases hup with hb | hat
    · exact h'.known t hnew hb
    · obtain ⟨row, hf⟩ := hnew.mem
      obtain ⟨place, hplace, hrow⟩ := h'.sorted.exists_at hnew hat hf
      exact hj place row (hle.trans hplace) trivial hrow t hf

omit hU hroom hbudget hM hMU in
/-- Without a replay no rule reads what has changed at lower levels. -/
theorem Saturated.of_not_replays (h : Inserting c task U M r) (hreads : c.readsLower task.level = false)
    (hlower : ∀ t, r.Has added t → c.rules.Below task.level t) (hsup : Supported c task.level r) :
    Saturated c task.level r := by
  intro a ha head hhead
  have hbelow := fun u => Context.not_below_of_readsLower hreads a (u := u)
  refine hsup a ⟨fun k u hk => by_contra fun hu => ?_, fun k u hk _ => ?_⟩ head hhead
  · exact hbelow u (hlower u (h.added_of_not_kept (ha.premises k u hk) hu).1)
  · exact hbelow u (hc.below_of_blocker hl a hk)

/-- Every queued fact is there in the end, and so is what follows from what is there. -/
theorem addAll_wp (h : Inserting c task U M r) (hreplays : task.replays = c.readsLower task.level)
    (hstart : r.update.added.cursor = 0)
    (hdeleted : c.rules.hasNegation task.scope = true → r.update.deleted.cursor = 0)
    (hlower : ∀ t, r.Has added t → c.rules.Below task.level t) (hsup : Supported c task.level r) :
    WP (task.addAll c) r fun _ r' => Inserting c task U M r' ∧ Adds r r' ∧
      Saturated c task.level r' ∧
      ∀ t, r'.Has addedNew t → c.rules.Upto task.level t → r'.After t := by
  -- what is left to do after a replay, or without one
  have hrest : ∀ {r₁ : Run}, Inserting c task U M r₁ → Adds r r₁ → Saturated c task.level r₁ →
      r₁.update.added.cursor ≤ task.lowerEnd →
      WP (do
        c.announce .insertionRecursiveStarted
        let count ← Routine.drain (c.whileRunning (Routine.dequeue .added)) (task.consider c)
          task.budget 0
        c.announce .insertionFinished
        pure count) r₁ fun _ r' => Inserting c task U M r' ∧ Adds r r' ∧
          Saturated c task.level r' ∧
          ∀ t, r'.Has addedNew t → c.rules.Upto task.level t → r'.After t := by
    intro r₁ h₁ hadds₁ hsat₁ hle
    rw [WP.bind_iff]
    refine Context.announce_wp hc.stop fun journal => ?_
    rw [WP.bind_iff]
    refine (addQueued_wp hc hl hU hroom hbudget hM hMU (h₁.journal journal) hsat₁ hle).mono ?_
    rintro count r' ⟨h', hadds', hsat', hdone⟩
    rw [WP.bind_iff]
    exact Context.announce_wp hc.stop fun journal' => WP.pure_iff.mpr ⟨h'.journal journal',
      ((hadds₁.journal journal).trans hadds').journal journal', hsat', hdone⟩
  rw [addAll, WP.bind_iff]
  refine Context.announce_wp hc.stop fun journal => ?_
  have hframe : Adds r { r with journal } := (Derives.refl r).toAdds.journal journal
  cases hr : task.replays with
  | false =>
    simp only [Bool.false_eq_true, if_false]
    exact hrest (h.journal journal) hframe (.of_not_replays hc hl (h.journal journal)
      (hreplays.symm.trans hr) hlower hsup) (hstart.trans_le (Nat.zero_le _))
  | true =>
    simp only [if_true]
    rw [WP.bind_iff]
    refine (replay_wp hc hl hU hroom hbudget hM hMU (h.journal journal) hstart hdeleted hlower
      hsup).mono ?_
    rintro _ r₁ ⟨h₁, hd₁, hcur₁, hsat₁⟩
    exact hrest h₁ (hframe.trans hd₁.toAdds) hsat₁ hcur₁.le

end level

/-! ## A level -/

/-- What holds before the facts of a level are added. -/
structure Ready (c : Context) (level : Option Nat) (addedEnd : Nat) (U M : Set Triple) (r : Run) :
    Prop where
  plain : r.Plain
  facts (row : Nat) (t : Triple) (h : r.table.fact? row = some t) : t ∈ U
  awaits : r.Awaits c.rules .added r.update.initiallyAdded (r.Has addedNew) level addedEnd
  ends : Update.endBefore r.update.addedEnds level = .ok addedEnd
  sound (t : Triple) (h : r.Has addedNew t) : t ∈ M
  surviving (t : Triple) (h : r.After t) (hup : c.rules.Upto level t) : t ∈ M
  queued (t : Triple) (h : r.Has added t) : r.Has addedNew t ∧ c.rules.Below level t
  known (t : Triple) (h : r.Has addedNew t) (hb : c.rules.Below level t) : r.After t
  lower (t : Triple) (h : t ∈ M) (hb : c.rules.Below level t) : r.After t
  before (t : Triple) (h : r.Has deleted t) : r.Before t
  fresh (t : Triple) (h : r.Has added t) (hb : r.Before t) : r.Has deleted t
  deletions : Includes r.table (r.Has deleted) (r.listed .deleted)
  supported : Supported c level r

variable {level : Option Nat} {addedEnd : Nat}

theorem Ready.start {V : Set Triple} {q q' : Queue} (h : Ready c level addedEnd U M r)
    (reflexivity : Reflexivity) (hlevel : task.level = level)
    (hlower : task.lowerEnd = addedEnd) (hU : ∀ row t, r.table.fact? row = some t → t ∈ V)
    (hq : q.values.toList = r.listed .added ++ pending r.update.initiallyAdded level)
    (hq' : q'.values.toList = r.listed .deleted) :
    Inserting c task V M
      { r with reflexivity, update := { r.update with added := q, deleted := q' } } := by
  subst hlevel hlower
  refine ⟨{ h.plain with }, hU, ?_, h.awaits.later, ?_, h.sound, h.surviving, fun t ht =>
    ⟨(h.queued t ht).1, .inl (h.queued t ht).2⟩, h.known, h.lower, h.before, h.fresh, ?_⟩
  · show Sorted r.table c.rules (r.Has addedNew) task.level task.lowerEnd q.values.toList
    rw [hq]
    exact h.awaits.sorted
  · have := h.awaits.lowerEnd_le
    show task.lowerEnd ≤ q.values.toList.length
    rw [hq, List.length_append]
    omega
  · show Includes r.table (r.Has deleted) q'.values.toList
    rw [hq']
    exact h.deletions

/-- What a level begins with: its queue is taken over and is read from its beginning. -/
structure Starts (c : Context) (level : Option Nat) (addedEnd : Nat) (r : Run)
    (task : InsertionTask) (r' : Run) : Prop where
  level_eq : task.level = level
  lowerEnd_eq : task.lowerEnd = addedEnd
  replays : task.replays = c.readsLower level
  budget : c.factBound r < task.budget
  queues : ∃ reflexivity q q', r' = { r with
      reflexivity, update := { r.update with added := q, deleted := q' } } ∧
    q.values.toList = r.listed .added ++ pending r.update.initiallyAdded level ∧ q.cursor = 0 ∧
    q'.values.toList = r.listed .deleted ∧
    (c.rules.hasNegation (.ofLevel level) = true → q'.cursor = 0)

/-- The queue of a level is taken over. -/
theorem start_wp (h : Ready c level addedEnd U M r) :
    WP (start c level) r (Starts c level addedEnd r) := by
  -- the work list once the queue of the level is behind it
  have hrest : ∀ q : Queue,
      q.values.toList = r.listed .added ++ pending r.update.initiallyAdded level →
      WP (do
        Routine.seek .added 0
        if c.rules.hasNegation (.ofLevel level) then Routine.seek .deleted 0
        let lowerEnd ← Routine.endBefore (fun r => r.update.addedEnds) level
        modify fun r => { r with reflexivity := .new c.dictionary.size 1 }
        let budget ← Routine.reads c.budget
        pure { level, lowerEnd, replays := c.readsLower level, budget } : Routine InsertionTask)
        { r with update := { r.update with added := q } } (Starts c level addedEnd r) := by
    intro q hq
    rw [WP.bind_iff, Routine.seek, WP.modify_iff]
    cases hneg : c.rules.hasNegation (.ofLevel level) with
    | false =>
      simp only [Bool.false_eq_true, if_false]
      refine WP.bind_iff.mpr (Routine.endBefore_wp h.ends ?_)
      rw [WP.bind_iff, WP.modify_iff, WP.bind_iff]
      refine Routine.reads_wp (WP.pure_iff.mpr ⟨rfl, rfl, rfl, ?_, _, q.seek 0, r.update.deleted, rfl, hq,
        rfl, rfl, fun hh => ?_⟩)
      · exact Context.factBound_lt_budget rfl
      · rw [hneg] at hh
        cases hh
    | true =>
      simp only [if_true]
      rw [WP.bind_iff, Routine.seek, WP.modify_iff]
      refine WP.bind_iff.mpr (Routine.endBefore_wp h.ends ?_)
      rw [WP.bind_iff, WP.modify_iff, WP.bind_iff]
      refine Routine.reads_wp (WP.pure_iff.mpr ⟨rfl, rfl, rfl, ?_, _, q.seek 0,
        r.update.deleted.seek 0, rfl, hq, rfl, rfl, fun _ => rfl⟩)
      exact Context.factBound_lt_budget rfl
  unfold start
  cases level with
  | none => exact hrest r.update.added (by simp [pending, Run.listed, Update.queue])
  | some l =>
    obtain ⟨other, hother, hcursor⟩ := h.awaits.seeded l rfl
    have hpending : pending r.update.initiallyAdded (some l) = other.values.toList := by
      rw [pending, hother]
      rfl
    dsimp only
    rw [WP.bind_iff]
    refine Routine.demand_wp hother ?_
    rw [WP.bind_iff]
    refine Routine.append_wp hcursor (fun row hrow => ?_) fun q hq => ?_
    · exact h.awaits.sorted.lists.pos (List.mem_append_right _ (hpending ▸ hrow))
    · exact hrest q (hpending ▸ hq)

/-- What a level adds: in the end every queued fact is there, and so is what follows from what is
there. -/
structure Filled (c : Context) (task : InsertionTask) (U M : Set Triple) (r r' : Run) : Prop where
  inserting : Inserting c task U M r'
  adds : Adds r r'
  saturated : Saturated c task.level r'
  complete (t : Triple) (h : r'.Has addedNew t) (hup : c.rules.Upto task.level t) : r'.After t

end InsertionTask

open InsertionTask in
/-- The facts of a level are added. -/
theorem insert_wp {c : Context} {rules : List Rule} {level : Option Nat} {addedEnd N : Nat}
    {U M : Set Triple} {r : Run} (hc : c.Basic rules) (hl : level.isSome = c.mode.usesLevels)
    (hU : Universe rules U N) (hroom : N < Marks.room)
    (hM : ∀ a : c.rules.Instance level, a.Holds (· ∈ M) (· ∈ M) → ∀ t, a.Concludes t → t ∈ M)
    (hMU : M ⊆ leastModel rules {t | ∃ row, r.table.fact? row = some t})
    (h : Ready c level addedEnd U M r) :
    WP (insert c level) r fun _ r' => ∃ task : InsertionTask, task.level = level ∧
      task.lowerEnd = addedEnd ∧ Filled c task U M r r' := by
  -- the facts that the level can come across
  have hsub : leastModel rules {t | ∃ row, r.table.fact? row = some t} ⊆ U :=
    leastModel_subset (fun t ⟨row, hf⟩ => h.facts row t hf) hU.closes
  have hU₀ := hU.mono (Context.universe_factBound hc.builds hc.safe r) hsub
  rw [insert, WP.bind_iff]
  refine (start_wp h).mono ?_
  rintro task r₁ ⟨rfl, rfl, hreplays, hbudget, reflexivity, q, q', rfl, hq, hcur, hq', hcur'⟩
  have h₁ := h.start (V := leastModel rules {t | ∃ row, r.table.fact? row = some t}) reflexivity
    rfl rfl (fun row t hf => subset_leastModel ⟨row, hf⟩) hq hq'
  have hadds : Adds r
      { r with reflexivity, update := { r.update with added := q, deleted := q' } } := by
    refine ⟨⟨_, _, _, _, _, _, _, rfl⟩, .refl _, fun _ _ _ _ => rfl, fun _ => id, fun _ => id, ?_,
      hq'⟩
    show r.listed .added <+: q.values.toList
    rw [hq]
    exact List.prefix_append _ _
  dsimp only
  rw [WP.bind_iff]
  refine Context.announce_wp hc.stop fun journal => ?_
  rw [WP.bind_iff]
  refine Routine.orStop_wp ((addAll_wp hc hl hU₀ ((min_le_left _ _).trans_lt hroom)
    ((min_le_right _ _).trans_lt hbudget) hM hMU
    (h₁.journal journal) hreplays hcur hcur' (fun t ht => (h.queued t ht).2) h.supported).mono ?_)
  rintro count r₂ ⟨h₂, hadds₂, hsat, hdone⟩
  rw [WP.bind_iff]
  refine Routine.note_wp fun journal₂ => ?_
  rw [WP.bind_iff]
  refine Context.announce_wp hc.stop fun journal₃ => WP.pure_iff.mpr ⟨task, rfl, rfl, ?_,
    ((hadds.journal journal).trans hadds₂).journal journal₃, hsat, hdone⟩
  exact { h₂.journal journal₃ with facts := fun row t hf => hsub (h₂.facts row t hf) }

end Entail
