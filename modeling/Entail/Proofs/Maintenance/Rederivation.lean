import Entail.Maintenance.Rederivation
import Entail.Proofs.Maintenance.Deletion

/-!
# Deleting first and putting back afterwards

`Rederivation.delete` judges without a search, so everything queued is deleted (`delete_wp`).
`Rederivation.rederive` then queues for addition what was deleted although it is asserted or a
conclusion of an instance that holds in what is kept and added (`rederive_wp`).
-/

namespace Entail.Rederivation

open Flag.Update

variable {c : Context} {rules : List Rule} {level : Option Nat} {lowerEnd : Nat} {r r' r'' : Run}
  {t : Triple}

theorem judges (task : DeletionTask) : DeletionTask.Judges c task (fun _ _ => pure false)
    (fun _ => True) (fun _ => False) fun _ _ => True where
  check_wp _ _ _ h _ _ _ _ := WP.pure_iff.mpr
    ⟨⟨⟨_, _, _, _, _, _, _, _, rfl⟩, h.plain, fun _ _ _ => rfl⟩, trivial, trivial, fun _ => id⟩
  keeps _ _ _ _ _ := ⟨trivial, fun _ => id⟩

/-- Everything queued is deleted. -/
theorem delete_wp (hc : c.Basic rules) (hl : level.isSome = c.mode.usesLevels)
    (h : DeletionTask.Ready c level lowerEnd r) :
    WP (delete c level) r fun _ r' => ∃ task : DeletionTask, task.level = level ∧
      task.lowerEnd = lowerEnd ∧
      DeletionTask.Swept c task (fun _ => False) (fun _ _ => True) r r' := by
  rw [delete, WP.bind_iff]
  refine Context.announce_wp hc.stop fun journal => ?_
  rw [WP.bind_iff]
  refine (DeletionTask.start_wp (h.journal journal) 1).mono ?_
  rintro task r₁ ⟨hlevel, hlower, hs, hr₁⟩
  rw [WP.bind_iff]
  refine (DeletionTask.run_wp hc (hlevel ▸ hl) (judges task) hs trivial).mono ?_
  rintro _ r₂ ⟨_, hswept⟩
  refine Context.announce_wp hc.stop fun journal₂ => ⟨task, hlevel, hlower, ?_⟩
  exact (hswept.after (hr₁.judged fun _ => id)).journal fun _ => id

/-! ## Support -/

/-- A fact is asserted, or a conclusion of an instance that holds in what is kept and added. -/
def Supported (c : Context) (level : Option Nat) (r : Run) (t : Triple) : Prop :=
  r.Asserted t ∨ ∃ a : c.rules.Instance level, a.Concludes t ∧ a.Holds r.Kept r.WithAdded

/-- `r'` is `r` with more facts queued for addition, each of which has support. -/
structure PutsBack (c : Context) (level : Option Nat) (addedEnd : Nat) (rest : List RowIndex)
    (r r' : Run) : Prop where
  eq : ∃ journal polls flags deleted added,
    r' = { r with journal, polls, update := { r.update with flags, deleted, added } }
  plain : r'.Plain
  flags (row : Nat) (b : Flags) (h : addedNew.any b = false) :
    (r'.flags row).any b = (r.flags row).any b
  deleted_eq : r'.listed .deleted = r.listed .deleted
  listed : r.listed .added <+: r'.listed .added
  sorted : Sorted r'.table c.rules (r'.Has addedNew) level addedEnd (r'.listed .added ++ rest)
  has (t : Triple) (h : r.Has addedNew t) : r'.Has addedNew t
  sound (t : Triple) (h : r'.Has addedNew t) :
    r.Has addedNew t ∨ c.rules.At level t ∧ Supported c level r t

namespace PutsBack

variable {addedEnd : Nat} {rest : List RowIndex}

theorem table_eq (h : PutsBack c level addedEnd rest r r') : r'.table = r.table := by
  obtain ⟨_, _, _, _, _, rfl⟩ := h.eq
  rfl

theorem has_iff (h : PutsBack c level addedEnd rest r r') {b : Flags}
    (hb : addedNew.any b = false) : r'.Has b t ↔ r.Has b t :=
  Run.has_congr h.table_eq fun row => h.flags row b hb

theorem alike (h : PutsBack c level addedEnd rest r r') : r.Alike r' :=
  ⟨Run.before_congr h.table_eq, h.has_iff rfl, h.has_iff rfl⟩

theorem kept_eq (h : PutsBack c level addedEnd rest r r') : r'.Kept = r.Kept :=
  funext fun _ => propext h.alike.kept_iff

theorem withAdded_eq (h : PutsBack c level addedEnd rest r r') : r'.WithAdded = r.WithAdded :=
  funext fun _ => propext h.alike.withAdded_iff

theorem sameQueues (h : PutsBack c level addedEnd rest r r') : r.SameQueues r' := by
  obtain ⟨_, _, _, _, _, rfl⟩ := h.eq
  exact ⟨rfl, rfl, rfl, rfl⟩

theorem journal (h : PutsBack c level addedEnd rest r r') (journal : Array Entry) :
    PutsBack c level addedEnd rest r { r' with journal } := by
  refine { h with plain := { h.plain with }, eq := ?_ }
  obtain ⟨_, _, _, _, _, rfl⟩ := h.eq
  exact ⟨_, _, _, _, _, rfl⟩

/-- A fact with support is queued. -/
theorem mark (h : PutsBack c level addedEnd rest r r') {row : Nat}
    (hend : addedEnd ≤ (r.listed .added).length) (hf : r.table.fact? row = some t)
    (hat : c.rules.At level t) (ht : Supported c level r t)
    (hm : Routine.Marked .update .added addedNew row t r' r'') :
    PutsBack c level addedEnd rest r r'' where
  eq := by
    obtain ⟨_, _, _, _, _, rfl⟩ := h.eq
    obtain ⟨_, _, rfl⟩ := hm.eq
    exact ⟨_, _, _, _, _, rfl⟩
  plain := hm.plain
  flags row b hb := (hm.flags row b hb).trans (h.flags row b hb)
  deleted_eq := by
    rw [← h.deleted_eq]
    obtain ⟨_, _, rfl⟩ := hm.eq
    rfl
  listed := h.listed.trans hm.listed
  sorted := hm.sorted Bits.isBit_addedNew (by rwa [h.table_eq]) hat
    (hend.trans h.listed.length_le) rest h.sorted
  has s hs := (hm.has_self Bits.isBit_addedNew).mpr (.inl (h.has s hs))
  sound s hs := by
    rcases (hm.has_self Bits.isBit_addedNew).mp hs with hs | rfl
    · exact h.sound s hs
    · exact .inr ⟨hat, ht⟩

end PutsBack

/-- Whether some rule derives a fact of the level from what is kept. -/
theorem isDerivable_eq (hc : c.Basic rules) (hl : level.isSome = c.mode.usesLevels)
    (hp : r.Plain) (hat : c.rules.At level t) :
    ∃ b, c.rules.isDerivable (c.view supports) t r = .ok b r ∧
      (b = true ↔ ∃ a : c.rules.Instance level, a.Concludes t ∧ a.Holds r.Kept r.WithAdded) := by
  have hclasses : ((c.view supports).snapshot r).classes = none := hc.steady_eq r
  have hpositive : ∀ (o : Occurrence) (u : Triple),
      ((c.view supports).snapshot r).Present .supportingPositive o u ↔ r.Kept u := fun _ _ =>
    View.present_iff.trans Run.holds_kept_iff
  have hnegative : ∀ (o : Occurrence) (u : Triple),
      ((c.view supports).snapshot r).Present .supportingNegative o u ↔ r.WithAdded u := fun _ _ =>
    View.present_iff.trans hp.holds_withAdded_iff
  obtain ⟨b, he, hb⟩ := RuleIndex.isDerivable_spec (t := t) (c.view supports) hc.simple
    rfl rfl hc.builds (s := r)
  refine ⟨b, he, hb.trans ⟨?_, ?_⟩⟩
  · rintro ⟨head, i, τ, hsup⟩
    obtain ⟨a, -, -, -, ht, hprem, hblock⟩ :=
      RuleIndex.Instance.of_supports hc.builds hl hsup hclasses hat
    exact ⟨a, ht, fun k u hk => (hpositive _ u).mp (hprem k u hk),
      fun k u hk hu => hblock k u hk ((hnegative _ u).mpr hu)⟩
  · rintro ⟨a, ht, ha⟩
    obtain ⟨ref, -, hsup⟩ := a.exists_supports hclasses ht
      (fun k u hk => (hpositive _ u).mpr (ha.premises k u hk))
      fun k u hk hu => ha.blockers k u hk ((hnegative _ u).mp hu)
    exact ⟨ref, _, _, hsup⟩

section rederive

variable (hc : c.Basic rules) (hl : level.isSome = c.mode.usesLevels) {addedEnd : Nat}
  {rest : List RowIndex} (hend : addedEnd ≤ (r.listed .added).length)

include hc hl hend

/-- A fact of the level is queued if it has support. -/
theorem putBack_wp {row : Nat} (h : PutsBack c level addedEnd rest r r')
    (hf : r.table.fact? row = some t) (hat : c.rules.At level t) (count : Nat) :
    WP (putBack c row (r.table.status row) t count) r' fun _ r'' =>
      PutsBack c level addedEnd rest r r'' ∧
      r''.update.deleted.cursor = r'.update.deleted.cursor ∧
      (Supported c level r t → r''.Has addedNew t) ∧
      ∀ s, r'.Has addedNew s → r''.Has addedNew s := by
  have hf' : r'.table.fact? row = some t := by rwa [h.table_eq]
  -- what follows the test for support
  suffices H : ∀ kept : Bool, (kept = true ↔ Supported c level r t) → WP (do
      if !kept then pure count
      else if !(← Routine.addFlags row Flag.Update.addedNew) then pure count
      else
        Routine.enqueue .added row
        c.announce (.rederived t)
        pure (count + 1)) r' fun _ r'' =>
      PutsBack c level addedEnd rest r r'' ∧
      r''.update.deleted.cursor = r'.update.deleted.cursor ∧
      (Supported c level r t → r''.Has addedNew t) ∧
      ∀ s, r'.Has addedNew s → r''.Has addedNew s by
    rw [putBack]
    split
    · rename_i ha
      exact WP.bind_iff.mpr (WP.pure_iff.mpr (H true
        ⟨fun _ => .inl ((Run.asserted_iff hf).mpr ha), fun _ => rfl⟩))
    · rename_i ha
      obtain ⟨b, he, hb⟩ := isDerivable_eq hc hl h.plain hat
      refine WP.bind_iff.mpr ⟨b, r', he, H b (hb.trans ?_)⟩
      rw [Supported, or_iff_right fun hh => ha ((Run.asserted_iff hf).mp hh), h.kept_eq,
        h.withAdded_eq]
  intro kept hkept
  cases kept with
  | false =>
    simp only [Bool.not_false, if_true]
    exact WP.pure_iff.mpr ⟨h, rfl, fun ht => by simpa using hkept.mpr ht, fun _ => id⟩
  | true =>
    have hmarked : ∀ {r'' : Run} (journal : Array Entry),
        Routine.Marked .update .added addedNew row t r' r'' →
        PutsBack c level addedEnd rest r { r'' with journal } ∧
          r''.update.deleted.cursor = r'.update.deleted.cursor ∧
          (Supported c level r t → r''.Has addedNew t) ∧
          ∀ s, r'.Has addedNew s → r''.Has addedNew s := fun journal hm =>
      ⟨(h.mark hend hf hat (hkept.mp rfl) hm).journal journal, hm.sameCursors .deleted,
        fun _ => (hm.has_self Bits.isBit_addedNew).mpr (.inr rfl),
        fun _ hs => (hm.has_self Bits.isBit_addedNew).mpr (.inl hs)⟩
    simp only [Bool.not_true, Bool.false_eq_true, if_false]
    rw [WP.bind_iff]
    refine (Routine.add_wp (l := .update) .added Bits.isBit_addedNew rfl h.plain hf').mono
      fun isNew r₁ hr₁ => ?_
    rcases hr₁ with ⟨rfl, -, hm⟩ | ⟨rfl, -, hq⟩
    · exact WP.pure_iff.mpr (hmarked r₁.journal hm)
    · simp only [Bool.not_true, Bool.false_eq_true, if_false]
      rw [WP.bind_iff]
      refine hq.mono fun _ r₂ hm => ?_
      rw [WP.bind_iff]
      exact Context.announce_wp hc.stop fun journal => WP.pure_iff.mpr (hmarked journal hm)

/-- A row of the level is put back if its fact is deleted and has support. -/
theorem consider_wp {row : Nat} (h : PutsBack c level addedEnd rest r r')
    (hf : r.table.fact? row = some t) (hat : c.rules.At level t) (count : Nat) :
    WP (consider c row count) r' fun _ r'' => PutsBack c level addedEnd rest r r'' ∧
      r''.update.deleted.cursor = r'.update.deleted.cursor ∧
      (r.Has deleted t → Supported c level r t → r''.Has addedNew t) ∧
      ∀ s, r'.Has addedNew s → r''.Has addedNew s := by
  have hf' : r'.table.fact? row = some t := by rwa [h.table_eq]
  have hdeleted : (r'.flags row).any deleted = true ↔ r.Has deleted t :=
    (Run.has_iff hf').symm.trans (h.has_iff rfl)
  rw [consider, WP.bind_iff]
  refine Routine.reads_wp ?_
  by_cases hd : r.Has deleted t
  · rw [hdeleted.mpr hd]
    simp only [Bool.not_true, Bool.false_eq_true, if_false]
    rw [WP.bind_iff]
    refine Routine.reads_wp ?_
    rw [Table.row?, hf']
    dsimp only [Option.map_some]
    rw [h.table_eq]
    refine (putBack_wp hc hl hend h hf hat count).mono ?_
    rintro _ r'' ⟨h'', hcur, hnew, hkeep⟩
    exact ⟨h'', hcur, fun _ => hnew, hkeep⟩
  · rw [Bool.eq_false_iff.mpr (mt hdeleted.mp hd)]
    simp only [Bool.not_false, if_true]
    exact WP.pure_iff.mpr ⟨h, rfl, fun hd' => absurd hd' hd, fun _ => id⟩

/-- The deleted facts of the level that have support are queued. -/
theorem rederive_wp (rest : List RowIndex) (hplain : r.Plain)
    (hsorted : Sorted r.table c.rules (r.Has deletedNew) level lowerEnd (r.listed .deleted))
    (hplace : Update.endBefore r.update.deletedEnds level = .ok lowerEnd)
    (hadded : Sorted r.table c.rules (r.Has addedNew) level addedEnd (r.listed .added ++ rest))
    (hdeleted : ∀ t, r.Has deleted t → r.Has deletedNew t) :
    WP (rederive c level) r fun _ r' => PutsBack c level addedEnd rest r r' ∧
      ∀ t, c.rules.At level t → r.Has deleted t → Supported c level r t → r'.Has addedNew t := by
  have hstart : ∀ journal cursor, PutsBack c level addedEnd rest r { r with
      journal
      update := { r.update with deleted := (r.update.deleted).seek cursor } } := fun journal cursor =>
    ⟨⟨_, _, _, _, _, rfl⟩, { hplain with }, fun _ _ _ => rfl, rfl, List.prefix_refl _, hadded,
      fun _ => id, fun _ => .inl⟩
  rw [rederive, WP.bind_iff]
  refine Context.announce_wp hc.stop fun journal => ?_
  refine WP.bind_iff.mpr (Routine.endBefore_wp hplace ?_)
  rw [WP.bind_iff, Routine.seek, WP.modify_iff, WP.bind_iff]
  refine Routine.reads_wp ?_
  rw [WP.bind_iff]
  refine Context.announce_wp hc.stop fun journal₁ => ?_
  rw [WP.bind_iff]
  refine (Routine.workOff_wp (w := .deleted) (fun _ => True) (N := r.table.size)
    lowerEnd (Routine.takes_dequeue.whileRunning hc.stop)
    (fun _ r' => PutsBack c level addedEnd rest r r')
    (fun row r' => ∀ t, r.table.fact? row = some t → r.Has deleted t →
      Supported c level r t → r'.Has addedNew t)
    (fun _ r' hr' => hr'.plain.running) (fun _ r' hr' => ?_) (fun _ r' cursor polls hr' => ?_)
    (fun count r' place row hr' hle _ hrow => ?_) (fun _ _ _ _ => trivial) _
    (Context.size_lt_budget rfl)
    (hstart journal₁ lowerEnd) rfl).mono ?_
  · rw [hr'.deleted_eq]
    exact ⟨hsorted.lists.length_le, fun row hrow => hsorted.lists.pos hrow⟩
  · refine ⟨{ hr' with plain := { hr'.plain with }, eq := ?_ }, fun row hrow => hrow⟩
    obtain ⟨_, _, _, _, _, rfl⟩ := hr'.eq
    exact ⟨_, _, _, _, _, rfl⟩
  · rw [hr'.deleted_eq] at hrow
    obtain ⟨t, hf, -⟩ := (hsorted.lists.mem_iff row).mp (List.mem_of_getElem? hrow)
    have hat := hsorted.split place row t hrow hf
    rw [if_neg (by omega)] at hat
    refine (consider_wp hc hl hend hr' hf hat count).mono ?_
    rintro _ r'' ⟨h'', hcur, hnew, hkeep⟩
    refine ⟨h'', hcur, ?_, fun s hs => ?_, fun other _ ho s hs hd ht => hkeep s (ho s hs hd ht)⟩
    · rw [h''.deleted_eq, hr'.deleted_eq]
    · rw [hf] at hs
      cases hs
      exact hnew
  · rintro count r' ⟨h', hjudged, -, -, -⟩
    rw [WP.bind_iff]
    refine Routine.note_wp fun journal₂ => ?_
    rw [WP.bind_iff]
    refine Context.announce_wp hc.stop fun journal₃ => WP.pure_iff.mpr
      ⟨h'.journal journal₃, fun t hat hd ht => ?_⟩
    obtain ⟨row, hf⟩ := hd.mem
    obtain ⟨place, hle, hplace'⟩ := hsorted.exists_at (hdeleted t hd) hat hf
    exact hjudged place row hle trivial (by rwa [h'.deleted_eq]) t hf hd ht

end rederive

end Entail.Rederivation
