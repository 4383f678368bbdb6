import Entail.Proofs.Maintenance.Examination

/-!
# Deleting what has no proof

When nothing is left under examination, every examined fact that has a proof is proved
(`Examining.proved_of_provable`): what its proof needs was examined as well. So a check finds out
whether a fact has a proof (`check_wp`), and it may keep its verdicts for later checks (`Rests`), which
never revise them (`Rests.proved_iff`, `Rests.disproved_iff`).
`Search.delete` therefore deletes those of the queued facts that have none (`delete_wp`).
-/

namespace Entail.Search

open Flag.Update Flag.Level

variable {c : Context} {s : Scene c} {task : DeletionTask} {r r' r'' : Run} {t u : Triple} {row : Nat}

/-! ## Verdicts -/

/-- What is examined and has a proof is proved, when nothing is left under examination. -/
theorem Examining.proved_of_provable (h : Examining s ∅ r) (hstack : r.examinations = [])
    (ht : t ∈ s.provable) (hc : r.HasAtLevel checked t) : r.HasAtLevel proved t := by
  have hobvious : ∀ u, r.HasAtLevel checked u → Obvious s r u → r.HasAtLevel proved u :=
    fun u hu ho => h.done u (h.obvious u hu id ho)
  -- by induction on the proof
  induction ht with
  | ground _ hu =>
    refine hobvious _ hc (.inl ?_)
    rcases hu with ha | ⟨hbelow, -⟩
    · exact h.asserted_iff.mpr ha
    · exact (h.examined _ hc).2.resolve_left fun hat => hat.not_below hbelow
  | @rule u a hp hn ha ih =>
    have hproves : s.Proves a := ⟨hp, hn⟩
    cases hrec : a.indexed.recursive with
    | false => exact hobvious u hc (.inr (.inr ⟨a, hrec, ha, hproves⟩))
    | true =>
      rcases h.explored u hc id with hp | hm | hx
      · exact hp
      · rw [hstack] at hm
        cases hm
      · -- the supporting premises are examined, so they are proved
        obtain ⟨k, v, hk, hs⟩ := s.basic.builds.exists_supporting a.rule?_eq hrec a.assignment
        rcases h.applied a hproves (fun j w hw hs => ih j w hw (hx a ha hproves j w hw hs))
          ⟨k, v, hk, hs⟩ u ha with hq | hd
        · exact h.done u hq
        · exact hobvious u hc (.inr (.inl hd))

/-- `r'` is `r` with more facts disproved, none of which has a proof. -/
structure Disproves (s : Scene c) (r r' : Run) : Prop where
  eq : ∃ journal checked flags, r' = { r with journal, checked, update := { r.update with flags } }
  plain : r'.Plain
  flags (row : Nat) (b : Flags) (h : disproved.any b = false) :
    (r'.flags row).any b = (r.flags row).any b
  has (t : Triple) (h : r.Has disproved t) : r'.Has disproved t
  unproved (t : Triple) (h : r'.Has disproved t) :
    r.Has disproved t ∨ s.first.Before t ∧ c.rules.At s.level t ∧ t ∉ s.provable

namespace Disproves

theorem refl (hp : r.Plain) : Disproves s r r :=
  ⟨⟨_, _, _, rfl⟩, hp, fun _ _ _ => rfl, fun _ => id, fun _ => .inl⟩

theorem proceed (h : Disproves s r r') (journal : Array Entry) (checked : Array RowIndex) :
    Disproves s r { r' with journal, checked } := by
  refine { h with plain := { h.plain with }, eq := ?_ }
  obtain ⟨_, _, _, rfl⟩ := h.eq
  exact ⟨_, _, _, rfl⟩

theorem table_eq (h : Disproves s r r') : r'.table = r.table := by
  obtain ⟨_, _, _, rfl⟩ := h.eq
  rfl

theorem hasAtLevel_iff (h : Disproves s r r') {b : Flags} :
    r'.HasAtLevel b t ↔ r.HasAtLevel b t := by
  obtain ⟨_, _, _, rfl⟩ := h.eq
  exact Iff.rfl

/-- A fact that has no proof is disproved. -/
theorem mark {m : Marks} (h : Disproves s r r') (hf : r.table.fact? row = some t)
    (ht : s.first.Before t ∧ c.rules.At s.level t ∧ t ∉ s.provable)
    (ha : r'.update.flags.Adds row disproved m) :
    Disproves s r { r' with update := { r'.update with flags := m } } := by
  have hf' : r'.table.fact? row = some t := by rwa [h.table_eq]
  refine ⟨?_, h.plain.withMarks (l := .update) hf' ha rfl, fun other b hb => ?_, fun u hu => ?_,
    fun u hu => ?_⟩
  · obtain ⟨_, _, _, rfl⟩ := h.eq
    exact ⟨_, _, _, rfl⟩
  · refine (ha.any b other).trans ?_
    rw [hb, Bool.and_false, Bool.or_false]
    exact h.flags other b hb
  · exact (ha.holds_iff hf').mpr (.inl (h.has u hu))
  · rcases (ha.holds_iff hf').mp hu with hu | ⟨-, rfl⟩
    · exact h.unproved u hu
    · exact .inr ht

theorem settled (h : Disproves s r r') (hs : Settled s ∅ r) : Settled s ∅ r' := by
  have hsince : Since s r' := by
    refine ⟨h.table_eq.trans hs.table_eq, fun row => ?_, fun t ht => h.has t (hs.disproved t ht),
      fun t ht => ?_⟩
    · exact (h.flags row added rfl).trans (hs.added_eq row)
    · rcases h.unproved t ht with ht | ht
      · exact hs.failed t ht
      · exact .inr ht
  have hplain := h.plain
  obtain ⟨_, _, _, rfl⟩ := h.eq
  exact { hs with toSince := hsince, plain := hplain }

end Disproves

/-- What holds between two checks: it is known of every examined fact whether it has a proof. -/
structure Rests (s : Scene c) (r : Run) : Prop extends Settled s ∅ r where
  examinations : r.examinations = []
  explored (t : Triple) (h : r.HasAtLevel checked t) :
    r.HasAtLevel Flag.Level.proved t ∨ Explored s r t
  judged (t : Triple) (h : r.HasAtLevel checked t) :
    r.HasAtLevel Flag.Level.proved t ∨ r.Has Flag.Update.disproved t

namespace Rests

/-- Between two checks the examined facts that have a proof are those that are proved. -/
theorem proved_iff (h : Rests s r) (hc : r.HasAtLevel checked t) :
    r.HasAtLevel Flag.Level.proved t ↔ t ∈ s.provable := by
  refine ⟨fun hp => (h.queued t (h.proved t hp)).2, fun ht => ?_⟩
  rcases h.judged t hc with hp | hd
  · exact hp
  rcases h.failed t hd with hd | ⟨-, -, hn⟩
  · -- what was disproved at a lower level is examined only if it is asserted
    have ha : r.Asserted t := (h.examined t hc).2.resolve_left fun hat =>
      hat.not_below (s.deleted t ((s.disproved_iff t).mp hd))
    exact h.done t (h.obvious t hc id (.inl ha))
  · exact absurd ht hn

/-- Between two checks the other examined facts are disproved. -/
theorem disproved_iff (h : Rests s r) (hc : r.HasAtLevel checked t) (ha : ¬ r.Has added t) :
    r.Has Flag.Update.disproved t ↔ t ∉ s.provable :=
  ⟨fun hd ht => (h.possible ht).2 ⟨hd, ha⟩,
    fun hn => (h.judged t hc).resolve_left (mt (h.proved_iff hc).mp hn)⟩

/-- What is disproved and not added back does not get proved. -/
theorem not_proved (h : Rests s r) (hd : r.Has Flag.Update.disproved t) (ha : ¬ r.Has added t) :
    ¬ r.HasAtLevel Flag.Level.proved t :=
  fun hp => (h.possible (h.queued t (h.proved t hp)).2).2 ⟨hd, ha⟩

theorem journal (h : Rests s r) (journal : Array Entry) : Rests s { r with journal } :=
  { h.proceed journal r.examinations with
    examinations := h.examinations, explored := h.explored, judged := h.judged }

end Rests

/-- A fact that was examined in vain has no proof. -/
theorem Examining.unproved (h : Examining s ∅ r) (hstack : r.examinations = [])
    (hc : r.HasAtLevel checked t) (hn : ¬ r.HasAtLevel proved t) :
    s.first.Before t ∧ c.rules.At s.level t ∧ t ∉ s.provable := by
  have hnot : t ∉ s.provable := fun ht => hn (h.proved_of_provable hstack ht hc)
  have hbefore := h.before_iff.mp (h.examined t hc).1
  exact ⟨hbefore, (h.examined t hc).2.resolve_right fun ha =>
    hnot (.ground hbefore (.inl (h.asserted_iff.mp ha))), hnot⟩

theorem noneProved_wp (hc : c.Basic s.rules) (hf : r.table.fact? row = some t)
    {Q : Bool → Run → Prop} (h : ∀ b : Bool, (b = true ↔ ¬ r.HasAtLevel proved t) → Q b r) :
    WP (noneProved c row) r Q := by
  rw [noneProved, WP.bind_iff]
  refine Routine.reads_wp ?_
  rw [hc.steady_eq]
  refine Routine.reads_wp (h _ ?_)
  rw [Bool.not_eq_true', Bool.eq_false_iff, ne_eq, Run.isProved, ← Run.hasAtLevel_iff hf]

/-- One fact that was examined is disproved, unless it is proved. -/
theorem disprove_wp (h : Examining s ∅ r) (hstack : r.examinations = [])
    (hf : r.table.fact? row = some t) (hc : r.HasAtLevel checked t) (hd : Disproves s r r') :
    WP (do
      if ← noneProved c row then
        if ← Routine.addFlags row disproved then
          c.announceRow row .disproved) r' fun _ r'' => Disproves s r r'' ∧
        (r.HasAtLevel proved t ∨ r''.Has disproved t) ∧
        ∀ u, r'.Has disproved u → r''.Has disproved u := by
  have hf' : r'.table.fact? row = some t := by rwa [hd.table_eq]
  rw [WP.bind_iff]
  refine noneProved_wp s.basic hf' fun b hb => ?_
  rw [hd.hasAtLevel_iff] at hb
  cases b with
  | false => exact WP.pure_iff.mpr ⟨hd, .inl (by simpa using hb), fun _ => id⟩
  | true =>
    rw [if_pos rfl, WP.bind_iff]
    refine Routine.addFlags_wp Bits.isBit_disproved (hd.plain.row_lt hf') fun m ha => ?_
    let r₁ : Run := { r' with update := { r'.update with flags := m } }
    have hd₁ : Disproves s r r₁ := hd.mark hf (h.unproved hstack hc (hb.mp rfl)) ha
    have hhas : ∀ u, r₁.Has disproved u ↔
        r'.Has disproved u ∨ (disproved.any disproved = true ∧ u = t) := fun u => ha.holds_iff hf'
    have hdone : r.HasAtLevel proved t ∨ r₁.Has disproved t :=
      .inr ((hhas t).mpr (.inr ⟨Bits.isBit_disproved.any_self, rfl⟩))
    have hkeep : ∀ u, r'.Has disproved u → r₁.Has disproved u := fun u hu => (hhas u).mpr (.inl hu)
    split
    · exact Context.announceRow_wp (r := r₁) s.basic.stop hf' fun journal =>
        ⟨hd₁.proceed journal r₁.checked, hdone, hkeep⟩
    · exact WP.pure_iff.mpr ⟨hd₁, hdone, hkeep⟩

/-- Once it is known of every fact that was examined, another check may begin. -/
theorem Examining.rests (h : Examining s ∅ r) (hstack : r.examinations = [])
    (hd : Disproves s r r') (hdone : ∀ row ∈ r.checked.toList, ∀ t, r.table.fact? row = some t →
      r.HasAtLevel proved t ∨ r'.Has disproved t) : Rests s r' := by
  have hiff : ∀ {b u}, r'.HasAtLevel b u ↔ r.HasAtLevel b u := hd.hasAtLevel_iff
  refine { hd.settled h.toSettled with
    examinations := ?_
    explored := fun u hu => ?_
    judged := fun u hu => ?_ }
  · obtain ⟨_, _, _, rfl⟩ := hd.eq
    exact hstack
  · rcases h.explored u (hiff.mp hu) id with hp | hm | hx
    · exact .inl (hiff.mpr hp)
    · rw [hstack] at hm
      cases hm
    · exact .inr fun a ha hp k v hk hs => hiff.mpr (hx a ha hp k v hk hs)
  · obtain ⟨row, hf⟩ := (hiff.mp hu).mem
    rcases h.remembered row u hf (hiff.mp hu) id with hp | hdis | hm
    · exact .inl (hiff.mpr hp)
    · exact .inr (hd.has u hdis)
    · exact (hdone row hm u hf).imp_left hiff.mpr

/-- What was examined in vain is disproved. -/
theorem markDisproved_wp (h : Examining s ∅ r) (hstack : r.examinations = []) :
    WP (markDisproved c) r fun _ r' => Rests s r' ∧ Disproves s r r' := by
  rw [markDisproved, WP.bind_iff]
  refine Routine.reads_wp ?_
  rw [WP.bind_iff]
  refine (WP.forM (l := r.checked.toList) (Disproves s r)
    (fun row r' => ∀ t, r.table.fact? row = some t → r.HasAtLevel proved t ∨ r'.Has disproved t)
    (fun row hrow r₁ h₁ => ?_) (.refl h.plain)).mono ?_
  · obtain ⟨t, hf, hc⟩ := h.recorded row hrow
    refine (disprove_wp h hstack hf hc h₁).mono ?_
    rintro _ r₂ ⟨h₂, hdone, hkeep⟩
    refine ⟨h₂, fun u hu => ?_, fun other _ ho u hu => (ho u hu).imp_right (hkeep u)⟩
    rw [hf] at hu
    cases hu
    exact hdone
  · rintro _ r₁ ⟨h₁, hdone⟩
    rw [WP.modify_iff]
    have h₂ := h₁.proceed r₁.journal #[]
    exact ⟨h.rests hstack h₂ hdone, h₂⟩

/-! ## Checks -/

/-- Whatever a check finds out, only the flags of the search change. -/
theorem Disproves.checks {first : Run} {n : Nat} (h : Disproves s r r')
    (hl : Looks { first with checks := n, checked := #[] } r) : DeletionTask.Checks first r' := by
  refine ⟨?_, h.plain, fun row b hb => ?_⟩
  · obtain ⟨_, _, _, _, _, _, rfl⟩ := hl.eq
    obtain ⟨_, _, _, rfl⟩ := h.eq
    exact ⟨_, _, _, _, _, _, _, _, rfl⟩
  · rw [h.flags row b hb]
    obtain ⟨_, _, _, _, _, _, rfl⟩ := hl.eq
    rfl

/-- Nothing was examined in a check that begins. -/
theorem Rests.examining {new : Set Triple} {n : Nat} (h : Rests s r)
    (hl : Looks { r with checks := n, checked := #[] } r') (hs : Settled s new r')
    (hstack : r'.examinations = []) (harray : r'.checked = #[])
    (hc : ∀ u, r'.HasAtLevel checked u → u ∉ new → r.HasAtLevel checked u) :
    Examining s new r' := by
  refine { hs with
    stack := fun e he => ?_
    explored := fun u hu hn => ?_
    remembered := fun other u _ hu hn => ?_
    recorded := fun other ho => ?_ }
  · rw [hstack] at he
    cases he
  · exact (h.explored u (hc u hu hn)).imp (hl.has _ u) fun hx =>
      .inr ((show Explored s { r with checks := n, checked := #[] } u from hx).looks hl)
  · exact (h.judged u (hc u hu hn)).imp (hl.has _ u) fun hd => .inl (hl.has_iff.mpr hd)
  · rw [harray] at ho
    cases ho

/-- There is nothing to examine. -/
theorem Concluding.idle {known : Bool} (h : Examining s ∅ r) (hstack : r.examinations = [])
    (hk : known = true ↔ r.HasAtLevel proved t) : Concluding s t known r :=
  { h with
    awake := by
      rw [hstack]
      trivial
    last := fun u hu => by
      rw [hstack] at hu
      cases hu
    known_iff := fun _ => hk }

/-- Only one fact is under examination. -/
theorem Concluding.single {e : Examination} {known : Bool} (h : Examining s ∅ r)
    (hstack : r.examinations = [e]) (hproved : e.proved = true ↔ r.HasAtLevel proved e.fact) :
    Concluding s e.fact known r :=
  { h with
    awake := by
      rw [hstack]
      exact ⟨hproved, fun _ ho => absurd ho List.not_mem_nil⟩
    last := fun u hu => by
      rw [hstack] at hu
      exact (Option.some.inj hu).symm
    known_iff := fun hnil => by
      rw [hstack] at hnil
      cases hnil }

section check

variable (hlevel : task.level = s.level) (hbudget : s.first.table.size < task.budget)

include hlevel hbudget

/-- A fact is examined until it is known whether it has a proof. -/
theorem settle_wp {known : Bool} {first : Run} {checks : Nat}
    (hl : Looks { first with checks, checked := #[] } r) (h : Concluding s t known r)
    (ht : r.HasAtLevel checked t ∨ r.Has disproved t ∧ t ∉ s.provable) :
    WP (do
      let waiting ← Routine.reads fun r => r.examinations.length
      let proved ← conclude c task (2 * task.budget + waiting + 1) known
      markDisproved c
      pure proved) r fun kept r' => Rests s r' ∧ DeletionTask.Checks first r' ∧
        (if kept then t ∈ s.provable else t ∉ s.provable ∧ r'.Has disproved t) ∧
        ∀ u, first.Has disproved u → r'.Has disproved u := by
  have hsize : unexamined r < task.budget := by
    refine (unexamined_le r).trans_lt ?_
    rwa [h.table_eq]
  rw [WP.bind_iff]
  refine Routine.reads_wp ?_
  rw [WP.bind_iff]
  refine (conclude_wp hlevel hbudget _ known h (by rw [remaining]; omega)).mono ?_
  rintro kept r₁ ⟨h₁, hstack, hl₁, hkept⟩
  rw [WP.bind_iff]
  refine (markDisproved_wp h₁ hstack).mono ?_
  rintro _ r₂ ⟨h₂, hd⟩
  refine WP.pure_iff.mpr ⟨h₂, hd.checks (hl.trans hl₁), ?_,
    fun u hu => hd.has u ((hl.trans hl₁).has_iff.mpr hu)⟩
  cases kept with
  | true =>
    rw [if_pos rfl]
    exact (h₁.queued t (h₁.proved t (hkept.mp rfl))).2
  | false =>
    have hn : ¬ r₁.HasAtLevel proved t := fun hh => Bool.false_ne_true (hkept.mpr hh)
    rw [if_neg Bool.false_ne_true]
    rcases ht with hc | ⟨hdis, hnot⟩
    · have hc := hl₁.has _ t hc
      exact ⟨fun ht => hn (h₁.proved_of_provable hstack ht hc),
        (h₂.judged t (hd.hasAtLevel_iff.mpr hc)).resolve_left (mt hd.hasAtLevel_iff.mp hn)⟩
    · exact ⟨hnot, hd.has t (hl₁.has_iff.mpr hdis)⟩

/-- A check finds out whether a fact of the level has a proof. -/
theorem check_wp (h : Rests s r) (hf : r.table.fact? row = some t) (hb : r.Before t)
    (hat : c.rules.At s.level t) :
    WP (check c task row t) r fun kept r' => Rests s r' ∧ DeletionTask.Checks r r' ∧
      (if kept then t ∈ s.provable else t ∉ s.provable ∧ r'.Has disproved t) ∧
      ∀ u, r.Has disproved u → r'.Has disproved u := by
  let r₀ : Run := { r with checks := r.checks + 1, checked := #[] }
  have h₀ : Settled s ∅ r₀ := { h.toSettled with plain := { h.plain with } }
  rw [check, WP.bind_iff, WP.modify_iff, WP.bind_iff]
  refine takeUp_wp h₀ hf hb (.inl hat) (fun r₁ ha hstack h₁ hknown => ?_)
    fun r₁ hfresh hfl h₁ => ?_
  · -- the fact needs no examination
    dsimp only
    rw [if_neg Bool.false_ne_true, WP.bind_iff]
    refine skip_wp s.basic.stop fun journal => ?_
    let r₂ : Run := { r₁ with journal }
    have hnil : r₂.examinations = [] := hstack.trans h.examinations
    have ha₂ : Alike r₀ r₂ := ha.trans ⟨⟨_, _, _, rfl⟩, fun _ _ => Iff.rfl⟩
    have h₂ : Examining s ∅ r₂ := h.examining ha₂.looks (h₁.proceed journal _) hnil
      ha.checked_eq fun u hu _ => (ha₂.has_iff _ u).mp hu
    have hf₂ : r₂.table.fact? row = some t := by
      rw [ha₂.looks.table_eq]
      exact hf
    have hjudged : r₂.HasAtLevel checked t ∨ r₂.Has disproved t ∧ t ∉ s.provable := by
      rcases hknown with hc | hno
      · exact .inl ((ha₂.has_iff _ t).mpr hc)
      · have hdis : r₀.Has disproved t := by_contra fun hd => hno ⟨hb, fun hh => hd hh.1⟩
        exact .inr ⟨ha₂.looks.has_iff.mpr hdis, fun ht => hno (h₀.possible ht)⟩
    rw [WP.bind_iff]
    refine Routine.reads_wp ?_
    rw [show (!r₂.examinations.isEmpty) = false by rw [hnil]; rfl, if_neg Bool.false_ne_true,
      WP.bind_iff]
    refine allProved_wp s.basic hf₂ fun known hk => ?_
    exact settle_wp hlevel hbudget ha₂.looks (.idle h₂ hnil hk) hjudged
  · -- the fact is examined
    dsimp only
    rw [if_pos rfl, WP.bind_iff]
    obtain ⟨hstack, harray⟩ : r₁.examinations = [] ∧ r₁.checked = #[] := by
      obtain ⟨_, rfl⟩ := hfl.eq
      exact ⟨h.examinations, rfl⟩
    have hself : ∀ {u}, r₁.HasAtLevel checked u ↔ r₀.HasAtLevel checked u ∨ u = t :=
      hfl.has_self Bits.isBit_checked
    have h₁ : Examining s {t} r₁ := h.examining hfl.looks h₁ hstack harray fun u hu hn =>
      (hself.mp hu).resolve_right hn
    refine (begin_wp hlevel hbudget h₁ (by rw [hfl.table_eq]; exact hf) (hself.mpr (.inr rfl))
      fun hq => hfresh (h₀.queued t ((hfl.has_of_ne rfl).mp hq)).1).mono ?_
    rintro _ r₂ ⟨h₂, hl₂, hchecked, e, hstack₂, rfl, hproved⟩
    rw [hstack] at hstack₂
    rw [pure_bind]
    exact settle_wp hlevel hbudget (hfl.looks.trans hl₂) (.single h₂ hstack₂ hproved)
      (.inl ((hchecked _).mpr (hself.mpr (.inr rfl))))

end check

/-! ## Deletion -/

/-- What a check found out is still known after deletions. -/
theorem Rests.touches (h : Rests s r) (ht : DeletionTask.Touches r r') (hp : r'.Plain) :
    Rests s r' := by
  have htable : r'.table = r.table := by
    obtain ⟨_, _, _, _, _, rfl⟩ := ht.eq
    rfl
  have hdisproved : ∀ u, r'.Has disproved u ↔ r.Has disproved u := fun u =>
    Run.has_congr htable fun row => ht.flags row disproved rfl rfl
  have hsince : Since s r' := ⟨htable.trans h.table_eq,
    fun row => (ht.flags row added rfl rfl).trans (h.added_eq row),
    fun u hu => (hdisproved u).mpr (h.disproved u hu),
    fun u hu => h.failed u ((hdisproved u).mp hu)⟩
  have hjudged : ∀ u, r.HasAtLevel checked u → r.HasAtLevel proved u ∨ r'.Has disproved u :=
    fun u hu => (h.judged u hu).imp_right (hdisproved u).mpr
  obtain ⟨_, _, _, _, _, rfl⟩ := ht.eq
  exact { h with toSince := hsince, plain := hp, judged := hjudged }

/-- A fact is kept only if it has a proof, and not kept only if it has none. -/
theorem judges (hlevel : task.level = s.level) (hbudget : s.first.table.size < task.budget) :
    DeletionTask.Judges c task (check c task) (Rests s) (· ∈ s.provable)
      fun r t => t ∉ s.provable ∧ r.Has disproved t where
  check_wp r row t h hJ hf hb hat := by
    refine (check_wp hlevel hbudget hJ hf hb (hlevel ▸ hat)).mono ?_
    rintro kept r' ⟨h', hchecks, hkept, hdis⟩
    exact ⟨hchecks, h', hkept, fun u hu => ⟨hu.1, hdis u hu.2⟩⟩
  keeps r r' ht hp hJ := by
    refine ⟨hJ.touches ht hp, fun u hu => ⟨hu.1, ?_⟩⟩
    have h' := (hJ.touches ht hp).toSince
    obtain ⟨row, hf, hb⟩ := hu.2
    refine ⟨row, by rw [h'.table_eq, ← hJ.table_eq]; exact hf, ?_⟩
    exact (ht.flags row disproved rfl rfl).trans hb

/-- Nothing is known before the first check of a level. -/
theorem Rests.initial (heq : ∃ journal reflexivity deleted added, r = { s.first with
      journal, reflexivity, checks := 0, examinations := []
      update := { s.first.update with deleted, added } })
    (hp : r.Plain) (hproved : s.first.update.proved = .empty)
    (hflags : ∀ row, s.first.levelFlags row = 0) : Rests s r := by
  have hclean : ∀ {b : Flags} {t}, ¬ s.first.HasAtLevel b t := by
    rintro b t ⟨row, -, hb⟩
    have hb : Bits.any (s.first.levelFlags row) b = true := hb
    rw [hflags, Bits.zero_any] at hb
    cases hb
  have hlisted : s.first.listed .proved = [] := by
    show s.first.update.proved.values.toList = []
    rw [hproved]
    rfl
  obtain ⟨_, _, _, _, rfl⟩ := heq
  refine {
    table_eq := rfl
    added_eq := fun _ => rfl
    disproved := fun _ => id
    failed := fun _ => .inl
    plain := hp
    lists := ?_
    proved := fun _ hu => absurd hu hclean
    queued := fun _ hu => absurd hu hclean
    delayed := fun _ hu => absurd hu hclean
    examined := fun _ hu => absurd hu hclean
    obvious := fun _ hu => absurd hu hclean
    applied := fun a _ hprem hsome => ?_
    cursor := ?_
    done := fun _ hu => absurd hu hclean
    examinations := rfl
    explored := fun _ hu => absurd hu hclean
    judged := fun _ hu => absurd hu hclean }
  · show Lists s.first.table _ (s.first.listed .proved)
    rw [hlisted]
    exact .nil fun _ => hclean
  · obtain ⟨k, u, hk, hs⟩ := hsome
    exact absurd (hprem k u hk hs) hclean
  · show s.first.update.proved.cursor = (s.first.listed .proved).length
    rw [hlisted, hproved]
    rfl

/-- The queued facts of a level that have no proof are deleted. -/
theorem delete_wp {lowerEnd : Nat} (hfirst : s.first = r)
    (h : DeletionTask.Ready c s.level lowerEnd r) (hproved : r.update.proved = .empty)
    (hflags : ∀ row, r.levelFlags row = 0) :
    WP (delete c s.level) r fun _ r' => ∃ task : DeletionTask, task.level = s.level ∧
      task.lowerEnd = lowerEnd ∧ DeletionTask.Swept c task (· ∈ s.provable)
        (fun r t => t ∉ s.provable ∧ r.Has disproved t) r r' ∧ Rests s r' := by
  subst hfirst
  rw [delete, WP.bind_iff]
  refine Context.announce_wp s.basic.stop fun journal => ?_
  rw [WP.bind_iff, start, WP.bind_iff]
  refine (DeletionTask.start_wp (h.journal journal) 3).mono ?_
  rintro task r₁ ⟨hlevel, hlower, hs, hstarts⟩
  rw [WP.bind_iff, WP.modify_iff, WP.pure_iff, WP.bind_iff]
  let r₂ : Run := { r₁ with checks := 0, examinations := [] }
  have hs₂ : DeletionTask.Started c task r₂ :=
    { hs with deleting := { hs.deleting with plain := { hs.deleting.plain with } } }
  have hrests : Rests s r₂ := by
    refine .initial ?_ hs₂.deleting.plain hproved hflags
    obtain ⟨_, _, _, rfl⟩ := hstarts.eq
    exact ⟨_, _, _, _, rfl⟩
  have hbudget : s.first.table.size < task.budget := by
    rw [← hrests.table_eq]
    exact hs.budget
  refine (DeletionTask.run_wp s.basic (hlevel ▸ s.leveled) (judges hlevel hbudget) hs₂ hrests).mono ?_
  rintro _ r₃ ⟨h₃, hswept⟩
  rw [WP.bind_iff]
  refine Routine.reads_wp ?_
  rw [WP.bind_iff]
  refine Routine.note_wp fun _ => ?_
  rw [WP.bind_iff]
  refine Context.announce_wp s.basic.stop fun journal₃ => WP.pure_iff.mpr
    ⟨task, hlevel, hlower, ?_, h₃.journal journal₃⟩
  have hj₁ : DeletionTask.Judged c task (fun r t => t ∉ s.provable ∧ r.Has disproved t) s.first r₁ := by
    refine hstarts.judged fun t ht => ⟨ht.1, ?_⟩
    obtain ⟨_, _, _, rfl⟩ := hstarts.eq
    exact ht.2
  have hchecks : DeletionTask.Checks r₁ r₂ :=
    ⟨⟨_, _, _, _, _, _, _, _, rfl⟩, hs₂.deleting.plain, fun _ _ _ => rfl⟩
  exact (hswept.after (hj₁.trans (.of_checks hchecks fun _ => id))).journal fun _ => id

/-- A search ends with a verdict on every fact of the level that it examined: it is proved if it has a
proof, and disproved otherwise. What the search deletes is disproved. -/
theorem verdicts_wp {lowerEnd : Nat} (hfirst : s.first = r)
    (h : DeletionTask.Ready c s.level lowerEnd r) (hproved : r.update.proved = .empty)
    (hflags : ∀ row, r.levelFlags row = 0) :
    WP (delete c s.level) r fun _ r' => ∀ t, c.rules.At s.level t →
      (r'.HasAtLevel checked t → (r'.HasAtLevel proved t ↔ t ∈ s.provable) ∧
        (r'.Has disproved t ↔ t ∉ s.provable)) ∧
      (r'.Has deleted t → r'.Has disproved t ∧ ¬ r'.HasAtLevel proved t) := by
  refine (delete_wp hfirst h hproved hflags).mono ?_
  rintro _ r' ⟨task, hlevel, -, hs, hrests⟩ t hat
  have ha : ¬ r'.Has added t := hs.not_added (hlevel ▸ hat)
  refine ⟨fun hc => ⟨hrests.proved_iff hc, hrests.disproved_iff hc ha⟩, fun hd => ?_⟩
  rcases hs.judged.dropped t hd with hd | ⟨-, -, hdis⟩
  · exact absurd (s.deleted t (hfirst ▸ hd)) hat.not_below
  · exact ⟨hdis, hrests.not_proved hdis ha⟩

end Entail.Search
