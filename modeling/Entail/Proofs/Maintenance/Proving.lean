import Entail.Maintenance.Search
import Entail.Proofs.Maintenance.Deletion

/-!
# What a search proves

A fact of a level has a proof (`Search.HasProof`) if it follows by the rules of the level from asserted
facts and from what is kept of lower levels; without negation and levels these are the facts of a least
model (`Search.hasProof_iff_provable`). Everything that a search marks as proved or delayed has a proof
(`Search.Proving`).
`forward_wp` applies the rules to a fact that is proved, so that the proved facts get closed under the
instances that have supporting premises, and `saturate_wp` proves in this way whatever follows from a
fact that needs no search.
-/

namespace Entail.Search

open Flag.Update Flag.Level

/-! ## Facts with a proof -/

/-- The facts that follow without negation from asserted facts and from what is kept of lower levels. -/
def provable (c : Context) (rules : List Rule) (level : Option Nat) (r : Run) : Set Triple :=
  leastModel rules {t | r.Before t ∧ (r.Asserted t ∨ c.rules.Below level t ∧ ¬ r.Gone t)}

/-- A fact is asserted or kept of a lower level, or follows from such facts by instances none of whose
blockers is there, those counted that are added. -/
inductive HasProof (c : Context) (level : Option Nat) (r : Run) : Triple → Prop
  | ground {t : Triple} (hb : r.Before t) (h : r.Asserted t ∨ c.rules.Below level t ∧ ¬ r.Gone t) :
      HasProof c level r t
  | rule {t : Triple} (a : c.rules.Instance level) (hp : ∀ k u, a.Premise k u → HasProof c level r u)
      (hn : ∀ k u, a.Blocker k u → ¬ r.WithAdded u) (ht : a.Concludes t) : HasProof c level r t

/-- Without negation and levels the facts with a proof are a least model. -/
theorem hasProof_iff_provable {c : Context} {rules : List Rule} {r : Run} {t : Triple}
    (hb : RuleIndex.Builds rules false c.rules) (hd : c.rules.Definite) :
    HasProof c none r t ↔ t ∈ provable c rules none r := by
  constructor
  · intro h
    induction h with
    | ground hb h => exact .base ⟨hb, h⟩
    | rule a _ _ ht ih => exact a.closes hb (fun _ hs => closes_leastModel hs) ih ht
  · intro h
    refine leastModel_subset (X := {t | HasProof c none r t}) (fun u hu => .ground hu.1 hu.2)
      (fun s hs => Rule.closes_iff.mpr fun σ u hprem hu => ?_) h
    obtain ⟨a, rfl, rfl, hu⟩ := RuleIndex.Instance.of_rule hb rfl hs hu RuleIndex.at_none
    exact .rule a hprem (fun _ _ hk => absurd hk (a.not_blocker hd)) hu

/-- A level that is searched, with the run in which the search starts. An instance whose premises are
kept has supporting premises of the level only, but for asserted ones. -/
structure Scene (c : Context) where
  rules : List Rule
  level : Option Nat
  first : Run
  basic : c.Basic rules
  leveled : level.isSome = c.mode.usesLevels
  before (t : Triple) (h : HasProof c level first t) : first.Before t
  kept (t : Triple) (h : HasProof c level first t) (hb : c.rules.Below level t) : ¬ first.Gone t
  disproved_iff (t : Triple) : first.Has disproved t ↔ first.Has deleted t
  deleted (t : Triple) (h : first.Has deleted t) : c.rules.Below level t
  own (a : c.rules.Instance level)
    (h : ∀ k u, a.Premise k u → first.Before u ∧ ¬ first.Gone u) (k : Nat) (u : Triple)
    (hk : a.Premise k u) (hs : c.rules.isSupporting a.rule k = true) :
    c.rules.At level u ∨ first.Asserted u

variable {c : Context} {s : Scene c} {task : DeletionTask} {r r' r'' : Run} {t u : Triple}
  {new : Set Triple} {row : Nat}

namespace Scene

/-- The facts of the level that have a proof, and those that the proofs need. -/
def provable (s : Scene c) : Set Triple := {t | HasProof c s.level s.first t}

/-- An instance of a rule of the level. -/
abbrev Instance (s : Scene c) := c.rules.Instance s.level

/-- An instance proves its conclusions: its premises have a proof, and its blockers are not there. -/
abbrev Proves (s : Scene c) (a : s.Instance) : Prop := a.Holds (· ∈ s.provable) s.first.WithAdded

theorem closes (s : Scene c) (a : s.Instance) (ha : s.Proves a) (ht : a.Concludes t) :
    t ∈ s.provable :=
  .rule a ha.premises ha.blockers ht

/-- A premise that is not supporting is of a lower level. -/
theorem below_of_not_supporting (s : Scene c) (a : s.Instance) {k : Nat} (hk : a.Premise k u)
    (hs : ¬ c.rules.isSupporting a.rule k = true) : c.rules.Below s.level u :=
  (a.upto_of_premise s.basic.builds s.leveled hk).resolve_right fun hat =>
    hs (a.supporting_of_at s.basic.builds s.leveled hk hat)

end Scene

/-- A fact may have a proof: it was there before and is not disproved. -/
def Possible (r : Run) (t : Triple) : Prop :=
  r.Before t ∧ ¬ (r.Has disproved t ∧ ¬ r.Has added t)

theorem isDisproved_iff (hf : r.table.fact? row = some t) :
    r.isDisproved row = true ↔ r.Has disproved t ∧ ¬ r.Has added t := by
  rw [Run.isDisproved, Flag.only_disproved, Run.has_iff hf, Run.has_iff hf]
  simp

theorem possible_iff (hf : r.table.fact? row = some t) :
    (Standing.before (r.table.status row) && !r.isDisproved row) = true ↔ Possible r t := by
  rw [Possible, Run.before_iff hf, Bool.and_eq_true, Bool.not_eq_true', Bool.eq_false_iff, ne_eq,
    isDisproved_iff hf]

theorem present_supports {o : Occurrence} :
    ((c.view supports).snapshot r).Present .supportingPositive o u ↔ Possible r u := by
  rw [View.present_iff]
  constructor
  · rintro ⟨row, hf, hp⟩
    exact (possible_iff hf).mp hp
  · intro hp
    obtain ⟨row, hf⟩ := hp.1.mem
    exact ⟨row, hf, (possible_iff hf).mpr hp⟩

/-! ## Runs of a search -/

/-- `r` is a run of the search of a level. What was disproved in it has no proof. -/
structure Since (s : Scene c) (r : Run) : Prop where
  table_eq : r.table = s.first.table
  added_eq (row : Nat) : (r.flags row).any added = (s.first.flags row).any added
  disproved (t : Triple) (h : s.first.Has disproved t) : r.Has disproved t
  failed (t : Triple) (h : r.Has Flag.Update.disproved t) :
    s.first.Has Flag.Update.disproved t ∨
      s.first.Before t ∧ c.rules.At s.level t ∧ t ∉ s.provable

namespace Since

theorem congr (h : Since s r) (ht : r'.table = r.table) (hf : r'.update.flags = r.update.flags) :
    Since s r' := by
  have hflags : r'.flags = r.flags := congrArg Marks.flags hf
  have hhas : ∀ {b t}, r'.Has b t ↔ r.Has b t := Run.has_congr ht fun row => by rw [hflags]
  refine ⟨ht.trans h.table_eq, fun row => ?_, fun t ht => hhas.mpr (h.disproved t ht),
    fun t ht => h.failed t (hhas.mp ht)⟩
  rw [hflags]
  exact h.added_eq row

theorem before_iff (h : Since s r) : r.Before t ↔ s.first.Before t := Run.before_congr h.table_eq

theorem asserted_iff (h : Since s r) : r.Asserted t ↔ s.first.Asserted t :=
  Run.asserted_congr h.table_eq

theorem added_iff (h : Since s r) : r.Has added t ↔ s.first.Has added t :=
  Run.has_congr h.table_eq h.added_eq

theorem withAdded_iff (h : Since s r) : r.WithAdded t ↔ s.first.WithAdded t := by
  rw [Run.WithAdded, Run.WithAdded, h.before_iff, h.added_iff]

theorem exists_row (h : Since s r) (ht : t ∈ s.provable) : ∃ row, r.table.fact? row = some t :=
  (h.before_iff.mpr (s.before t ht)).mem

/-- What has a proof is possible. -/
theorem possible (h : Since s r) (ht : t ∈ s.provable) : Possible r t := by
  refine ⟨h.before_iff.mpr (s.before t ht), fun ⟨hd, ha⟩ => ?_⟩
  rcases h.failed t hd with hd | ⟨-, -, hn⟩
  · have hdel := (s.disproved_iff t).mp hd
    exact s.kept t ht (s.deleted t hdel) ⟨hdel, mt h.added_iff.mpr ha⟩
  · exact hn ht

theorem kept (h : Since s r) (ht : Possible r t) : s.first.Before t ∧ ¬ s.first.Gone t :=
  ⟨h.before_iff.mp ht.1, fun hg =>
    ht.2 ⟨h.disproved t ((s.disproved_iff t).mpr hg.1), mt h.added_iff.mp hg.2⟩⟩

/-- What is possible has a proof if it is of a lower level. -/
theorem provable_of_below (h : Since s r) (ht : Possible r t) (hb : c.rules.Below s.level t) :
    t ∈ s.provable :=
  .ground (h.kept ht).1 (.inr ⟨hb, (h.kept ht).2⟩)

/-- A possible premise has a proof, if it has one in case it is supporting. -/
theorem provable_of_premise (h : Since s r) (a : s.Instance) {k : Nat} (hk : a.Premise k u)
    (hs : c.rules.isSupporting a.rule k = true → u ∈ s.provable)
    (hp : ¬ c.rules.isSupporting a.rule k = true → Possible r u) : u ∈ s.provable := by
  by_cases hsup : c.rules.isSupporting a.rule k = true
  · exact hs hsup
  · exact h.provable_of_below (hp hsup) (s.below_of_not_supporting a hk hsup)

end Since

/-- A fact needs no search to be proved. -/
def Obvious (s : Scene c) (r : Run) (t : Triple) : Prop :=
  r.Asserted t ∨ r.HasAtLevel delayed t ∨ ∃ a : s.Instance, a.indexed.recursive = false ∧
    a.Concludes t ∧ s.Proves a

/-- What holds while facts are proved. Facts that were examined are proved if that is obvious, but for
those in `new`, whose examination only begins. -/
structure Proving (s : Scene c) (new : Set Triple) (r : Run) : Prop extends Since s r where
  plain : r.Plain
  lists : Lists r.table (r.HasAtLevel provedNew) (r.listed .proved)
  proved (t : Triple) (h : r.HasAtLevel proved t) : r.HasAtLevel provedNew t
  queued (t : Triple) (h : r.HasAtLevel provedNew t) : r.HasAtLevel checked t ∧ t ∈ s.provable
  delayed (t : Triple) (h : r.HasAtLevel delayed t) : t ∈ s.provable
  examined (t : Triple) (h : r.HasAtLevel checked t) :
    r.Before t ∧ (c.rules.At s.level t ∨ r.Asserted t)
  obvious (t : Triple) (h : r.HasAtLevel checked t) (hn : t ∉ new) (ho : Obvious s r t) :
    r.HasAtLevel provedNew t

/-- `r'` is `r` once a fact has a flag at the level. -/
structure Flagged (b : Flags) (t : Triple) (r r' : Run) : Prop where
  eq : ∃ levelFlags, r' = { r with update := { r.update with levelFlags } }
  flags (row : Nat) (b' : Flags) (h : b.any b' = false) :
    (r'.levelFlags row).any b' = (r.levelFlags row).any b'
  has_iff (b' : Flags) (u : Triple) :
    r'.HasAtLevel b' u ↔ r.HasAtLevel b' u ∨ (b.any b' = true ∧ u = t)
  plain : r'.Plain

theorem flag_wp {b : Flags} (hb : Bits.IsBit b) (hm : b.any provedMerged = false) (hp : r.Plain)
    (hf : r.table.fact? row = some t) {Q : Bool → Run → Prop}
    (h : ∀ isNew r', (isNew = true ↔ ¬ r.HasAtLevel b t) → Flagged b t r r' → Q isNew r') :
    WP (Routine.addLevelFlags row b) r Q := by
  refine Routine.addLevelFlags_wp hb (hp.row_lt hf) fun m ha => h _ _ ?_ ⟨⟨m, rfl⟩,
    fun other b' hb' => ?_, fun b' u => ha.holds_iff hf, hp.withMarks (l := .level) hf ha hm⟩
  · rw [Run.hasAtLevel_iff hf, Bool.not_eq_true', Bool.not_eq_true]
  · exact (ha.any b' other).trans (by rw [hb', Bool.and_false, Bool.or_false]; rfl)

namespace Flagged

variable {b b' : Flags}

theorem has_of_ne (h : Flagged b t r r') (hb : b.any b' = false) :
    r'.HasAtLevel b' u ↔ r.HasAtLevel b' u := by
  rw [h.has_iff, hb]
  simp

theorem has_self (h : Flagged b t r r') (hb : Bits.IsBit b) :
    r'.HasAtLevel b u ↔ r.HasAtLevel b u ∨ u = t := by
  rw [h.has_iff, hb.any_self]
  simp

theorem since (h : Flagged b t r r') (hs : Since s r) : Since s r' := by
  obtain ⟨_, rfl⟩ := h.eq
  exact hs.congr rfl rfl

theorem table_eq (h : Flagged b t r r') : r'.table = r.table := by
  obtain ⟨_, rfl⟩ := h.eq
  rfl

theorem listed_eq (h : Flagged b t r r') : r'.listed .proved = r.listed .proved := by
  obtain ⟨_, rfl⟩ := h.eq
  rfl

theorem before_iff (h : Flagged b t r r') : r'.Before u ↔ r.Before u := Run.before_congr h.table_eq

theorem asserted_iff (h : Flagged b t r r') : r'.Asserted u ↔ r.Asserted u :=
  Run.asserted_congr h.table_eq

end Flagged

namespace Proving

/-- While a head is traced back, a negated literal finds what is there, additions counted. -/
theorem present_supportingNegative (h : Proving s new r) {o : Occurrence} :
    ((c.view supports).snapshot r).Present .supportingNegative o u ↔ s.first.WithAdded u :=
  (View.present_iff.trans h.plain.holds_withAdded_iff).trans h.withAdded_iff

/-- So it does while rules are applied to what is proved. -/
theorem present_negative (h : Proving s new r) {o : Occurrence} :
    ((c.provingView (forwardFilter c task row)).snapshot r).Present .negativeAtOrAfterPivot o u ↔
      s.first.WithAdded u :=
  (View.present_iff.trans h.plain.holds_withAdded_iff).trans h.withAdded_iff

theorem journal (h : Proving s new r) (journal : Array Entry) : Proving s new { r with journal } :=
  { h with plain := { h.plain with } }

/-- A fact that was examined is queued as proved. -/
theorem queue (h : Proving s new r) (hf : r.table.fact? row = some t) (ht : t ∈ s.provable)
    (hc : r.HasAtLevel checked t) (hm : Routine.Marked .level .proved provedNew row t r r') :
    Proving s new r' := by
  have hsame : ∀ {b u}, provedNew.any b = false → (r'.HasAtLevel b u ↔ r.HasAtLevel b u) :=
    fun hb => hm.has_of_ne hb
  have hnew : ∀ {u}, r'.HasAtLevel provedNew u ↔ r.HasAtLevel provedNew u ∨ u = t :=
    hm.has_self Bits.isBit_provedNew
  have hsince : Since s r' := by
    obtain ⟨_, _, rfl⟩ := hm.eq
    exact h.toSince.congr rfl rfl
  refine { hsince with
    plain := hm.plain
    lists := hm.lists Bits.isBit_provedNew hf h.lists
    proved := fun u hu => hnew.mpr (.inl (h.proved u ((hsame rfl).mp hu)))
    queued := fun u hu => ?_
    delayed := fun u hu => h.delayed u ((hsame rfl).mp hu)
    examined := fun u hu => ?_
    obvious := fun u hu hn ho => hnew.mpr (.inl (h.obvious u ((hsame rfl).mp hu) hn ?_)) }
  · rw [hsame rfl]
    rcases hnew.mp hu with hu | rfl
    · exact h.queued u hu
    · exact ⟨hc, ht⟩
  · rw [Run.before_congr hm.table_eq, Run.asserted_congr hm.table_eq]
    exact h.examined u ((hsame rfl).mp hu)
  · rwa [Obvious, Run.asserted_congr hm.table_eq, hsame rfl] at ho

/-- A fact gets a flag that does not queue it: what the flag says of it has to hold, and what becomes
obvious or is no longer new has to be proved. -/
theorem flag {b : Flags} {new' : Set Triple} (h : Proving s new r) (hfl : Flagged b t r r')
    (hb : b.any provedNew = false)
    (hproved : b.any Flag.Level.proved = true → r.HasAtLevel provedNew t)
    (hdelayed : b.any Flag.Level.delayed = true → t ∈ s.provable)
    (hchecked : b.any checked = true → r.Before t ∧ (c.rules.At s.level t ∨ r.Asserted t))
    (hobvious : ∀ u, r'.HasAtLevel checked u → u ∉ new' → Obvious s r' u →
      r.HasAtLevel checked u ∧ u ∉ new ∧ Obvious s r u) : Proving s new' r' := by
  refine { hfl.since h.toSince with
    plain := hfl.plain
    lists := ?_
    proved := fun u hu => (hfl.has_of_ne hb).mpr ?_
    queued := fun u hu => ?_
    delayed := fun u hu => ?_
    examined := fun u hu => ?_
    obvious := fun u hu hn ho => (hfl.has_of_ne hb).mpr ?_ }
  · rw [hfl.table_eq, hfl.listed_eq]
    exact h.lists.congr fun u => hfl.has_of_ne hb
  · rcases (hfl.has_iff _ u).mp hu with hu | ⟨hp, rfl⟩
    · exact h.proved u hu
    · exact hproved hp
  · obtain ⟨hc, ht⟩ := h.queued u ((hfl.has_of_ne hb).mp hu)
    exact ⟨(hfl.has_iff _ u).mpr (.inl hc), ht⟩
  · rcases (hfl.has_iff _ u).mp hu with hu | ⟨hd, rfl⟩
    · exact h.delayed u hu
    · exact hdelayed hd
  · rw [hfl.before_iff, hfl.asserted_iff]
    rcases (hfl.has_iff _ u).mp hu with hu | ⟨hc, rfl⟩
    · exact h.examined u hu
    · exact hchecked hc
  · obtain ⟨hc, hn, ho⟩ := hobvious u hu hn ho
    exact h.obvious u hc hn ho

/-- A fact that was not examined is delayed. -/
theorem delay (h : Proving s new r) (ht : t ∈ s.provable) (hc : ¬ r.HasAtLevel checked t)
    (hfl : Flagged Flag.Level.delayed t r r') : Proving s new r' := by
  refine h.flag hfl rfl (fun hh => absurd hh Bool.false_ne_true) (fun _ => ht)
    (fun hh => absurd hh Bool.false_ne_true) fun u hu hn ho => ?_
  have hu := (hfl.has_of_ne rfl).mp hu
  rw [Obvious, hfl.asserted_iff, hfl.has_self Bits.isBit_delayed] at ho
  refine ⟨hu, hn, ho.imp_right (Or.imp_left fun hd => hd.resolve_right ?_)⟩
  rintro rfl
  exact hc hu

/-- A queued fact is proved. -/
theorem prove (h : Proving s new r) (ht : r.HasAtLevel provedNew t)
    (hfl : Flagged Flag.Level.proved t r r') : Proving s new r' := by
  refine h.flag hfl rfl (fun _ => ht) (fun hh => absurd hh Bool.false_ne_true)
    (fun hh => absurd hh Bool.false_ne_true) fun u hu hn ho => ⟨(hfl.has_of_ne rfl).mp hu, hn, ?_⟩
  rwa [Obvious, hfl.asserted_iff, hfl.has_of_ne rfl] at ho

/-- The examination of a fact begins. -/
theorem takeUp (h : Proving s ∅ r) (hb : r.Before t) (ht : c.rules.At s.level t ∨ r.Asserted t)
    (hfl : Flagged checked t r r') : Proving s {t} r' := by
  refine h.flag hfl rfl (fun hh => absurd hh Bool.false_ne_true)
    (fun hh => absurd hh Bool.false_ne_true) (fun _ => ⟨hb, ht⟩) fun u hu hn ho =>
    ⟨((hfl.has_self Bits.isBit_checked).mp hu).resolve_right hn, id, ?_⟩
  rwa [Obvious, hfl.asserted_iff, hfl.has_of_ne rfl] at ho

end Proving

/-! ## Recording what is proved -/

/-- `r'` is `r` with more facts queued as proved or delayed. -/
structure Records (r r' : Run) : Prop where
  eq : ∃ journal levelFlags proved,
    r' = { r with journal, update := { r.update with levelFlags, proved } }
  flags (row : Nat) (b : Flags) (h : provedNew.any b = false) (h' : delayed.any b = false) :
    (r'.levelFlags row).any b = (r.levelFlags row).any b
  has (b : Flags) (t : Triple) (h : r.HasAtLevel b t) : r'.HasAtLevel b t
  listed : r.listed .proved <+: r'.listed .proved
  cursor : r'.update.proved.cursor = r.update.proved.cursor

namespace Records

theorem refl (r : Run) : Records r r :=
  ⟨⟨_, _, _, rfl⟩, fun _ _ _ _ => rfl, fun _ _ => id, List.prefix_refl _, rfl⟩

theorem trans (h : Records r r') (h' : Records r' r'') : Records r r'' := by
  refine ⟨?_, fun row b hb hb' => (h'.flags row b hb hb').trans (h.flags row b hb hb'),
    fun b t ht => h'.has b t (h.has b t ht), h.listed.trans h'.listed, h'.cursor.trans h.cursor⟩
  obtain ⟨_, _, _, rfl⟩ := h.eq
  obtain ⟨_, _, _, rfl⟩ := h'.eq
  exact ⟨_, _, _, rfl⟩

theorem journal (h : Records r r') (journal : Array Entry) : Records r { r' with journal } := by
  refine { h with eq := ?_ }
  obtain ⟨_, _, _, rfl⟩ := h.eq
  exact ⟨_, _, _, rfl⟩

theorem table_eq (h : Records r r') : r'.table = r.table := by
  obtain ⟨_, _, _, rfl⟩ := h.eq
  rfl

theorem flags_eq (h : Records r r') : r'.flags = r.flags := by
  obtain ⟨_, _, _, rfl⟩ := h.eq
  rfl

theorem has_iff (h : Records r r') {b : Flags} (hb : provedNew.any b = false)
    (hb' : delayed.any b = false) : r'.HasAtLevel b t ↔ r.HasAtLevel b t :=
  Run.hasAtLevel_congr h.table_eq fun row => h.flags row b hb hb'

/-- What is recorded does not matter to the rules that are applied forward. -/
theorem snapshot_eq (h : Records r r') : (c.provingView (forwardFilter c task row)).snapshot r' =
    (c.provingView (forwardFilter c task row)).snapshot r := by
  have ht := h.table_eq
  have hnormal : ∀ other, r'.isProvedNormal other = r.isProvedNormal other := fun other => by
    rw [Run.isProvedNormal, Run.isProvedNormal, Flag.only_proved, Flag.only_proved,
      h.flags other _ rfl rfl, h.flags other _ rfl rfl]
  have hdisproved : ∀ other, r'.isDisproved other = r.isDisproved other := fun other => by
    rw [Run.isDisproved, Run.isDisproved, h.flags_eq]
  have hstanding : ∀ other status, r'.standing other status = r.standing other status :=
    fun other status => by rw [Run.standing, Run.standing, h.flags_eq]
  refine View.snapshot_congr _ ?_ ?_ (fun role o other _ => ?_) fun role o other t hrow hlt => ?_
  · show c.proving? r' = c.proving? r
    obtain ⟨_, _, _, rfl⟩ := h.eq
    rfl
  · show r.table.Extends r'.table
    rw [ht]
    exact .refl _
  · show forwardFilter c task row r' role o other (r'.table.status other) = _
    rw [ht]
    cases role <;> simp only [forwardFilter, hnormal, hdisproved, hstanding] <;> rfl
  · have hb := (Table.fact?_bounds (show r'.table.fact? other = some t from hrow)).2
    have hlt : r.table.size < other := hlt
    rw [ht] at hb
    omega

end Records

/-- A fact with a proof is recorded: it is queued if it was examined, and delayed if not. -/
theorem record_wp (h : Proving s new r) (ht : t ∈ s.provable) :
    WP (record c t) r fun _ r' => Proving s new r' ∧ Records r r' ∧
      (r'.HasAtLevel provedNew t ∨ r'.HasAtLevel delayed t) := by
  obtain ⟨row, hf⟩ := h.exists_row ht
  rw [record, WP.bind_iff]
  refine Routine.rowOf_of_fact hf ?_
  rw [WP.bind_iff]
  refine Routine.reads_wp ?_
  rw [examinedRow?, s.basic.steady_eq]
  dsimp only [Option.any_some]
  split
  · rename_i hc
    refine Routine.mark_wp (l := .level) (w := .proved) Bits.isBit_provedNew rfl h.plain hf
      fun isNew r₁ _ hm => WP.pure_iff.mpr
        ⟨h.queue hf ht ((Run.hasAtLevel_iff hf).mpr hc) hm, ?_, ?_⟩
    · refine ⟨?_, fun other b hb _ => hm.flags other b hb, fun b u hu => (hm.has_iff b u).mpr (.inl hu),
        hm.listed, hm.cursor⟩
      obtain ⟨_, _, rfl⟩ := hm.eq
      exact ⟨_, _, _, rfl⟩
    · exact .inl ((hm.has_self Bits.isBit_provedNew).mpr (.inr rfl))
  · rename_i hc
    rw [WP.bind_iff]
    refine flag_wp Bits.isBit_delayed rfl h.plain hf fun isNew r₁ _ hfl => WP.pure_iff.mpr
      ⟨h.delay ht (fun hh => hc ((Run.hasAtLevel_iff hf).mp hh)) hfl, ?_, ?_⟩
    · refine ⟨?_, fun other b _ hb => hfl.flags other b hb,
        fun b u hu => (hfl.has_iff b u).mpr (.inl hu), ?_, ?_⟩
      · obtain ⟨_, rfl⟩ := hfl.eq
        exact ⟨_, _, _, rfl⟩
      · rw [hfl.listed_eq]
      · obtain ⟨_, rfl⟩ := hfl.eq
        rfl
    · exact .inr ((hfl.has_self Bits.isBit_delayed).mpr (.inr rfl))

/-- What a rule derives from facts proved is recorded. -/
theorem prove_wp (h : Proving s new r) (ht : t ∈ s.provable) :
    WP (prove c task t) r fun _ r' => Proving s new r' ∧ Records r r' ∧
      (r'.HasAtLevel provedNew t ∨ r'.HasAtLevel delayed t) := by
  have hequality := s.basic.equality
  rw [prove, hequality, WP.bind_iff]
  refine Routine.reads_wp ?_
  simp only [Bool.not_false, Bool.true_or, if_true]
  rw [WP.bind_iff]
  refine (record_wp h ht).mono ?_
  rintro recorded r₁ ⟨h₁, hr₁, hd⟩
  have hreport : ∀ journal, Proving s new { r₁ with journal } ∧ Records r { r₁ with journal } ∧
      (Run.HasAtLevel { r₁ with journal } provedNew t ∨ Run.HasAtLevel { r₁ with journal } delayed t) :=
    fun journal => ⟨h₁.journal journal, hr₁.journal journal, hd⟩
  rw [WP.bind_iff]
  have hno : ¬ (recorded = .queued true ∧ false = true ∧ t.isSameAs = true ∧ t.subject ≠ t.object) :=
    fun hh => by cases hh.2.1
  rw [if_neg hno]
  cases recorded with
  | queued isNew => exact Context.announce_wp s.basic.stop fun journal => WP.pure_iff.mpr (hreport journal)
  | delayed isNew =>
    cases isNew with
    | true => exact Context.announce_wp s.basic.stop fun journal => WP.pure_iff.mpr (hreport journal)
    | false => exact WP.pure_iff.mpr (WP.pure_iff.mpr ⟨h₁, hr₁, hd⟩)

/-! ## Applying rules to what is proved -/

/-- If an instance proves its conclusions, and its supporting premises, of which there is one at least,
are proved, then the conclusions are recorded. -/
def Applied (s : Scene c) (r : Run) : Prop :=
  ∀ a : s.Instance, s.Proves a →
    (∀ k u, a.Premise k u → c.rules.isSupporting a.rule k = true → r.HasAtLevel proved u) →
    (∃ k u, a.Premise k u ∧ c.rules.isSupporting a.rule k = true) →
    ∀ head, a.Concludes head → r.HasAtLevel provedNew head ∨ r.HasAtLevel delayed head

/-- `r'` is `r` with more facts proved. -/
structure Saturates (r r' : Run) : Prop where
  eq : ∃ journal polls levelFlags proved,
    r' = { r with journal, polls, update := { r.update with levelFlags, proved } }
  checked_eq (row : Nat) : (r'.levelFlags row).any checked = (r.levelFlags row).any checked
  has (b : Flags) (t : Triple) (h : r.HasAtLevel b t) : r'.HasAtLevel b t
  listed : r.listed .proved <+: r'.listed .proved

namespace Saturates

theorem refl (r : Run) : Saturates r r :=
  ⟨⟨_, _, _, _, rfl⟩, fun _ => rfl, fun _ _ => id, List.prefix_refl _⟩

theorem trans (h : Saturates r r') (h' : Saturates r' r'') : Saturates r r'' := by
  refine ⟨?_, fun row => (h'.checked_eq row).trans (h.checked_eq row),
    fun b t ht => h'.has b t (h.has b t ht), h.listed.trans h'.listed⟩
  obtain ⟨_, _, _, _, rfl⟩ := h.eq
  obtain ⟨_, _, _, _, rfl⟩ := h'.eq
  exact ⟨_, _, _, _, rfl⟩

theorem table_eq (h : Saturates r r') : r'.table = r.table := by
  obtain ⟨_, _, _, _, rfl⟩ := h.eq
  rfl

theorem checked_iff (h : Saturates r r') : r'.HasAtLevel checked t ↔ r.HasAtLevel checked t :=
  Run.hasAtLevel_congr h.table_eq h.checked_eq

end Saturates

theorem Records.saturates (h : Records r r') : Saturates r r' := by
  refine ⟨?_, fun row => h.flags row checked rfl rfl, h.has, h.listed⟩
  obtain ⟨_, _, _, rfl⟩ := h.eq
  exact ⟨_, _, _, _, rfl⟩

section forward

variable (hlevel : task.level = s.level) {other k : Nat} {role : Role}
  (hrole : role = .positiveBeforePivot ∨ role = .positiveAfterPivot)

include hlevel hrole

/-- A supporting literal finds the facts proved, before the pivot only those in other rows. -/
theorem forwardFilter_of_supporting (hp : r.Plain) (a : s.Instance) (hk : a.Premise k u)
    (hs : c.rules.isSupporting a.rule k = true) (hf : r.table.fact? other = some u) :
    forwardFilter c task row r role (a.occurrence k) other (r.table.status other) = true ↔
      r.HasAtLevel proved u ∧ (role = .positiveAfterPivot ∨ other ≠ row) := by
  have hcond := (a.isSupporting_iff s.basic.builds s.leveled hk).mp hs
  rw [s.basic.builds.byLevels_eq] at hcond
  have hnormal : r.isProvedNormal other = true ↔ r.HasAtLevel proved u := by
    rw [Run.isProvedNormal, Flag.only_proved, hp.provedMerged, Run.hasAtLevel_iff hf]
    simp
  rcases hrole with rfl | rfl
  · simp only [forwardFilter, hlevel, hcond, Bool.false_eq_true, if_false, Bool.and_eq_true, hnormal,
      bne_iff_ne, Bool.or_eq_true, beq_iff_eq]
  · simp only [forwardFilter, hlevel, hcond, Bool.false_eq_true, if_false, Bool.and_eq_true, hnormal,
      bne_iff_ne, Bool.or_eq_true, beq_iff_eq]

/-- Any other literal finds what is possible. -/
theorem forwardFilter_of_not_supporting (a : s.Instance) (hk : a.Premise k u)
    (hs : ¬ c.rules.isSupporting a.rule k = true) (hf : r.table.fact? other = some u) :
    forwardFilter c task row r role (a.occurrence k) other (r.table.status other) = true ↔
      Possible r u := by
  have hcond := mt (a.isSupporting_iff s.basic.builds s.leveled hk).mpr hs
  rw [s.basic.builds.byLevels_eq, Bool.not_eq_false] at hcond
  rw [← possible_iff hf]
  rcases hrole with rfl | rfl <;> simp only [forwardFilter, hlevel, hcond, if_true]

/-- A literal finds the premise of an instance that proves its conclusions, if a supporting premise is
proved and, before the pivot, not the pivot's fact. -/
theorem present_forward (h : Proving s new r) (hf : r.table.fact? row = some t) (a : s.Instance)
    (ha : s.Proves a) (hk : a.Premise k u)
    (hs : c.rules.isSupporting a.rule k = true →
      r.HasAtLevel proved u ∧ (role = .positiveAfterPivot ∨ u ≠ t)) :
    ((c.provingView (forwardFilter c task row)).snapshot r).Present role (a.occurrence k) u := by
  obtain ⟨other, ho⟩ := h.exists_row (ha.premises k u hk)
  refine View.present_iff.mpr ⟨other, ho, ?_⟩
  by_cases hsup : c.rules.isSupporting a.rule k = true
  · obtain ⟨hp, hne⟩ := hs hsup
    exact (forwardFilter_of_supporting hlevel hrole h.plain a hk hsup ho).mpr
      ⟨hp, hne.imp_right (Table.row_ne hf ho)⟩
  · exact (forwardFilter_of_not_supporting hlevel hrole a hk hsup ho).mpr
      (h.possible (ha.premises k u hk))

omit hrole

/-- An instance that proves its conclusions yields them when the rules are applied to one of its
supporting premises, once they are all proved. -/
theorem emits_forward {head : Triple} (h : Proving s new r) (hf : r.table.fact? row = some t)
    (a : s.Instance) (ha : s.Proves a)
    (hprem : ∀ k u, a.Premise k u → c.rules.isSupporting a.rule k = true → r.HasAtLevel proved u)
    (hk : a.Premise k t) (hs : c.rules.isSupporting a.rule k = true) (hhead : a.Concludes head) :
    c.rules.Emits ((c.provingView (forwardFilter c task row)).snapshot r) (.ofLevel s.level) .positive t
      head := by
  refine a.emits_of_premise (P := fun k => c.rules.isSupporting a.rule k = true)
    (s.basic.proving_eq r) hk hs (fun j v hv hne => ?_) (fun j v hv => ?_)
    (fun j v hj hp => ha.blockers j v hj (h.present_negative.mp hp)) hhead
  · exact present_forward hlevel (.inl rfl) h hf a ha hv fun hsj =>
      ⟨hprem j v hv hsj, .inr fun he => hne ⟨hsj, he⟩⟩
  · exact present_forward hlevel (.inr rfl) h hf a ha hv fun hsj => ⟨hprem j v hv hsj, .inl rfl⟩

/-- The rules are applied to a fact that is proved now. -/
theorem applyForward_wp (h : Proving s new r) (ht : r.HasAtLevel proved t) :
    WP (c.rules.applyToPositive (c.provingView (forwardFilter c task row)) row t task.scope
      fun _ head => prove c task head) r fun _ r' => Proving s new r' ∧ Records r r' ∧
        ∀ head, c.rules.Emits ((c.provingView (forwardFilter c task row)).snapshot r)
          (.ofLevel s.level) .positive t head → r'.HasAtLevel provedNew head ∨ r'.HasAtLevel delayed head := by
  have hclasses : ((c.provingView (forwardFilter c task row)).snapshot r).classes = none :=
    s.basic.proving_eq r
  rw [DeletionTask.scope, hlevel]
  refine (RuleIndex.apply_handles (c.provingView (forwardFilter c task row))
    (n := (c.provingView (forwardFilter c task row)).snapshot r)
    (fun r' => Proving s new r' ∧ Records r r')
    (fun head r' => r'.HasAtLevel provedNew head ∨ r'.HasAtLevel delayed head)
    row (.ofLevel s.level) (fun _ head => prove c task head) s.basic.simple rfl
    (fun r' hr' => hr'.2.snapshot_eq) .positive (t := t) ?_ r ⟨h, .refl r⟩).mono ?_
  · rintro rule head hemits r₁ ⟨h₁, hr₁⟩
    obtain ⟨a, k, hk, hhead, hother, hblock⟩ := hemits.exists_instance hclasses
    have hk : a.Premise k t := hk
    -- every premise has a proof, the pivot because it is proved
    have hprem : ∀ j u, a.Premise j u → u ∈ s.provable := fun j u hu => by
      by_cases hj : j = k
      · subst hj
        obtain rfl := hk.unique hu
        exact (h.queued t (h.proved t ht)).2
      · have hrole : RuleIndex.Polarity.positiveRole k j .positive = .positiveBeforePivot ∨
            RuleIndex.Polarity.positiveRole k j .positive = .positiveAfterPivot := by
          rw [RuleIndex.Polarity.positiveRole]
          split
          · exact .inl rfl
          · exact .inr rfl
        obtain ⟨other, ho, hp⟩ := View.present_iff.mp (hother j u hj hu)
        refine h.provable_of_premise a hu (fun hs => ?_) fun hs => ?_
        · exact (h.queued u (h.proved u
            ((forwardFilter_of_supporting hlevel hrole h.plain a hu hs ho).mp hp).1)).2
        · exact (forwardFilter_of_not_supporting hlevel hrole a hu hs ho).mp hp
    have hproves : s.Proves a := ⟨hprem, fun j u hj hu =>
      hblock j u (fun hjk => (hjk ▸ hj).not_premise hk) hj (h.present_negative.mpr hu)⟩
    refine (prove_wp h₁ (s.closes a hproves hhead)).mono ?_
    rintro _ r₂ ⟨h₂, hr₂, hd⟩
    exact ⟨⟨h₂, hr₁.trans hr₂⟩, fun u hu => hu ▸ hd, fun u hu => hu.imp (hr₂.has _ u) (hr₂.has _ u)⟩
  · rintro _ r' ⟨⟨h', hr'⟩, hd, _⟩
    exact ⟨h', hr', hd⟩

/-- A queued fact is proved, and whatever follows from it with other facts proved is recorded. -/
theorem forward_wp (h : Proving s new r) (happ : Applied s r) (hf : r.table.fact? row = some t)
    (ht : r.HasAtLevel provedNew t) :
    WP (forward c task row) r fun _ r' => Proving s new r' ∧ Applied s r' ∧ Saturates r r' ∧
      r'.update.proved.cursor = r.update.proved.cursor ∧ r'.HasAtLevel proved t := by
  have hfresh : ((r.levelFlags row).only (proved ||| provedMerged ||| provedNew) provedNew) = true ↔
      ¬ r.HasAtLevel proved t := by
    rw [Flag.only_provedNew, h.plain.provedMerged, (Run.hasAtLevel_iff hf).mp ht,
      Run.hasAtLevel_iff hf]
    simp
  rw [forward, WP.bind_iff]
  refine Routine.reads_wp ?_
  by_cases hp : r.HasAtLevel proved t
  · rw [if_neg (fun hh => hfresh.mp hh hp)]
    exact WP.pure_iff.mpr ⟨h, happ, .refl r, rfl, hp⟩
  · rw [if_pos (hfresh.mpr hp), WP.bind_iff, WP.discard_iff]
    refine flag_wp Bits.isBit_proved rfl h.plain hf fun _ r₁ _ hfl => ?_
    have h₁ := h.prove ht hfl
    have hf₁ : r₁.table.fact? row = some t := by rwa [hfl.table_eq]
    have hproved : ∀ {u}, r₁.HasAtLevel proved u ↔ r.HasAtLevel proved u ∨ u = t :=
      hfl.has_self Bits.isBit_proved
    have hsat₁ : Saturates r r₁ := by
      refine ⟨?_, fun other => hfl.flags other checked rfl, fun b u hu => (hfl.has_iff b u).mpr (.inl hu),
        by rw [hfl.listed_eq]⟩
      obtain ⟨_, rfl⟩ := hfl.eq
      exact ⟨_, _, _, _, rfl⟩
    have hcursor : r₁.update.proved.cursor = r.update.proved.cursor := by
      obtain ⟨_, rfl⟩ := hfl.eq
      rfl
    rw [WP.bind_iff]
    refine Routine.factOf_wp hf₁ ?_
    rw [s.basic.equality]
    simp only [Bool.false_eq_true, if_false, pure_bind, if_true]
    refine (applyForward_wp hlevel h₁ (hproved.mpr (.inr rfl))).mono ?_
    rintro _ r₂ ⟨h₂, hr₂, hd⟩
    refine ⟨h₂, fun a ha hprem hsome head hhead => ?_, hsat₁.trans hr₂.saturates, hr₂.cursor.trans hcursor,
      hr₂.has _ t (hproved.mpr (.inr rfl))⟩
    have hprem₁ : ∀ k u, a.Premise k u → c.rules.isSupporting a.rule k = true →
        r₁.HasAtLevel proved u := fun k u hk hs => (hr₂.has_iff rfl rfl).mp (hprem k u hk hs)
    by_cases hpivot : ∃ k u, a.Premise k u ∧ c.rules.isSupporting a.rule k = true ∧ u = t
    · obtain ⟨k, u, hk, hs, rfl⟩ := hpivot
      exact hd head (emits_forward hlevel h₁ hf₁ a ha hprem₁ hk hs hhead)
    · -- the instance does not need `t`
      have hprem : ∀ k u, a.Premise k u → c.rules.isSupporting a.rule k = true →
          r.HasAtLevel proved u := fun k u hk hs =>
        (hproved.mp (hprem₁ k u hk hs)).resolve_right fun he => hpivot ⟨k, u, hk, hs, he⟩
      exact (happ a ha hprem hsome head hhead).imp
        (fun hh => hr₂.has _ head (hsat₁.has _ head hh))
        fun hh => hr₂.has _ head (hsat₁.has _ head hh)

end forward

/-! ## What needs no search -/

section obvious

variable (hlevel : task.level = s.level)

include hlevel

/-- Whether a rule that is not recursive derives a fact of the level from what has a proof. -/
theorem provedNonrecursively_eq (h : Proving s new r) (hat : c.rules.At s.level t) :
    ∃ b, c.rules.provedNonrecursively (c.view supports) t task.scope r = .ok b r ∧
      (b = true ↔ ∃ a : s.Instance, a.indexed.recursive = false ∧ a.Concludes t ∧ s.Proves a) := by
  have hclasses : ((c.view supports).snapshot r).classes = none := s.basic.steady_eq r
  obtain ⟨b, he, hb⟩ := RuleIndex.provedNonrecursively_spec (t := t) (c.view supports) s.basic.simple
    rfl rfl s.basic.builds (s := r) (.ofLevel s.level)
  rw [DeletionTask.scope, hlevel]
  refine ⟨b, he, hb.trans ⟨?_, ?_⟩⟩
  · rintro ⟨head, i, τ, hsup, -, hrec⟩
    obtain ⟨a, -, rfl, -, ht, hp, hblock⟩ :=
      RuleIndex.Instance.of_supports s.basic.builds s.leveled hsup hclasses hat
    refine ⟨a, hrec, ht, fun k u hk => h.provable_of_premise a hk (fun hs => ?_) fun _ =>
      present_supports.mp (hp k u hk), fun k u hk hu =>
      hblock k u hk (h.present_supportingNegative.mpr hu)⟩
    have := s.basic.builds.recursive_of_supporting a.rule?_eq hs
    rw [hrec] at this
    cases this
  · rintro ⟨a, hrec, ht, ha⟩
    obtain ⟨ref, -, hsup⟩ := a.exists_supports hclasses ht
      (fun k u hk => present_supports.mpr (h.possible (ha.premises k u hk)))
      fun k u hk hp => ha.blockers k u hk (h.present_supportingNegative.mp hp)
    exact ⟨ref, a.indexed, a.assignment, hsup, (RuleIndex.mem_inScope.mp a.mem).2, hrec⟩

omit hlevel

/-- What needs no search has a proof. -/
theorem provable_of_obvious (h : Proving s new r) (hc : r.HasAtLevel checked t)
    (ho : Obvious s r t) : t ∈ s.provable := by
  rcases ho with ha | hd | ⟨a, -, ht, ha⟩
  · exact .ground (h.before_iff.mp (h.examined t hc).1) (.inl (h.asserted_iff.mp ha))
  · exact h.delayed t hd
  · exact s.closes a ha ht

/-- `r'` is `r` once a fact that is examined from now on is queued as proved, if it needs no search. -/
structure Begins (s : Scene c) (row : RowIndex) (t : Triple) (r r' : Run) : Prop where
  proving : Proving s ∅ r'
  records : Records r r'
  only (u : Triple) (h : r'.HasAtLevel provedNew u) : r.HasAtLevel provedNew u ∨ u = t
  listed : (r'.HasAtLevel provedNew t ∧ r'.listed .proved = r.listed .proved ++ [row]) ∨
    (¬ r'.HasAtLevel provedNew t ∧ r'.listed .proved = r.listed .proved)

theorem queueProved_wp (h : Proving s {t} r) (hf : r.table.fact? row = some t)
    (hc : r.HasAtLevel checked t) (hn : ¬ r.HasAtLevel provedNew t) (ht : t ∈ s.provable)
    (fromAsserted fromDelayed fromRule : Bool) :
    WP (queueProved c row t fromAsserted fromDelayed fromRule) r fun _ r' => Begins s row t r r' := by
  rw [queueProved, WP.bind_iff]
  refine (Routine.add_wp (l := .level) .proved Bits.isBit_provedNew rfl h.plain hf).mono
    fun isNew r₁ hr₁ => ?_
  rcases hr₁ with ⟨-, hhad, -⟩ | ⟨rfl, -, hq⟩
  · exact absurd hhad hn
  · rw [if_pos rfl, WP.bind_iff]
    refine hq.mono fun _ r₂ hm => Context.announce_wp s.basic.stop fun journal => ?_
    have h₂ := h.queue hf ht hc hm
    have hnew : ∀ {u}, r₂.HasAtLevel provedNew u ↔ r.HasAtLevel provedNew u ∨ u = t :=
      hm.has_self Bits.isBit_provedNew
    have hrecords : Records r r₂ := by
      refine ⟨?_, fun other b hb _ => hm.flags other b hb, fun b u hu => (hm.has_iff b u).mpr (.inl hu),
        hm.listed, hm.cursor⟩
      obtain ⟨_, _, rfl⟩ := hm.eq
      exact ⟨_, _, _, rfl⟩
    refine ⟨{ h₂.journal journal with obvious := fun u hu _ ho => ?_ }, hrecords.journal journal,
      fun u => hnew.mp, .inl ⟨hnew.mpr (.inr rfl), hm.new hn⟩⟩
    by_cases hut : u = t
    · exact hnew.mpr (.inr hut)
    · exact h₂.obvious u hu hut ho

include hlevel

/-- A fact whose examination begins is queued as proved if it needs no search. -/
theorem queueObvious_wp (h : Proving s {t} r) (hf : r.table.fact? row = some t)
    (hc : r.HasAtLevel checked t) (hn : ¬ r.HasAtLevel provedNew t) :
    WP (queueObvious c task row t) r fun _ r' => Begins s row t r r' := by
  have hasserted : (r.table.status row).any Status.asserted = true ↔ r.Asserted t :=
    (Run.asserted_iff hf).symm
  have hdelayed : (r.levelFlags row).any delayed = true ↔ r.HasAtLevel delayed t :=
    (Run.hasAtLevel_iff hf).symm
  have hqueue : Obvious s r t → ∀ x y z, WP (queueProved c row t x y z) r fun _ r' => Begins s row t r r' :=
    fun ho => queueProved_wp h hf hc hn (provable_of_obvious h hc ho)
  rw [queueObvious, WP.bind_iff]
  refine Routine.reads_wp ?_
  rw [s.basic.steady_eq]
  dsimp only
  rw [queueIfProved, WP.bind_iff]
  refine Routine.reads_wp ?_
  rw [WP.bind_iff]
  refine Routine.reads_wp ?_
  dsimp only [pure_bind]
  cases ha : (r.table.status row).any Status.asserted with
  | true => exact hqueue (.inl (hasserted.mp ha)) _ _ _
  | false =>
    cases hd : (r.levelFlags row).any delayed with
    | true => exact hqueue (.inr (.inl (hdelayed.mp hd))) _ _ _
    | false =>
      have hna : ¬ r.Asserted t := fun hh => by
        rw [hasserted.mpr hh] at ha
        cases ha
      have hnd : ¬ r.HasAtLevel delayed t := fun hh => by
        rw [hdelayed.mpr hh] at hd
        cases hd
      obtain ⟨b, he, hb⟩ := provedNonrecursively_eq hlevel h ((h.examined t hc).2.resolve_right hna)
      simp only [Bool.not_false, Bool.and_false, Bool.or_false, Bool.false_or, Bool.false_eq_true,
        if_false]
      refine WP.bind_iff.mpr ⟨b, r, he, ?_⟩
      cases b with
      | true => exact hqueue (.inr (.inr (hb.mp rfl))) _ _ _
      | false =>
        refine WP.pure_iff.mpr ⟨{ h with obvious := fun u hu _ ho => ?_ }, .refl r, fun _ => .inl,
          .inr ⟨hn, rfl⟩⟩
        by_cases hut : u = t
        · subst hut
          rcases ho with ho | ho | ho
          · exact absurd ho hna
          · exact absurd ho hnd
          · cases hb.mpr ho
        · exact h.obvious u hu hut ho

end obvious

/-! ## Saturation -/

/-- What holds when everything queued is proved. -/
structure Settled (s : Scene c) (new : Set Triple) (r : Run) : Prop extends Proving s new r where
  applied : Applied s r
  cursor : r.update.proved.cursor = (r.listed .proved).length
  done (t : Triple) (h : r.HasAtLevel provedNew t) : r.HasAtLevel Flag.Level.proved t

theorem Applied.records (h : Applied s r) (hr : Records r r') : Applied s r' := by
  intro a ha hprem hsome head hhead
  exact (h a ha (fun k u hk hs => (hr.has_iff rfl rfl).mp (hprem k u hk hs)) hsome head hhead).imp
    (hr.has _ head) (hr.has _ head)

/-- What is queued is worked off, and what was taken from the queue before is proved. -/
theorem proveQueued_wp (hlevel : task.level = s.level) (hbudget : r.table.size < task.budget)
    (h : Proving s ∅ r) (happ : Applied s r)
    (hcursor : r.update.proved.cursor ≤ (r.listed .proved).length)
    (hdone : ∀ place row t, place < r.update.proved.cursor → (r.listed .proved)[place]? = some row →
      r.table.fact? row = some t → r.HasAtLevel proved t) :
    WP (Routine.drain (c.whileRunning (Routine.dequeue .proved)) (fun row _ => forward c task row)
      task.budget ()) r fun _ r' => Settled s ∅ r' ∧ Saturates r r' := by
  refine (Routine.workOff_wp (w := .proved) (fun _ => True) (N := r.table.size)
    r.update.proved.cursor (Routine.takes_dequeue.whileRunning s.basic.stop)
    (fun _ r' => Proving s ∅ r' ∧ Applied s r' ∧ Saturates r r')
    (fun row r' => ∀ t, r.table.fact? row = some t → r'.HasAtLevel proved t)
    (fun _ r' hr' => hr'.1.plain.running) (fun _ r' hr' => ?_) (fun _ r' cursor polls hr' => ?_)
    (fun _ r' place row hr' _ _ hrow => ?_) (fun _ _ _ _ => trivial) task.budget hbudget
    ⟨h, happ, .refl r⟩ rfl).mono ?_
  · refine ⟨?_, fun other ho => hr'.1.lists.pos ho⟩
    rw [← hr'.2.2.table_eq]
    exact hr'.1.lists.length_le
  · obtain ⟨h', happ', hsat'⟩ := hr'
    refine ⟨⟨{ h' with plain := { h'.plain with } }, happ', hsat'.trans ?_⟩, fun _ hj => hj⟩
    exact ⟨⟨_, _, _, _, rfl⟩, fun _ => rfl, fun _ _ => id, List.prefix_refl _⟩
  · obtain ⟨h', happ', hsat'⟩ := hr'
    obtain ⟨u, hu, hq⟩ := (h'.lists.mem_iff row).mp (List.mem_of_getElem? hrow)
    refine (forward_wp hlevel h' happ' hu hq).mono ?_
    rintro _ r'' ⟨h'', happ'', hsat'', hcur, hp⟩
    refine ⟨⟨h'', happ'', hsat'.trans hsat''⟩, hcur, hsat''.listed, fun v hv => ?_,
      fun other _ ho v hv => hsat''.has _ v (ho v hv)⟩
    rw [hsat'.table_eq, hv] at hu
    cases hu
    exact hp
  · rintro _ r' ⟨⟨h', happ', hsat⟩, hjudged, hend, hle, hlive⟩
    refine ⟨{ h' with applied := happ', cursor := ?_, done := fun u hu => ?_ }, hsat⟩
    · refine le_antisymm (Nat.le_of_not_lt fun hlt => ?_) (hend trivial)
      exact lt_irrefl _ (hlive _ (hcursor.trans hsat.listed.length_le) hlt).2
    · obtain ⟨row, hf⟩ := hu.mem
      obtain ⟨place, hplace⟩ := List.mem_iff_getElem?.mp ((h'.lists.mem_iff row).mpr ⟨u, hf, hu⟩)
      rw [hsat.table_eq] at hf
      by_cases hlt : place < r.update.proved.cursor
      · obtain ⟨rest, hrest⟩ := hsat.listed
        rw [← hrest, List.getElem?_append_left (hlt.trans_le hcursor)] at hplace
        exact hsat.has _ u (hdone place row u hlt hplace hf)
      · exact hjudged place row (Nat.le_of_not_lt hlt) trivial hplace u hf

/-- Whatever follows from a fact whose examination begins is proved, if the fact needs no search. -/
theorem saturate_wp (hlevel : task.level = s.level) (hbudget : r.table.size < task.budget)
    (h : Settled s {t} r) (hf : r.table.fact? row = some t) (hc : r.HasAtLevel checked t)
    (hn : ¬ r.HasAtLevel provedNew t) :
    WP (saturate c task row t) r fun b r' => Settled s ∅ r' ∧ Saturates r r' ∧
      (b = true ↔ r'.HasAtLevel proved t) := by
  rw [saturate, WP.bind_iff]
  refine (queueObvious_wp hlevel h.toProving hf hc hn).mono fun _ r₁ h₁ => ?_
  have happ₁ := h.applied.records h₁.records
  have hcursor₁ : r₁.update.proved.cursor = (r.listed .proved).length :=
    h₁.records.cursor.trans h.cursor
  have hpeek : r₁.update.proved.canDequeue =
      (((r₁.listed .proved)[(r.listed .proved).length]?).getD 0 != 0) := by
    rw [Queue.canDequeue, Queue.peek, Queue.valueAt, hcursor₁, ← Array.getElem?_toList]
    rfl
  rw [WP.bind_iff]
  refine Routine.reads_wp ?_
  rcases h₁.listed with ⟨hnew, hlisted⟩ | ⟨hnot, hlisted⟩
  · have hcan : r₁.update.proved.canDequeue = true := by
      rw [hpeek, hlisted, List.getElem?_concat_length, Option.getD_some, bne_iff_ne]
      exact Nat.pos_iff_ne_zero.mp (Table.fact?_bounds hf).1
    have htable := h₁.records.table_eq
    rw [hcan]
    simp only [Bool.not_true, Bool.false_eq_true, if_false]
    rw [WP.bind_iff]
    refine (proveQueued_wp hlevel (htable ▸ hbudget) h₁.proving happ₁ ?_
      fun place row' u hlt hplace hu => ?_).mono ?_
    · rw [hcursor₁]
      exact h₁.records.listed.length_le
    · -- what was queued before is proved
      rw [hcursor₁] at hlt
      rw [hlisted, List.getElem?_append_left hlt] at hplace
      rw [htable] at hu
      obtain ⟨v, hv, hq⟩ := (h.lists.mem_iff row').mp (List.mem_of_getElem? hplace)
      rw [hu] at hv
      cases hv
      exact h₁.records.has _ u (h.done u hq)
    · rintro _ r₂ ⟨h₂, hsat₂⟩
      rw [s.basic.equality]
      simp only [Bool.false_eq_true, if_false]
      exact WP.pure_iff.mpr ⟨h₂, h₁.records.saturates.trans hsat₂,
        iff_of_true rfl (h₂.done t (hsat₂.has _ t hnew))⟩
  · have hcan : r₁.update.proved.canDequeue = false := by
      rw [hpeek, hlisted, List.getElem?_eq_none le_rfl]
      rfl
    rw [hcan]
    simp only [Bool.not_false, if_true]
    refine WP.pure_iff.mpr ⟨{ h₁.proving with applied := happ₁, cursor := ?_, done := fun u hu => ?_ },
      h₁.records.saturates, ?_⟩
    · rw [hcursor₁, hlisted]
    · rcases h₁.only u hu with hu' | rfl
      · exact h₁.records.has _ u (h.done u hu')
      · exact absurd hu hnot
    · exact iff_of_false Bool.false_ne_true fun hp => hnot (h₁.proving.proved t hp)

end Entail.Search
