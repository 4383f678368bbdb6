import Entail.Proofs.Maintenance.Proving

/-!
# Examinations

While a fact is examined (`Search.Examines`), every supporting premise that a proof of it may have is
examined already, or there is a place left to look from which it will be met (`Search.Meets`). So when
no place is left, all of them are (`Search.Explored`). `explore_wp` says how one examination goes on,
`conclude_wp` how all of them end.
-/

namespace Entail.Search

open Flag.Update Flag.Level

variable {c : Context} {s : Scene c} {task : DeletionTask} {r r' r'' : Run} {t u : Triple}
  {new : Set Triple} {row : Nat} {e e' : Examination} {outer : List Examination}

/-- `r'` is `r` but for what a search finds out. -/
structure Looks (r r' : Run) : Prop where
  eq : ∃ journal polls examinations checked levelFlags proved, r' = { r with
    journal, polls, examinations, checked, update := { r.update with levelFlags, proved } }
  has (b : Flags) (t : Triple) (h : r.HasAtLevel b t) : r'.HasAtLevel b t

namespace Looks

theorem refl (r : Run) : Looks r r := ⟨⟨_, _, _, _, _, _, rfl⟩, fun _ _ => id⟩

theorem trans (h : Looks r r') (h' : Looks r' r'') : Looks r r'' := by
  refine ⟨?_, fun b t ht => h'.has b t (h.has b t ht)⟩
  obtain ⟨_, _, _, _, _, _, rfl⟩ := h.eq
  obtain ⟨_, _, _, _, _, _, rfl⟩ := h'.eq
  exact ⟨_, _, _, _, _, _, rfl⟩

theorem table_eq (h : Looks r r') : r'.table = r.table := by
  obtain ⟨_, _, _, _, _, _, rfl⟩ := h.eq
  rfl

theorem before_iff (h : Looks r r') : r'.Before t ↔ r.Before t := Run.before_congr h.table_eq

theorem asserted_iff (h : Looks r r') : r'.Asserted t ↔ r.Asserted t :=
  Run.asserted_congr h.table_eq

theorem has_iff (h : Looks r r') {b : Flags} : r'.Has b t ↔ r.Has b t := by
  obtain ⟨_, _, _, _, _, _, rfl⟩ := h.eq
  exact Iff.rfl

end Looks

theorem Flagged.looks {b : Flags} (h : Flagged b t r r') : Looks r r' := by
  refine ⟨?_, fun b' u hu => (h.has_iff b' u).mpr (.inl hu)⟩
  obtain ⟨_, rfl⟩ := h.eq
  exact ⟨_, _, _, _, _, _, rfl⟩

/-! ## One examination -/

/-- A premise of an instance is examined, or the examination will come across it. -/
def Meets (s : Scene c) (r : Run) (e : Examination) (a : s.Instance) (u : Triple) : Prop :=
  r.HasAtLevel checked u ∨ (∃ row, .premise row u ∈ e.leads) ∨
    ∃ (ref : HeadRef) (h : Atom), ref.rule = a.rule ∧ a.indexed.rule.head[ref.head]? = some h ∧
      h.groundIn none a.assignment = e.fact ∧
      (ref ∈ e.heads ∨ .rules h.indexingPattern ∈ e.sources)

/-- The supporting premises that a proof of a fact may have are examined. -/
def Explored (s : Scene c) (r : Run) (t : Triple) : Prop :=
  ∀ a : s.Instance, a.Concludes t → s.Proves a →
    ∀ k u, a.Premise k u → c.rules.isSupporting a.rule k = true → r.HasAtLevel checked u

/-- What holds of the examination of a fact. -/
structure Examines (s : Scene c) (r : Run) (e : Examination) : Prop where
  fact_eq : r.table.fact? e.row = some e.fact
  leads (l : Lead) (h : l ∈ e.leads) : ∃ row u, l = .premise row u ∧ r.table.fact? row = some u ∧
    r.Before u ∧ (c.rules.At s.level u ∨ r.Asserted u)
  heads (h : HeadRef) (hm : h ∈ e.heads) : ∃ i a,
    (i, h.rule) ∈ c.rules.inScope (.ofLevel s.level) ∧ i.rule.head[h.head]? = some a
  sources (x : Source) (h : x ∈ e.sources) : ∃ pattern, pattern < 8 ∧ x = .rules pattern
  meets (a : s.Instance) (ha : a.Concludes e.fact) (hp : s.Proves a)
    (k : Nat) (u : Triple) (hk : a.Premise k u) (hs : c.rules.isSupporting a.rule k = true) :
    Meets s r e a u

namespace Examines

theorem looks (h : Examines s r e) (hl : Looks r r') : Examines s r' e := by
  refine ⟨by rw [hl.table_eq]; exact h.fact_eq, fun l hm => ?_, h.heads, h.sources,
    fun a ha hp k u hk hs => (h.meets a ha hp k u hk hs).imp_left (hl.has _ u)⟩
  obtain ⟨row, u, rfl, hf, hb, hat⟩ := h.leads l hm
  exact ⟨row, u, rfl, by rwa [hl.table_eq], hl.before_iff.mpr hb, hat.imp_right hl.asserted_iff.mpr⟩

/-- With no place left to look, the fact is explored. -/
theorem explored (h : Examines s r e) (hl : e.leads = []) (hh : e.heads = []) (hs : e.sources = []) :
    Explored s r e.fact := by
  intro a ha hp k u hk hsup
  rcases h.meets a ha hp k u hk hsup with hu | ⟨row, hm⟩ | ⟨ref, atom, -, -, -, hm | hm⟩
  · exact hu
  · rw [hl] at hm
    cases hm
  · rw [hh] at hm
    cases hm
  · rw [hs] at hm
    cases hm

/-- The examination of a fact that was just taken up. -/
theorem begin (hf : r.table.fact? row = some t) (proved : Bool) :
    Examines s r
      { row, fact := t, proved,
        sources := Source.all c.mode.equality.enabled (c.rules.hasRecursive (.ofLevel s.level)) t } := by
  have hall : Source.all c.mode.equality.enabled (c.rules.hasRecursive (.ofLevel s.level)) t =
      if c.rules.hasRecursive (.ofLevel s.level) then (List.range 8).map Source.rules else [] := by
    rw [Source.all, s.basic.equality]
    rfl
  refine ⟨hf, fun _ h => absurd h List.not_mem_nil, fun _ h => absurd h List.not_mem_nil,
    fun x hx => ?_, fun a ha hp k u hk hs => .inr (.inr ?_)⟩
  · rw [hall] at hx
    split at hx
    · obtain ⟨pattern, hp, rfl⟩ := List.mem_map.mp hx
      exact ⟨pattern, List.mem_range.mp hp, rfl⟩
    · cases hx
  · obtain ⟨atom, hmem, rfl⟩ := ha
    obtain ⟨place, hplace⟩ := List.mem_iff_getElem?.mp hmem
    refine ⟨⟨a.rule, place⟩, atom, rfl, hplace, rfl, .inr ?_⟩
    rw [hall, s.basic.builds.hasRecursive_of_supporting a.mem hs, if_pos rfl]
    exact List.mem_map.mpr ⟨_, List.mem_range.mpr atom.indexingPattern_lt, rfl⟩

end Examines

section places

variable (hlevel : task.level = s.level)

include hlevel

/-- The heads of recursive rules of the level that derive a fact. -/
theorem mem_recursiveHeads {head : HeadRef} {pattern : Nat} (hp : pattern < 8) :
    head ∈ recursiveHeads c task t pattern r ↔ ∃ i a,
      (i, head.rule) ∈ c.rules.inScope (.ofLevel s.level) ∧ i.recursive = true ∧
      i.rule.head[head.head]? = some a ∧ (∃ σ, a.groundIn none σ = t) ∧
      a.indexingPattern = pattern := by
  rw [recursiveHeads, s.basic.steady_eq, List.mem_filter, s.basic.builds.mem_headsWith hp,
    DeletionTask.scope, hlevel]
  constructor
  · rintro ⟨⟨i, a, hi, ha, hσ, hpat⟩, hrec⟩
    rw [hi] at hrec
    obtain ⟨hrec, hscope⟩ := Bool.and_eq_true_iff.mp hrec
    exact ⟨i, a, RuleIndex.mem_inScope.mpr ⟨hi, hscope⟩, hrec, ha, hσ, hpat⟩
  · rintro ⟨i, a, hi, hrec, ha, hσ, hpat⟩
    obtain ⟨hi, hscope⟩ := RuleIndex.mem_inScope.mp hi
    refine ⟨⟨i, a, hi, ha, hσ, hpat⟩, ?_⟩
    rw [hi]
    exact Bool.and_eq_true_iff.mpr ⟨hrec, hscope⟩

/-- A source is consulted. -/
theorem Examines.consult {pattern : Nat} {proved : Bool} {sources : List Source}
    (h : Examines s r ⟨row, t, proved, [], [], .rules pattern :: sources⟩) :
    Examines s r ⟨row, t, proved, [], recursiveHeads c task t pattern r, sources⟩ := by
  have hp : pattern < 8 := by
    obtain ⟨p, hp, he⟩ := h.sources (.rules pattern) List.mem_cons_self
    cases he
    exact hp
  refine ⟨h.fact_eq, h.leads, fun head hm => ?_, fun x hx => h.sources x (List.mem_cons_of_mem _ hx),
    fun a ha hprem k u hk hs => ?_⟩
  · obtain ⟨i, a, hi, -, ha, -, -⟩ := (mem_recursiveHeads hlevel hp).mp hm
    exact ⟨i, a, hi, ha⟩
  · rcases h.meets a ha hprem k u hk hs with hu | hm | ⟨ref, atom, hrule, hhead, hground, hm | hm⟩
    · exact .inl hu
    · exact .inr (.inl hm)
    · exact absurd hm List.not_mem_nil
    · refine .inr (.inr ⟨ref, atom, hrule, hhead, hground, ?_⟩)
      rcases List.mem_cons.mp hm with he | hm
      · cases he
        refine .inl ((mem_recursiveHeads hlevel hp).mpr ⟨a.indexed, atom, ?_, ?_, hhead,
          ⟨_, hground⟩, rfl⟩)
        · rw [hrule]
          exact a.mem
        · exact s.basic.builds.recursive_of_supporting a.rule?_eq hs
      · exact .inr hm

/-- The leads to the supporting premises among some matches. -/
def leadsTo (c : Context) (rule : Nat) (ways : List (List Match)) : List Lead :=
  ways.flatten.filterMap fun m =>
    if c.rules.isSupporting rule m.literal then some (.premise m.row m.fact) else none

omit hlevel in
theorem mem_leadsTo {rule : Nat} {ways : List (List Match)} {l : Lead} :
    l ∈ leadsTo c rule ways ↔ ∃ m ∈ ways.flatten, c.rules.isSupporting rule m.literal = true ∧
      l = .premise m.row m.fact := by
  rw [leadsTo, List.mem_filterMap]
  constructor
  · rintro ⟨m, hm, he⟩
    split at he
    · exact ⟨m, hm, ‹_›, (Option.some.inj he).symm⟩
    · cases he
  · rintro ⟨m, hm, hs, rfl⟩
    exact ⟨m, hm, if_pos hs⟩

omit hlevel in
/-- The premises that a head needs to derive a fact are leads. -/
theorem Examines.leadsTo {proved : Bool} {head : HeadRef} {heads : List HeadRef}
    {sources : List Source} (hs : Proving s new r)
    (h : Examines s r ⟨row, t, proved, [], head :: heads, sources⟩) :
    ∃ ways, c.rules.supportingInstances (c.view supports) head t r = .ok ways r ∧
      Examines s r ⟨row, t, proved, leadsTo c head.rule ways, heads, sources⟩ := by
  obtain ⟨i, atom, hmem, hatom⟩ := h.heads head List.mem_cons_self
  have hi := (RuleIndex.mem_inScope.mp hmem).1
  have hclasses : ((c.view supports).snapshot r).classes = none := s.basic.steady_eq r
  obtain ⟨ways, he, hsound, hcomplete⟩ := RuleIndex.supportingInstances_spec (c.view supports)
    s.basic.simple rfl rfl (s := r) (t := t) hi hatom
  refine ⟨ways, he, h.fact_eq, fun l hm => ?_, fun x hx => h.heads x (List.mem_cons_of_mem _ hx),
    h.sources, fun a ha hprem k u hk hsup => ?_⟩
  · obtain ⟨m, hm', hsup, rfl⟩ := mem_leadsTo.mp hm
    obtain ⟨hrow, τ, hτ, hk⟩ := hsound m hm'
    obtain ⟨hf, hpossible⟩ := List.mem_filter.mp hrow
    have hf : r.table.fact? m.row = some m.fact := Table.mem_toList.mp hf
    have hat : c.rules.At s.level t := by
      have := hτ.concludes
      rw [hclasses] at this
      exact (s.basic.builds.scope_iff_at s.leveled hi this).mp hmem
    obtain ⟨a, hrule, rfl, rfl, -, hp, -⟩ :=
      RuleIndex.Instance.of_supports s.basic.builds s.leveled hτ hclasses hat
    rw [hclasses] at hk
    refine ⟨m.row, m.fact, rfl, hf, ((possible_iff hf).mp hpossible).1, ?_⟩
    rw [hs.asserted_iff]
    exact s.own a (fun j v hv => hs.kept (present_supports.mp (hp j v hv))) m.literal m.fact hk
      (hrule ▸ hsup)
  · rcases h.meets a ha hprem k u hk hsup with hu | ⟨_, hm⟩ | ⟨ref, atom', hrule, hhead, hground, hm | hm⟩
    · exact .inl hu
    · exact absurd hm List.not_mem_nil
    · rcases List.mem_cons.mp hm with rfl | hm
      · -- the instance is one of the ways in which this head derives the fact
        have hsupports : c.rules.Supports ((c.view supports).snapshot r) ref a.indexed a.assignment
            t := by
          refine ⟨⟨?_, ?_⟩, hrule ▸ a.rule?_eq, ⟨atom', hhead, by rw [hclasses]; exact hground⟩⟩
          · rw [hclasses]
            exact fun j v hv => present_supports.mpr (hs.possible (hprem.premises j v hv))
          · rw [hclasses]
            exact fun j v hv hp => hprem.blockers j v hv (hs.present_supportingNegative.mp hp)
        obtain rfl : a.indexed = i := by
          have := hsupports.rule_eq
          rw [hi] at this
          exact (Option.some.inj this).symm
        obtain ⟨m, hm, rfl, rfl⟩ := hcomplete a.assignment k u hsupports (by rw [hclasses]; exact hk)
        exact .inr (.inl ⟨m.row, mem_leadsTo.mpr ⟨m, hm, hrule ▸ hsup, rfl⟩⟩)
      · exact .inr (.inr ⟨ref, atom', hrule, hhead, hground, .inl hm⟩)
    · exact .inr (.inr ⟨ref, atom', hrule, hhead, hground, .inr hm⟩)

end places

/-! ### How it goes on -/

/-- `r'` is `r` but for its journal and what is under examination. -/
structure Alike (r r' : Run) : Prop where
  eq : ∃ journal examinations levelFlags,
    r' = { r with journal, examinations, update := { r.update with levelFlags } }
  has_iff (b : Flags) (t : Triple) : r'.HasAtLevel b t ↔ r.HasAtLevel b t

namespace Alike

theorem refl (r : Run) : Alike r r := ⟨⟨_, _, _, rfl⟩, fun _ _ => Iff.rfl⟩

theorem trans (h : Alike r r') (h' : Alike r' r'') : Alike r r'' := by
  refine ⟨?_, fun b t => (h'.has_iff b t).trans (h.has_iff b t)⟩
  obtain ⟨_, _, _, rfl⟩ := h.eq
  obtain ⟨_, _, _, rfl⟩ := h'.eq
  exact ⟨_, _, _, rfl⟩

theorem looks (h : Alike r r') : Looks r r' := by
  refine ⟨?_, fun b t => (h.has_iff b t).mpr⟩
  obtain ⟨_, _, _, rfl⟩ := h.eq
  exact ⟨_, _, _, _, _, _, rfl⟩

theorem checked_eq (h : Alike r r') : r'.checked = r.checked := by
  obtain ⟨_, _, _, rfl⟩ := h.eq
  rfl

end Alike

theorem Settled.proceed (h : Settled s new r) (journal : Array Entry)
    (examinations : List Examination) : Settled s new { r with journal, examinations } :=
  { h with plain := { h.plain with } }

/-- The examination of a fact begins. -/
theorem Settled.takeUp (h : Settled s ∅ r) (hb : r.Before t)
    (ht : c.rules.At s.level t ∨ r.Asserted t) (hfl : Flagged checked t r r') : Settled s {t} r' := by
  have hsame : ∀ {b u}, checked.any b = false → (r'.HasAtLevel b u ↔ r.HasAtLevel b u) :=
    fun hb => hfl.has_of_ne hb
  refine { h.toProving.takeUp hb ht hfl with
    applied := fun a ha hprem hsome head hhead => ?_
    cursor := ?_
    done := fun u hu => (hsame rfl).mpr (h.done u ((hsame rfl).mp hu)) }
  · rw [hsame rfl, hsame rfl]
    exact h.applied a ha (fun k u hk hs => (hsame rfl).mp (hprem k u hk hs)) hsome head hhead
  · rw [hfl.listed_eq, ← h.cursor]
    obtain ⟨_, rfl⟩ := hfl.eq
    rfl

/-- A fact is taken up if it was not examined and is not disproved. -/
theorem takeUp_wp (h : Settled s ∅ r) (hf : r.table.fact? row = some t) (hb : r.Before t)
    (ht : c.rules.At s.level t ∨ r.Asserted t) {Q : Bool → Run → Prop}
    (hknown : ∀ r', Alike r r' → r'.examinations = r.examinations → Settled s ∅ r' →
      r.HasAtLevel checked t ∨ ¬ Possible r t → Q false r')
    (hnew : ∀ r', ¬ r.HasAtLevel checked t → Flagged checked t r r' → Settled s {t} r' → Q true r') :
    WP (takeUp row) r Q := by
  rw [takeUp, WP.bind_iff]
  refine Routine.reads_wp ?_
  split
  · rename_i hd
    exact WP.pure_iff.mpr (hknown r (.refl r) rfl h
      (.inr fun hp => hp.2 ((isDisproved_iff hf).mp hd)))
  · refine flag_wp Bits.isBit_checked rfl h.plain hf fun isNew r' hiff hfl => ?_
    have h' := h.takeUp hb ht hfl
    cases isNew with
    | true => exact hnew r' (hiff.mp rfl) hfl h'
    | false =>
      have hc : r.HasAtLevel checked t := by simpa using hiff
      have hiff : ∀ b u, r'.HasAtLevel b u ↔ r.HasAtLevel b u := fun b u => by
        refine (hfl.has_iff b u).trans ⟨?_, .inl⟩
        rintro (hu | ⟨hmask, rfl⟩)
        · exact hu
        · exact (Run.hasAtLevel_iff hf).mpr
            (Bits.isBit_checked.any_of_any ((Run.hasAtLevel_iff hf).mp hc) hmask)
      refine hknown r' ⟨?_, hiff⟩ ?_ { h' with obvious := fun u hu _ ho => ?_ } (.inl hc)
      · obtain ⟨_, rfl⟩ := hfl.eq
        exact ⟨_, _, _, rfl⟩
      · obtain ⟨_, rfl⟩ := hfl.eq
        rfl
      · rw [Obvious, hfl.asserted_iff, hiff] at ho
        exact (hiff _ u).mpr (h.obvious u ((hiff _ u).mp hu) id ho)

/-- The innermost examination, that of `goal`, waits for the examination of a fact that was just taken
up. -/
structure Descends (s : Scene c) (goal : Triple) (outer : List Examination) (row : RowIndex)
    (t : Triple) (r r' : Run) : Prop where
  looks : Looks r r'
  settled : Settled s {t} r'
  fact_eq : r'.table.fact? row = some t
  fresh : ¬ r.HasAtLevel checked t
  checked_iff (u : Triple) : r'.HasAtLevel checked u ↔ r.HasAtLevel checked u ∨ u = t
  unqueued : ¬ r'.HasAtLevel provedNew t
  array_eq : r'.checked = r.checked
  stack : ∃ e, r'.examinations = e :: outer ∧ e.fact = goal ∧ e.proved = false ∧ Examines s r' e

theorem Descends.alike {goal : Triple} (h : Descends s goal outer row t r' r'') (ha : Alike r r') :
    Descends s goal outer row t r r'' :=
  { h with
    looks := ha.looks.trans h.looks
    fresh := mt (ha.has_iff _ t).mpr h.fresh
    checked_iff := fun u => (h.checked_iff u).trans (or_congr_left (ha.has_iff _ u))
    array_eq := h.array_eq.trans ha.checked_eq }

/-- The innermost examination, that of `goal`, is over. -/
structure Fails (s : Scene c) (goal : Triple) (r r' : Run) : Prop where
  alike : Alike r r'
  settled : Settled s ∅ r'
  explored : Explored s r' goal

/-- How the examination of a fact that is not proved goes on. -/
def Turns (s : Scene c) (goal : Triple) (outer : List Examination) (r r' : Run) : Turn → Prop
  | .descend row t => Descends s goal outer row t r r'
  | .close proved => proved = false ∧ Fails s goal r r'

theorem Turns.alike {goal : Triple} {turn : Turn} (h : Turns s goal outer r' r'' turn)
    (ha : Alike r r') : Turns s goal outer r r'' turn := by
  cases turn with
  | descend row t => exact Descends.alike h ha
  | close proved => exact ⟨h.1, { h.2 with alike := ha.trans h.2.alike }⟩

theorem allProved_wp (hc : c.Basic s.rules) (hf : r.table.fact? row = some t) {Q : Bool → Run → Prop}
    (h : ∀ b : Bool, (b = true ↔ r.HasAtLevel proved t) → Q b r) : WP (allProved c row t) r Q := by
  rw [allProved, WP.bind_iff]
  refine Routine.reads_wp ?_
  rw [hc.steady_eq]
  exact Routine.reads_wp (h _ (Run.hasAtLevel_iff hf).symm)

theorem skip_wp (hc : c.stop = .never) {Q : Unit → Run → Prop}
    (h : ∀ journal, Q () { r with journal }) : WP (skip c t) r Q := by
  rw [skip, WP.bind_iff]
  exact Context.announce_wp hc fun _ => Context.announce_wp hc fun journal => h journal

/-- A lead was followed. -/
theorem Examines.followed {next : RowIndex} {proved : Bool} {leads : List Lead}
    {heads : List HeadRef} {sources : List Source}
    (h : Examines s r ⟨row, t, proved, .premise next u :: leads, heads, sources⟩) (hl : Looks r r')
    (hu : u ∈ s.provable → r'.HasAtLevel checked u) :
    Examines s r' ⟨row, t, proved, leads, heads, sources⟩ := by
  have h' := h.looks hl
  refine ⟨h'.fact_eq, fun l hm => h'.leads l (List.mem_cons_of_mem _ hm), h'.heads, h'.sources,
    fun a ha hp k v hk hs => ?_⟩
  rcases h'.meets a ha hp k v hk hs with hv | ⟨other, hm⟩ | hm
  · exact .inl hv
  · rcases List.mem_cons.mp hm with he | hm
    · cases he
      exact .inl (hu (hp.premises k u hk))
    · exact .inr (.inl ⟨other, hm⟩)
  · exact .inr (.inr hm)

/-- What is left of the innermost examination is kept. -/
theorem keep_wp (h : Settled s ∅ r) (hstack : r.examinations = e' :: outer) {Q : Unit → Run → Prop}
    (hQ : ∀ r', Alike r r' → Settled s ∅ r' → r'.examinations = e :: outer → Q () r') :
    WP (keep e) r Q := by
  rw [keep, WP.modify_iff, hstack, List.tail_cons]
  exact hQ _ ⟨⟨_, _, _, rfl⟩, fun _ _ => Iff.rfl⟩ (h.proceed r.journal _) rfl

/-- The fact of a lead was taken up, so it is examined first. -/
theorem Examines.descends {next : RowIndex} {proved : Bool} {leads : List Lead}
    {heads : List HeadRef} {sources : List Source}
    (h : Examines s r ⟨row, t, proved, .premise next u :: leads, heads, sources⟩)
    (hopen : proved = false) (ha : Alike r r') (hs : Settled s ∅ r')
    (hstack : r'.examinations = ⟨row, t, proved, leads, heads, sources⟩ :: outer)
    (hfresh : ¬ r'.HasAtLevel checked u) (hfl : Flagged checked u r' r'') (hs' : Settled s {u} r'') :
    Descends s t outer next u r' r'' := by
  have hl := ha.looks.trans hfl.looks
  obtain ⟨next', u', he, hf, -⟩ := h.leads _ List.mem_cons_self
  cases he
  refine ⟨hfl.looks, hs', by rwa [hl.table_eq], hfresh, fun v => hfl.has_self Bits.isBit_checked,
    fun hq => hfresh (hs.queued u ((hfl.has_of_ne rfl).mp hq)).1, ?_, _, ?_, rfl, hopen,
    h.followed hl fun _ => (hfl.has_self Bits.isBit_checked).mpr (.inr rfl)⟩
  · obtain ⟨_, rfl⟩ := hfl.eq
    rfl
  · obtain ⟨_, rfl⟩ := hfl.eq
    exact hstack

/-- The innermost examination goes on until another fact has to be examined or no place is left. -/
theorem explore_wp (hlevel : task.level = s.level) (e : Examination) (r : Run)
    (h : Settled s ∅ r) (he : Examines s r e) (hopen : e.proved = false)
    (hn : ¬ r.HasAtLevel proved e.fact) (hstack : ∃ e', r.examinations = e' :: outer) :
    WP (explore c task e) r fun turn r' => Turns s e.fact outer r r' turn := by
  obtain ⟨e', hstack⟩ := hstack
  match e with
  | ⟨row, t, proved, lead :: leads, heads, sources⟩ =>
    obtain ⟨next, u, rfl, hf, hb, hat⟩ := he.leads lead List.mem_cons_self
    rw [explore, WP.bind_iff]
    refine keep_wp h hstack fun r₁ ha₁ h₁ hstack₁ => ?_
    rw [WP.bind_iff, follow]
    refine WP.pure_iff.mpr ?_
    dsimp only
    rw [WP.bind_iff]
    have hl₁ := ha₁.looks
    refine takeUp_wp h₁ (by rwa [hl₁.table_eq]) (hl₁.before_iff.mpr hb)
      (hat.imp_right hl₁.asserted_iff.mpr) (fun r₂ ha₂ hstack₂ h₂ hknown => ?_)
      fun r₂ hfresh hfl h₂ => ?_
    · -- the fact needs no examination, so the next lead is followed
      rw [if_neg Bool.false_ne_true, WP.bind_iff]
      refine skip_wp s.basic.stop fun journal => ?_
      let e₁ : Examination := ⟨row, t, proved, leads, heads, sources⟩
      have ha₃ : Alike r { r₂ with journal } :=
        (ha₁.trans ha₂).trans ⟨⟨_, _, _, rfl⟩, fun _ _ => Iff.rfl⟩
      have hn₃ : ¬ Run.HasAtLevel { r₂ with journal } Flag.Level.proved t := mt (ha₃.has_iff _ t).mp hn
      have he₃ : Examines s { r₂ with journal } e₁ := he.followed ha₃.looks fun hu =>
        (ha₂.has_iff _ u).mpr (hknown.resolve_right fun hno => hno (h₁.possible hu))
      rw [WP.bind_iff]
      refine allProved_wp s.basic he₃.fact_eq fun b hb => ?_
      rw [if_neg fun hh => hn₃ (hb.mp hh)]
      exact (explore_wp hlevel e₁ _ (h₂.proceed journal _) he₃ hopen hn₃
        ⟨e₁, hstack₂.trans hstack₁⟩).mono fun turn r₄ h₄ => h₄.alike ha₃
    · rw [if_pos rfl]
      exact WP.pure_iff.mpr
        ((he.descends hopen ha₁ h₁ hstack₁ hfresh hfl h₂).alike ha₁)
  | ⟨row, t, proved, [], head :: heads, sources⟩ =>
    rw [explore, WP.bind_iff]
    refine keep_wp h hstack fun r₁ ha₁ h₁ hstack₁ => ?_
    rw [WP.bind_iff, premises, WP.bind_iff]
    refine Context.announce_wp s.basic.stop fun journal => ?_
    have ha₂ : Alike r { r₁ with journal } := ha₁.trans ⟨⟨_, _, _, rfl⟩, fun _ _ => Iff.rfl⟩
    have h₂ : Settled s ∅ { r₁ with journal } := h₁.proceed journal _
    obtain ⟨ways, hways, he₂⟩ := (he.looks ha₂.looks).leadsTo h₂.toProving
    refine WP.bind_iff.mpr ⟨ways, _, hways, WP.pure_iff.mpr ?_⟩
    exact (explore_wp hlevel ⟨row, t, proved, leadsTo c head.rule ways, heads, sources⟩ _ h₂ he₂
      hopen (mt (ha₂.has_iff _ t).mp hn) ⟨_, hstack₁⟩).mono fun turn r₃ h₃ => h₃.alike ha₂
  | ⟨row, t, proved, [], [], source :: sources⟩ =>
    obtain ⟨pattern, hp, rfl⟩ := he.sources source List.mem_cons_self
    rw [explore, WP.bind_iff]
    refine Routine.reads_wp ?_
    exact explore_wp hlevel ⟨row, t, proved, [], recursiveHeads c task t pattern r, sources⟩ r h
      (he.consult hlevel) hopen hn ⟨e', hstack⟩
  | ⟨row, t, proved, [], [], []⟩ =>
    rw [explore]
    exact WP.pure_iff.mpr ⟨rfl, .refl r, h, he.explored rfl rfl rfl⟩
termination_by (e.sources.length, e.heads.length, e.leads.length)

/-! ## All examinations -/

theorem Explored.looks (h : Explored s r t) (hl : Looks r r') : Explored s r' t :=
  fun a ha hp k u hk hs => hl.has _ u (h a ha hp k u hk hs)

/-- What holds while facts are examined. Those in `new` were taken up, but their examination only
begins. -/
structure Examining (s : Scene c) (new : Set Triple) (r : Run) : Prop extends Settled s new r where
  stack (e : Examination) (h : e ∈ r.examinations) : Examines s r e
  explored (t : Triple) (h : r.HasAtLevel checked t) (hn : t ∉ new) :
    r.HasAtLevel Flag.Level.proved t ∨ t ∈ r.examinations.map Examination.fact ∨ Explored s r t
  remembered (row : Nat) (t : Triple) (hf : r.table.fact? row = some t)
    (h : r.HasAtLevel checked t) (hn : t ∉ new) :
    r.HasAtLevel Flag.Level.proved t ∨ r.Has Flag.Update.disproved t ∨ row ∈ r.checked.toList
  recorded (row : Nat) (h : row ∈ r.checked.toList) :
    ∃ t, r.table.fact? row = some t ∧ r.HasAtLevel checked t

/-- It is known of the innermost examination whether its fact is proved, and the facts of the others
were not proved when they had to wait. -/
def Awake (r : Run) : List Examination → Prop
  | [] => True
  | e :: outer => (e.proved = true ↔ r.HasAtLevel proved e.fact) ∧ ∀ o ∈ outer, o.proved = false

/-- The examination of a fact that was taken up begins. -/
theorem Examining.begin (h : Examining s {t} r) (hf : r.table.fact? row = some t)
    (hc : r.HasAtLevel checked t) (hl : Looks r r') (hs : Settled s ∅ r')
    (hchecked : ∀ u, r'.HasAtLevel checked u ↔ r.HasAtLevel checked u) (he : Examines s r' e)
    (hfact : e.fact = t) (hstack : r'.examinations = e :: r.examinations)
    (harray : r'.checked.toList = r.checked.toList ++ [row]) : Examining s ∅ r' := by
  refine { hs with
    stack := fun e' he' => ?_
    explored := fun u hu _ => ?_
    remembered := fun other u ho hu _ => ?_
    recorded := fun other ho => ?_ }
  · rw [hstack] at he'
    rcases List.mem_cons.mp he' with rfl | he'
    · exact he
    · exact (h.stack e' he').looks hl
  · rw [hstack, List.map_cons, List.mem_cons, hfact]
    by_cases hut : u = t
    · exact .inr (.inl (.inl hut))
    · exact (h.explored u ((hchecked u).mp hu) hut).imp (hl.has _ u)
        (Or.imp .inr fun he => he.looks hl)
  · rw [harray, List.mem_append, List.mem_singleton]
    rw [hl.table_eq] at ho
    by_cases hut : u = t
    · subst hut
      exact .inr (.inr (.inr (Table.row_unique ho hf)))
    · exact (h.remembered other u ho ((hchecked u).mp hu) hut).imp (hl.has _ u)
        (Or.imp hl.has_iff.mpr .inl)
  · rw [harray, List.mem_append, List.mem_singleton] at ho
    rw [hl.table_eq]
    rcases ho with ho | rfl
    · obtain ⟨u, hu, hcu⟩ := h.recorded other ho
      exact ⟨u, hu, (hchecked u).mpr hcu⟩
    · exact ⟨t, hf, (hchecked t).mpr hc⟩

theorem begin_wp (hlevel : task.level = s.level) (hbudget : s.first.table.size < task.budget)
    (h : Examining s {t} r) (hf : r.table.fact? row = some t) (hc : r.HasAtLevel checked t)
    (hn : ¬ r.HasAtLevel provedNew t) :
    WP (begin c task row t) r fun _ r' => Examining s ∅ r' ∧ Looks r r' ∧
      (∀ u, r'.HasAtLevel checked u ↔ r.HasAtLevel checked u) ∧
      ∃ e, r'.examinations = e :: r.examinations ∧ e.fact = t ∧
        (e.proved = true ↔ r'.HasAtLevel proved t) := by
  rw [begin, WP.bind_iff]
  refine Context.announce_wp s.basic.stop fun journal => ?_
  rw [WP.bind_iff, WP.modify_iff, WP.bind_iff]
  let r₁ : Run := { r with journal, checked := r.checked.push row }
  have h₁ : Settled s {t} r₁ := { h.toSettled with plain := { h.plain with } }
  have hbudget₁ : r₁.table.size < task.budget := by
    rw [h₁.table_eq]
    exact hbudget
  refine (saturate_wp hlevel hbudget₁ h₁ hf hc hn).mono ?_
  rintro b r₂ ⟨h₂, hsat, hb⟩
  rw [WP.modify_iff, DeletionTask.scope, hlevel]
  let e : Examination := {
    row, fact := t, proved := b
    sources := Source.all c.mode.equality.enabled (c.rules.hasRecursive (.ofLevel s.level)) t }
  let r₃ : Run := { r₂ with examinations := e :: r₂.examinations }
  obtain ⟨hl, hstack, harray⟩ : Looks r r₃ ∧ r₃.examinations = e :: r.examinations ∧
      r₃.checked.toList = r.checked.toList ++ [row] := by
    refine ⟨⟨?_, fun b u hu => hsat.has b u hu⟩, ?_⟩ <;> obtain ⟨_, _, _, _, rfl⟩ := hsat.eq
    · exact ⟨_, _, _, _, _, _, rfl⟩
    · exact ⟨rfl, Array.toList_push⟩
  have hchecked : ∀ u, r₃.HasAtLevel checked u ↔ r.HasAtLevel checked u := fun u => hsat.checked_iff
  have hf₃ : r₃.table.fact? row = some t := by rwa [hl.table_eq]
  exact ⟨h.begin hf hc hl (h₂.proceed r₂.journal _) hchecked (.begin hf₃ b) rfl hstack harray, hl,
    hchecked, e, hstack, rfl, hb⟩

/-- The number of rows that were not examined. -/
def unexamined (r : Run) : Nat :=
  (r.table.toList.filter fun p => !(r.levelFlags p.1).any checked).length

theorem unexamined_le (r : Run) : unexamined r ≤ r.table.size := by
  refine (List.length_filter_le _ _).trans (le_of_eq ?_)
  rw [Table.toList, List.length_map, List.length_zipIdx]
  rfl

theorem unexamined_congr (ht : r'.table = r.table)
    (hc : ∀ u, r'.HasAtLevel checked u ↔ r.HasAtLevel checked u) :
    unexamined r' = unexamined r := by
  rw [unexamined, unexamined, ht]
  refine congrArg List.length (List.filter_congr fun p hp => ?_)
  have hf : r.table.fact? p.1 = some p.2 := Table.mem_toList.mp hp
  have hf' : r'.table.fact? p.1 = some p.2 := by rwa [ht]
  rw [Bool.eq_iff_iff, Bool.not_eq_true', Bool.not_eq_true', Bool.eq_false_iff, Bool.eq_false_iff,
    ne_eq, ne_eq, ← Run.hasAtLevel_iff hf, ← Run.hasAtLevel_iff hf', hc]

/-- Fewer rows are left once a fact is taken up. -/
theorem unexamined_lt (ht : r'.table = r.table) (hf : r'.table.fact? row = some t)
    (hn : ¬ r.HasAtLevel checked t)
    (hc : ∀ u, r'.HasAtLevel checked u ↔ r.HasAtLevel checked u ∨ u = t) :
    unexamined r' < unexamined r := by
  have hf₀ : r.table.fact? row = some t := by rwa [← ht]
  have hfilter : (r.table.toList.filter fun p => !(r'.levelFlags p.1).any checked) =
      (r.table.toList.filter fun p => !(r.levelFlags p.1).any checked).filter
        fun p => !(r'.levelFlags p.1).any checked := by
    rw [List.filter_filter]
    refine List.filter_congr fun p hp => ?_
    have hp₀ : r.table.fact? p.1 = some p.2 := Table.mem_toList.mp hp
    have hp' : r'.table.fact? p.1 = some p.2 := by rwa [ht]
    have himp : (r.levelFlags p.1).any checked = true → (r'.levelFlags p.1).any checked = true := by
      rw [← Run.hasAtLevel_iff hp₀, ← Run.hasAtLevel_iff hp', hc]
      exact .inl
    cases h : (r.levelFlags p.1).any checked with
    | false => simp
    | true => simp [himp h]
  rw [unexamined, unexamined, ht, hfilter, List.length_filter_lt_length_iff_exists]
  refine ⟨(row, t), List.mem_filter.mpr ⟨Table.mem_toList.mpr hf₀, ?_⟩, ?_⟩
  · rw [Bool.not_eq_true', Bool.eq_false_iff]
    exact fun h => hn ((Run.hasAtLevel_iff hf₀).mpr h)
  · rw [(Run.hasAtLevel_iff hf).mp ((hc t).mpr (.inr rfl))]
    exact Bool.false_ne_true

/-- The innermost examination, that of `e`, waits for another one, which begins. -/
theorem Examining.descend (h : Examining s ∅ r) (hstack : r.examinations = e :: outer)
    (hd : Descends s e.fact outer row t r r') : Examining s {t} r' := by
  obtain ⟨e₁, hstack₁, hfact₁, -, he₁⟩ := hd.stack
  have hmap : r'.examinations.map Examination.fact = r.examinations.map Examination.fact := by
    rw [hstack, hstack₁, List.map_cons, List.map_cons, hfact₁]
  refine { hd.settled with
    stack := fun e' he' => ?_
    explored := fun u hu hn => ?_
    remembered := fun other u ho hu hn => ?_
    recorded := fun other ho => ?_ }
  · rw [hstack₁] at he'
    rcases List.mem_cons.mp he' with rfl | he'
    · exact he₁
    · exact (h.stack e' (hstack ▸ List.mem_cons_of_mem _ he')).looks hd.looks
  · rw [hmap]
    exact (h.explored u (((hd.checked_iff u).mp hu).resolve_right hn) id).imp (hd.looks.has _ u)
      (Or.imp_right fun he => he.looks hd.looks)
  · rw [hd.array_eq]
    exact (h.remembered other u (by rwa [← hd.looks.table_eq])
      (((hd.checked_iff u).mp hu).resolve_right hn) id).imp (hd.looks.has _ u)
      (Or.imp_left hd.looks.has_iff.mpr)
  · rw [hd.array_eq] at ho
    obtain ⟨u, hu, hcu⟩ := h.recorded other ho
    exact ⟨u, by rwa [hd.looks.table_eq], (hd.checked_iff u).mpr (.inl hcu)⟩

/-- The innermost examination, that of `goal`, is over, and `known` says whether it is proved. -/
structure Concluded (s : Scene c) (goal : Triple) (known : Bool) (r r' : Run) : Prop where
  alike : Alike r r'
  settled : Settled s ∅ r'
  known_iff : known = true ↔ r'.HasAtLevel Flag.Level.proved goal
  found : r'.HasAtLevel Flag.Level.proved goal ∨ Explored s r' goal

theorem Concluded.of_proved (h : Settled s ∅ r) (hp : r.HasAtLevel proved t) :
    Concluded s t true r r :=
  ⟨.refl r, h, iff_of_true rfl hp, .inl hp⟩

theorem Fails.concluded (h : Fails s t r r') (hn : ¬ r.HasAtLevel proved t) :
    Concluded s t false r r' :=
  ⟨h.alike, h.settled, iff_of_false Bool.false_ne_true (mt (h.alike.has_iff _ _).mp hn),
    .inr h.explored⟩

/-- The innermost examination, that of `e`, is over. -/
theorem Examining.close {known : Bool} (h : Examining s ∅ r) (hstack : r.examinations = e :: outer)
    (hc : Concluded s e.fact known r r') (journal : Array Entry) :
    Examining s ∅ { r' with journal, examinations := outer } := by
  have ha := hc.alike
  have hl : Looks r { r' with journal, examinations := outer } :=
    ha.looks.trans ⟨⟨_, _, _, _, _, _, rfl⟩, fun _ _ => id⟩
  refine { hc.settled.proceed journal outer with
    stack := fun e' he' => (h.stack e' (hstack ▸ List.mem_cons_of_mem _ he')).looks hl
    explored := fun u hu _ => ?_
    remembered := fun other u ho hu _ => ?_
    recorded := fun other ho => ?_ }
  · rcases h.explored u ((ha.has_iff _ u).mp hu) id with hp | hm | hx
    · exact .inl (hl.has _ u hp)
    · rw [hstack, List.map_cons] at hm
      rcases List.mem_cons.mp hm with rfl | hm
      · exact hc.found.imp_right .inr
      · exact .inr (.inl hm)
    · exact .inr (.inr (hx.looks hl))
  · have hr := h.remembered other u (by rwa [← hl.table_eq]) ((ha.has_iff _ u).mp hu) id
    rw [← ha.checked_eq] at hr
    exact hr.imp (hl.has _ u) (Or.imp_left hl.has_iff.mpr)
  · have ho : other ∈ r'.checked.toList := ho
    rw [ha.checked_eq] at ho
    obtain ⟨u, hu, hcu⟩ := h.recorded other ho
    exact ⟨u, by rwa [← hl.table_eq] at hu, (ha.has_iff _ u).mpr hcu⟩

/-- The examination that goes on is told whether its fact is proved. -/
theorem resume_wp (h : Examining s ∅ r) (hopen : ∀ o ∈ r.examinations, o.proved = false) :
    WP (resume c) r fun _ r' => Examining s ∅ r' ∧ Alike r r' ∧ Awake r' r'.examinations ∧
      r'.examinations.map Examination.fact = r.examinations.map Examination.fact := by
  rw [resume, WP.bind_iff]
  refine Routine.reads_wp ?_
  cases hstack : r.examinations with
  | nil =>
    refine WP.pure_iff.mpr ⟨h, .refl r, ?_, by rw [hstack]⟩
    rw [hstack]
    trivial
  | cons e outer =>
    have hopen' : ∀ o ∈ outer, o.proved = false := fun o ho =>
      hopen o (hstack ▸ List.mem_cons_of_mem _ ho)
    have he := h.stack e (hstack ▸ List.mem_cons_self)
    dsimp only
    rw [WP.bind_iff]
    refine allProved_wp s.basic he.fact_eq fun b hb => ?_
    cases b with
    | false =>
      refine WP.pure_iff.mpr ⟨h, .refl r, ?_, by rw [hstack]⟩
      rw [hstack]
      exact ⟨by rw [hopen e (hstack ▸ List.mem_cons_self)]; exact hb, hopen'⟩
    | true =>
      have htail : r.examinations.tail = outer := by rw [hstack, List.tail_cons]
      rw [if_pos rfl, keep, WP.modify_iff, htail]
      have hfacts : List.map Examination.fact ({ e with proved := true } :: outer) =
          r.examinations.map Examination.fact := by
        rw [hstack]
        rfl
      refine ⟨{ h.proceed r.journal _ with
        stack := fun e' he' => ?_
        explored := fun u hu hn => ?_
        remembered := h.remembered
        recorded := h.recorded }, ⟨⟨_, _, _, rfl⟩, fun _ _ => Iff.rfl⟩,
        ⟨hb, hopen'⟩, rfl⟩
      · rcases List.mem_cons.mp he' with rfl | he'
        · exact ⟨he.fact_eq, he.leads, he.heads, he.sources, he.meets⟩
        · exact (h.stack e' (hstack ▸ List.mem_cons_of_mem _ he')).looks
            ⟨⟨_, _, _, _, _, _, rfl⟩, fun _ _ => id⟩
      · exact (h.explored u hu hn).imp_right (Or.imp_left fun hm => hfacts ▸ hm)

/-- A bound for what is left to do: a fact is taken up at most once, and an examination ends once. -/
def remaining (r : Run) : Nat := 2 * unexamined r + r.examinations.length

/-- What holds between two turns of a search for a proof of `t`. The last examination is that of `t`,
and if there is none, `known` says whether `t` is proved. -/
structure Concluding (s : Scene c) (t : Triple) (known : Bool) (r : Run) : Prop
    extends Examining s ∅ r where
  awake : Awake r r.examinations
  last (u : Triple) (h : (r.examinations.map Examination.fact).getLast? = some u) : u = t
  known_iff (h : r.examinations = []) : known = true ↔ r.HasAtLevel Flag.Level.proved t

namespace Concluding

variable {known : Bool}

theorem proved_iff (h : Concluding s t known r) (hstack : r.examinations = e :: outer) :
    e.proved = true ↔ r.HasAtLevel proved e.fact := by
  have hw := h.awake
  rw [hstack] at hw
  exact hw.1

theorem outer_open (h : Concluding s t known r) (hstack : r.examinations = e :: outer) :
    ∀ o ∈ outer, o.proved = false := by
  have hw := h.awake
  rw [hstack] at hw
  exact hw.2

/-- The innermost examination is over, so the one outside of it goes on. -/
theorem close_wp {b : Bool} (h : Concluding s t known r) (hstack : r.examinations = e :: outer)
    (hc : Concluded s e.fact b r r') {k : Routine Bool} {Q : Bool → Run → Prop}
    (hk : ∀ r'', Concluding s t b r'' → Looks r r'' → remaining r'' < remaining r → WP k r'' Q) :
    WP (do
      modify fun r => { r with examinations := outer }
      c.announce (.checkingFinished e.fact)
      resume c
      k) r' Q := by
  rw [WP.bind_iff, WP.modify_iff, WP.bind_iff]
  refine Context.announce_wp s.basic.stop fun journal => ?_
  rw [WP.bind_iff]
  have ha₁ : Alike r { r' with journal, examinations := outer } :=
    hc.alike.trans ⟨⟨_, _, _, rfl⟩, fun _ _ => Iff.rfl⟩
  refine (resume_wp (h.close hstack hc journal) (h.outer_open hstack)).mono ?_
  rintro _ r₂ ⟨h₂, ha₂, hw₂, hmap₂⟩
  have hmap₂ : r₂.examinations.map Examination.fact = outer.map Examination.fact := hmap₂
  have hlen : r₂.examinations.length = outer.length := by
    rw [← List.length_map (f := Examination.fact), hmap₂, List.length_map]
  have ha := ha₁.trans ha₂
  refine hk r₂ { h₂ with awake := hw₂, last := fun u hu => h.last u ?_, known_iff := fun hnil => ?_ }
    ha.looks ?_
  · rw [hmap₂] at hu
    rw [hstack, List.map_cons, List.getLast?_cons, hu]
    rfl
  · have hnil : outer = [] := List.eq_nil_of_length_eq_zero (by rw [← hlen, hnil]; rfl)
    have ht : e.fact = t := h.last _ (by rw [hstack, hnil]; rfl)
    rw [← ht, ha₂.has_iff]
    exact hc.known_iff
  · rw [remaining, remaining, unexamined_congr ha.looks.table_eq fun u => ha.has_iff _ u, hlen, hstack,
      List.length_cons]
    omega

/-- Another examination begins, for which the innermost one waits. -/
theorem descend_wp (hlevel : task.level = s.level) (hbudget : s.first.table.size < task.budget)
    (h : Concluding s t known r) (hstack : r.examinations = e :: outer)
    (hd : Descends s e.fact outer row u r r') {k : Routine Bool} {Q : Bool → Run → Prop}
    (hk : ∀ r'', Concluding s t known r'' → Looks r r'' → remaining r'' < remaining r → WP k r'' Q) :
    WP (do
      begin c task row u
      k) r' Q := by
  obtain ⟨e₁, hstack₁, hfact₁, hopen₁, -⟩ := hd.stack
  rw [WP.bind_iff]
  refine (begin_wp hlevel hbudget (h.descend hstack hd) hd.fact_eq
    ((hd.checked_iff u).mpr (.inr rfl)) hd.unqueued).mono ?_
  rintro _ r₂ ⟨h₂, hl₂, hchecked₂, e₂, hstack₂, rfl, hproved₂⟩
  have hlt : unexamined r₂ < unexamined r := by
    rw [unexamined_congr hl₂.table_eq hchecked₂]
    exact unexamined_lt hd.looks.table_eq hd.fact_eq hd.fresh hd.checked_iff
  have hstack₂ : r₂.examinations = e₂ :: e₁ :: outer := by rw [hstack₂, hstack₁]
  refine hk r₂ { h₂ with
    awake := ?_
    last := fun v hv => h.last v ?_
    known_iff := fun hnil => ?_ } (hd.looks.trans hl₂) ?_
  · rw [hstack₂]
    refine ⟨hproved₂, fun o ho => ?_⟩
    rcases List.mem_cons.mp ho with rfl | ho
    · exact hopen₁
    · exact h.outer_open hstack o ho
  · rw [hstack₂, List.map_cons, List.map_cons, hfact₁, List.getLast?_cons_cons] at hv
    rw [hstack, List.map_cons]
    exact hv
  · rw [hstack₂] at hnil
    cases hnil
  · rw [remaining, remaining, hstack₂, hstack, List.length_cons, List.length_cons, List.length_cons]
    omega

end Concluding

/-- All examinations end, and the answer is whether the fact of the last one is proved. -/
theorem conclude_wp (hlevel : task.level = s.level) (hbudget : s.first.table.size < task.budget)
    (fuel : Nat) (known : Bool) (h : Concluding s t known r) (hfuel : remaining r < fuel) :
    WP (conclude c task fuel known) r fun b r' => Examining s ∅ r' ∧ r'.examinations = [] ∧
      Looks r r' ∧ (b = true ↔ r'.HasAtLevel proved t) := by
  induction fuel generalizing r known with
  | zero => exact absurd hfuel (Nat.not_lt_zero _)
  | succ fuel ih =>
    -- the induction hypothesis, for the run after a turn
    have hrest : ∀ known' r', Concluding s t known' r' → Looks r r' → remaining r' < remaining r →
        WP (conclude c task fuel known') r' fun b r'' => Examining s ∅ r'' ∧ r''.examinations = [] ∧
          Looks r r'' ∧ (b = true ↔ r''.HasAtLevel proved t) := by
      intro known' r' h' hl hlt
      refine (ih known' h' (by omega)).mono ?_
      rintro b r'' ⟨h'', hnil, hl', hb⟩
      exact ⟨h'', hnil, hl.trans hl', hb⟩
    rw [conclude, WP.bind_iff]
    refine Routine.reads_wp ?_
    cases hstack : r.examinations with
    | nil => exact WP.pure_iff.mpr ⟨h.toExamining, hstack, .refl r, h.known_iff hstack⟩
    | cons e outer =>
      have hproved := h.proved_iff hstack
      dsimp only
      cases hp : e.proved with
      | true =>
        rw [if_pos rfl, WP.bind_iff]
        exact WP.pure_iff.mpr
          (h.close_wp hstack (.of_proved h.toSettled (hproved.mp hp)) (hrest true))
      | false =>
        have hn : ¬ r.HasAtLevel proved e.fact := fun hh => by
          rw [hproved.mpr hh] at hp
          cases hp
        have he := h.stack e (hstack ▸ List.mem_cons_self)
        rw [if_neg Bool.false_ne_true, WP.bind_iff]
        refine (explore_wp hlevel e r h.toSettled he hp hn ⟨e, hstack⟩).mono fun turn r₁ hturn => ?_
        cases turn with
        | close b =>
          obtain ⟨rfl, hf⟩ := hturn
          exact h.close_wp hstack (hf.concluded hn) (hrest false)
        | descend next u => exact h.descend_wp hlevel hbudget hstack hturn (hrest known)

end Entail.Search
