import Entail.Maintenance.Changes
import Entail.Proofs.Maintenance.Budget
import Entail.Proofs.Maintenance.Queue
import Entail.Proofs.Maintenance.View

/-!
# The changes of an update

Before the first level is worked off, the base facts are those of before without the retractions and
with the assertions, and the queues list the facts for which that was a change (`retract_wp`,
`assert_wp`).
-/

namespace Entail.Changes

open Flag.Update

variable {c : Context} {rules : List Rule} {levels N : Nat} {U E I D A : Set Triple} {r r' : Run}
  {t : Triple}

/-! ## Retractions and assertions -/

/-- The facts of which `S` holds are queued: each in the queue of its level if levels are in use, else
in the work list. -/
def Seeds (c : Context) (T : Table) (listed : List RowIndex) (initially : Array Queue)
    (S : Triple → Prop) : Prop :=
  if c.mode.usesLevels then
    listed = [] ∧ ∀ (l : Nat) q, initially[l]? = some q →
      q.cursor = 0 ∧ Lists T (fun t => S t ∧ c.rules.componentLevel t = l) q.values.toList
  else Lists T S listed

namespace Seeds

variable {T T' : Table} {listed : List RowIndex} {initially : Array Queue} {S S' : Triple → Prop}
  {row : Nat}

theorem congr (h : Seeds c T listed initially S) (hS : ∀ t, S' t ↔ S t) :
    Seeds c T listed initially S' := by
  rw [Seeds] at h ⊢
  split
  · rw [if_pos ‹_›] at h
    exact ⟨h.1, fun l q hq => ⟨(h.2 l q hq).1, (h.2 l q hq).2.congr fun t =>
      and_congr_left fun _ => hS t⟩⟩
  · rw [if_neg ‹_›] at h
    exact h.congr hS

/-- Rows may be added, and their status may change. -/
theorem extend (h : Seeds c T listed initially S)
    (hT : ∀ row t, T.fact? row = some t → T'.fact? row = some t)
    (hS : ∀ t, S t → ∃ row, T.fact? row = some t) : Seeds c T' listed initially S := by
  rw [Seeds] at h ⊢
  split
  · rw [if_pos ‹_›] at h
    exact ⟨h.1, fun l q hq => ⟨(h.2 l q hq).1, (h.2 l q hq).2.extend hT fun t ht => hS t ht.1⟩⟩
  · rw [if_neg ‹_›] at h
    exact h.extend hT hS

/-- Without levels, a row is put behind the work list. -/
theorem push (h : Seeds c T listed initially S) (hu : c.mode.usesLevels = false)
    (hf : T.fact? row = some t) (ht : ¬ S t) (hS : ∀ u, S' u ↔ S u ∨ u = t) :
    Seeds c T (listed ++ [row]) initially S' := by
  rw [Seeds, hu, if_neg Bool.false_ne_true] at h ⊢
  exact h.push hf ht hS

/-- With levels, a row is put behind the queue of the level of its fact. -/
theorem pushLevel {q : Queue} (h : Seeds c T listed initially S) (hu : c.mode.usesLevels = true)
    (hq : initially[c.rules.componentLevel t]? = some q) (hf : T.fact? row = some t) (ht : ¬ S t)
    (hS : ∀ u, S' u ↔ S u ∨ u = t) :
    Seeds c T listed (initially.setIfInBounds (c.rules.componentLevel t) (q.push row)) S' := by
  rw [Seeds, hu, if_pos rfl] at h ⊢
  obtain ⟨hlisted, hlists⟩ := h
  refine ⟨hlisted, fun l q' hq' => ?_⟩
  rw [Array.getElem?_setIfInBounds] at hq'
  by_cases hl : c.rules.componentLevel t = l
  · subst hl
    rw [if_pos rfl, if_pos (Array.getElem?_eq_some_iff.mp hq).1] at hq'
    cases hq'
    obtain ⟨hcursor, hl⟩ := hlists _ q hq
    refine ⟨hcursor, ?_⟩
    show Lists T _ (q.values.push row).toList
    rw [Array.toList_push]
    refine hl.push hf (fun hs => ht hs.1) fun u => ?_
    rw [hS, or_and_right]
    exact or_congr_right (and_iff_left_of_imp fun he => he ▸ rfl)
  · rw [if_neg hl] at hq'
    obtain ⟨hcursor, hlist⟩ := hlists l q' hq'
    refine ⟨hcursor, hlist.congr fun u => and_congr_left fun hc => ?_⟩
    rw [hS]
    exact or_iff_left fun he => hl (he ▸ hc)

end Seeds

/-- What is queued before the first level: facts to be deleted or facts to be added. -/
inductive Side where
  | deletion
  | addition

namespace Side

/-- The work list of a side. -/
def work : Side → WorkList
  | deletion => .deleted
  | addition => .added

/-- The flag of the facts queued. -/
def flag : Side → Flags
  | deletion => deletedNew
  | addition => addedNew

/-- The queues of the levels. -/
def byLevel (u : Update) : Side → Array Queue
  | deletion => u.initiallyDeleted
  | addition => u.initiallyAdded

/-- For each level, the end of its part of the work list of a side. -/
def ends (u : Update) : Side → Array Nat
  | deletion => u.deletedEnds
  | addition => u.addedEnds

/-- The update with other queues of the levels. -/
def withByLevel (u : Update) (qs : Array Queue) : Side → Update
  | deletion => { u with initiallyDeleted := qs }
  | addition => { u with initiallyAdded := qs }

/-- The update with other flags and queues of a side. -/
def withParts (s : Side) (u : Update) (m : Marks) (q : Queue) (qs : Array Queue) : Update :=
  s.withByLevel ({ u with flags := m }.withQueue s.work q) qs

theorem byLevel_eq (h : r.SameQueues r') (s : Side) : s.byLevel r'.update = s.byLevel r.update := by
  cases s
  · exact h.initiallyDeleted
  · exact h.initiallyAdded

theorem ends_eq (h : r.SameQueues r') (s : Side) : s.ends r'.update = s.ends r.update := by
  cases s
  · exact h.deletedEnds
  · exact h.addedEnds

variable (s : Side) (u : Update) (m : Marks) (q : Queue) (qs : Array Queue)

theorem isBit_flag : Bits.IsBit s.flag := by
  cases s
  · exact Bits.isBit_deletedNew
  · exact Bits.isBit_addedNew

theorem ends_closeLevel (s : Side) (u : Update) (level : Option Nat) : s.ends (u.closeLevel level) =
    (s.ends u).setIfInBounds (level.getD 0) (u.queue s.work).size := by
  cases s <;> rfl

@[simp] theorem byLevel_withParts : s.byLevel (s.withParts u m q qs) = qs := by
  cases s <;> rfl

@[simp] theorem queue_withParts : (s.withParts u m q qs).queue s.work = q := by
  cases s <;> rfl

@[simp] theorem flags_withParts : (s.withParts u m q qs).flags = m := by
  cases s <;> rfl

theorem withParts_self :
    s.withParts u m (u.queue s.work) (s.byLevel u) = { u with flags := m } := by
  cases s <;> rfl

end Side

section queue

variable {s : Side} {row : Nat} {m : Marks}

/-- The queue of a fact gets one more row. -/
theorem queue_wp {S S' : Triple → Prop} (hf : r.table.fact? row = some t) (ht : ¬ S t)
    (hS : ∀ u, S' u ↔ S u ∨ u = t)
    (hlevel : c.mode.usesLevels = true → c.rules.componentLevel t < (s.byLevel r.update).size)
    (h : Seeds c r.table (r.listed s.work) (s.byLevel r.update) S) :
    WP (queue c s.work s.byLevel s.withByLevel row t)
      { r with update := { r.update with flags := m } } fun _ r' =>
      ∃ q qs, r' = { r with update := s.withParts r.update m q qs } ∧
        qs.size = (s.byLevel r.update).size ∧
        Seeds c r'.table (r'.listed s.work) (s.byLevel r'.update) S' := by
  have hpos := (Table.fact?_bounds hf).1
  have hqueue : ({ r.update with flags := m } : Update).queue s.work = r.update.queue s.work := by
    cases s <;> rfl
  have hby : s.byLevel { r.update with flags := m } = s.byLevel r.update := by
    cases s <;> rfl
  rw [queue]
  cases hu : c.mode.usesLevels with
  | false =>
    simp only [Bool.not_false, if_true]
    refine Routine.enqueue_wp hpos ⟨(r.update.queue s.work).push row, s.byLevel r.update, ?_, rfl, ?_⟩
    · rw [hqueue]
      cases s <;> rfl
    · rw [Run.listed, Update.queue_withQueue, hqueue, Queue.push, Array.toList_push]
      have := h.push hu hf ht hS
      cases s <;> exact this
  | true =>
    simp only [Bool.not_true, Bool.false_eq_true, if_false]
    obtain ⟨q, hq⟩ : ∃ q, (s.byLevel r.update)[c.rules.componentLevel t]? = some q :=
      ⟨_, Array.getElem?_eq_getElem (hlevel hu)⟩
    have hne : ¬ row = 0 := Nat.pos_iff_ne_zero.mp hpos
    rw [WP.bind_iff]
    refine Routine.demand_wp (by rw [hby]; exact hq) ?_
    rw [WP.bind_iff, Queue.enqueue, if_neg hne]
    refine WP.pure_iff.mpr (WP.modify_iff.mpr ⟨r.update.queue s.work,
      (s.byLevel r.update).setIfInBounds (c.rules.componentLevel t) (q.push row), ?_,
      Array.size_setIfInBounds, ?_⟩)
    · cases s <;> rfl
    · have := h.pushLevel hu hq hf ht hS
      cases s <;> exact this

/-- A fact gets the flag of a side, and its row is queued if the flag is new. -/
theorem flag_wp (hp : r.Plain) (hf : r.table.fact? row = some t)
    (hlevel : c.mode.usesLevels = true → c.rules.componentLevel t < (s.byLevel r.update).size)
    (h : Seeds c r.table (r.listed s.work) (s.byLevel r.update) (r.Has s.flag)) :
    WP (do if ← Routine.addFlags row s.flag then queue c s.work s.byLevel s.withByLevel row t) r
      fun _ r' => ∃ m q qs, r' = { r with update := s.withParts r.update m q qs } ∧
        r.update.flags.Adds row s.flag m ∧ qs.size = (s.byLevel r.update).size ∧
        Seeds c r'.table (r'.listed s.work) (s.byLevel r'.update)
          fun u => r.Has s.flag u ∨ u = t := by
  rw [WP.bind_iff]
  refine Routine.addFlags_wp s.isBit_flag (hp.row_lt hf) fun m ha => ?_
  cases hold : (r.flags row).any s.flag with
  | true =>
    have hhad : r.Has s.flag t := (Run.has_iff hf).mpr hold
    simp only [Bool.not_true, Bool.false_eq_true, if_false]
    refine WP.pure_iff.mpr ⟨m, _, _, congrArg (fun u => { r with update := u })
      (s.withParts_self r.update m).symm, ha, rfl, ?_⟩
    have hseeds : Seeds c r.table (r.listed s.work) (s.byLevel r.update)
        fun u => r.Has s.flag u ∨ u = t := h.congr fun u => ⟨fun hu => hu.elim id fun he => he ▸ hhad, .inl⟩
    cases s <;> exact hseeds
  | false =>
    have hnot : ¬ r.Has s.flag t := fun hs => by
      have := (Run.has_iff hf).mp hs
      rw [hold] at this
      cases this
    simp only [Bool.not_false, if_true]
    refine (queue_wp hf hnot (fun u => show r.Has s.flag u ∨ u = t ↔ _ from Iff.rfl) hlevel
      h).mono ?_
    rintro _ r' ⟨q, qs, hr', hsize, hseeds⟩
    exact ⟨m, q, qs, hr', ha, hsize, hseeds⟩

end queue

/-- What holds while the changes are queued: `E` is asserted, `I` was there before the update, and the
facts in `Q` are flagged and queued. -/
structure Seeding (c : Context) (levels : Nat) (U E I : Set Triple) (Q : Side → Set Triple) (r : Run) :
    Prop where
  plain : r.Plain
  facts (row : Nat) (t : Triple) (h : r.table.fact? row = some t) : t ∈ U
  asserted_iff (t : Triple) : r.Asserted t ↔ t ∈ E
  before_iff (t : Triple) : r.Before t ↔ t ∈ I
  has_iff (s : Side) (t : Triple) : r.Has s.flag t ↔ t ∈ Q s
  clean (row : Nat) (b : Flags) (h : ∀ s : Side, s.flag.any b = false) : (r.flags row).any b = false
  seeds (s : Side) : Seeds c r.table (r.listed s.work) (s.byLevel r.update) (· ∈ Q s)
  size (s : Side) : (s.byLevel r.update).size = levels
  ends (s : Side) : (s.ends r.update).size = levels

namespace Seeding

variable {Q : Side → Set Triple} {row : Nat}

theorem congr {E' : Set Triple} {Q' : Side → Set Triple} (h : Seeding c levels U E I Q r)
    (hE : ∀ t, t ∈ E' ↔ t ∈ E) (hQ : ∀ s t, t ∈ Q' s ↔ t ∈ Q s) :
    Seeding c levels U E' I Q' r := by
  obtain rfl : E' = E := Set.ext hE
  obtain rfl : Q' = Q := funext fun s => Set.ext (hQ s)
  exact h

/-- Nothing is queued for a fact of which nothing changes. -/
theorem unqueued {s₀ : Side} {P : Triple → Prop} (h : Seeding c levels U E I Q r) (ht : ¬ P t) :
    Seeding c levels U E I (fun s => {u | u ∈ Q s ∨ s = s₀ ∧ P u ∧ u = t}) r :=
  h.congr (fun _ => Iff.rfl) fun _ _ =>
    or_iff_left fun hu => ht (hu.2.2 ▸ hu.2.1)

/-- A fact is flagged and queued. -/
theorem flag (h : Seeding c levels U E I Q r) (s : Side) (hf : r.table.fact? row = some t)
    (hlevel : c.mode.usesLevels = true → c.rules.componentLevel t < levels) :
    WP (do if ← Routine.addFlags row s.flag then queue c s.work s.byLevel s.withByLevel row t) r
      fun _ r' => Seeding c levels U E I (fun s' => {u | u ∈ Q s' ∨ s' = s ∧ u = t}) r' := by
  refine (flag_wp (s := s) h.plain hf (by rwa [h.size s]) ((h.seeds s).congr (h.has_iff s))).mono ?_
  rintro _ r' ⟨m, q, qs, rfl, ha, hsize, hseeds⟩
  have hflags : ∀ b u, Run.Has { r with update := s.withParts r.update m q qs } b u ↔
      r.Has b u ∨ (s.flag.any b = true ∧ u = t) := fun b u => by
    show r.table.Holds (fun row => ((s.withParts r.update m q qs).flags.flags row).any b) u ↔ _
    rw [Side.flags_withParts]
    exact ha.holds_iff hf
  have hplain : Run.Plain { r with update := s.withParts r.update m q qs } := by
    have := h.plain.withMarks (l := .update) hf ha (by cases s <;> rfl)
    cases s <;> exact { this with }
  refine ⟨hplain, h.facts, h.asserted_iff, h.before_iff, fun s' u => ?_, fun other b hb => ?_,
    fun s' => ?_, fun s' => ?_, fun s' => ?_⟩
  · have hany : s.flag.any s'.flag = true ↔ s' = s := by
      cases s <;> cases s' <;> simp only [reduceCtorEq, iff_false, iff_true] <;> decide
    rw [hflags, h.has_iff, hany]
    rfl
  · show ((s.withParts r.update m q qs).flags.flags other).any b = false
    rw [Side.flags_withParts, ha.any, hb s, Bool.and_false, Bool.or_false]
    exact h.clean other b hb
  · by_cases hs : s' = s
    · subst hs
      exact hseeds.congr fun u => by simp [h.has_iff]
    · have hseeds' := (h.seeds s').congr fun u =>
        show u ∈ {u | u ∈ Q s' ∨ s' = s ∧ u = t} ↔ _ by simp [hs]
      cases s <;> cases s' <;> first | exact hseeds' | exact absurd rfl hs
  · have := h.size s'
    cases s <;> cases s' <;> first | exact this | exact hsize.trans (h.size _)
  · have := h.ends s'
    cases s <;> cases s' <;> exact this

/-- The status of a row changes, but not whether its fact was there before. -/
theorem setStatus {st : Status} {T : Table} (h : Seeding c levels U E I Q r)
    (hT : r.table.Sets row st T) (hf : r.table.fact? row = some t)
    (hm : st.any Status.merged = false)
    (hb : Standing.before st = Standing.before (r.table.status row)) :
    Seeding c levels U {u | if u = t then st.any Status.asserted = true else u ∈ E} I Q
      { r with table := T } := by
  refine ⟨h.plain.withStatus hT hm, fun other u hu => h.facts other u (by rwa [← hT.fact?_eq]),
    fun u => ?_, fun u => ?_, fun s u => hT.holds_iff.trans (h.has_iff s u), h.clean, fun s => ?_,
    h.size, h.ends⟩
  · refine (hT.holds_status_iff hf (p := fun st => st.any Status.asserted)).trans ?_
    simp only [Set.mem_ofPred_eq]
    split
    · exact Iff.rfl
    · exact h.asserted_iff u
  · refine (hT.holds_status_iff hf (p := Standing.before)).trans ?_
    split
    · rename_i hu
      subst hu
      rw [hb, ← h.before_iff, Run.before_iff hf]
    · exact h.before_iff u
  · refine (h.seeds s).extend (fun other u hu => by rwa [hT.fact?_eq]) fun u hu => ?_
    exact ((h.has_iff s u).mpr hu).mem

/-- A fact is not asserted any more. -/
theorem unassert {T : Table} (h : Seeding c levels U E I Q r) (hf : r.table.fact? row = some t)
    (hT : r.table.Sets row ((r.table.status row).update Status.asserted 0) T) :
    Seeding c levels U {u | u ∈ E ∧ u ≠ t} I Q { r with table := T } := by
  have hmerged : ((r.table.status row).update Status.asserted 0).any Status.merged = false := by
    rw [Bits.any_update Bits.isBit_merged, h.plain.unmerged]
    rfl
  have hbefore : Standing.before ((r.table.status row).update Status.asserted 0) =
      Standing.before (r.table.status row) := by
    simp only [Standing.before_iff, Bits.any_update Bits.isBit_derived,
      Bits.any_update Bits.isBit_merged, Bits.zero_any,
      show Bits.any Status.asserted Status.derived = false from rfl,
      show Bits.any Status.asserted Status.merged = false from rfl]
    simp
  refine (h.setStatus hT hf hmerged hbefore).congr (fun u => ?_) fun _ _ => Iff.rfl
  simp only [Set.mem_ofPred_eq, Bits.any_update Bits.isBit_asserted, Bits.isBit_asserted.any_self,
    Bits.zero_any]
  split <;> rename_i hu <;> simp [hu]

/-- A fact is stored and asserted. -/
theorem store {T : Table} (h : Seeding c levels U E I Q r)
    (hT : r.table.Stores t Status.asserted row T) (hU : ∀ row u, T.fact? row = some u → u ∈ U)
    (hroom : T.size < Marks.room) :
    Seeding c levels U {u | u ∈ E ∨ u = t} I Q { r with table := T } := by
  have hplain := h.plain.withStored hT hroom rfl
  refine ⟨hplain, hU, fun u => ?_, fun u => ?_, fun s u => ?_, h.clean, fun s => ?_, h.size, h.ends⟩
  · refine (hT.holds_status_iff rfl).trans (or_congr (h.asserted_iff u) ?_)
    simp [Bits.isBit_asserted.any_self]
  · rw [Run.before_iff_derived hplain.unmerged, ← h.before_iff,
      Run.before_iff_derived h.plain.unmerged]
    refine (hT.holds_status_iff rfl).trans (or_iff_left ?_)
    rintro ⟨hb, -⟩
    cases hb
  · refine (hT.holds_iff fun other ho => ?_).trans (h.has_iff s u)
    exact (congrArg (Bits.any · s.flag) (h.plain.flags other ho)).trans (Bits.zero_any _)
  · exact (h.seeds s).extend hT.keeps fun u hu => ((h.has_iff s u).mpr hu).mem

/-- No other flag is set. -/
theorem not_has (h : Seeding c levels U E I Q r) {b : Flags} (hb : ∀ s : Side, s.flag.any b = false) :
    ¬ r.Has b t := by
  rintro ⟨row, -, hh⟩
  exact Bool.false_ne_true ((h.clean row b hb).symm.trans hh)

/-- The first level is started. -/
theorem startLevel (h : Seeding c levels U E I Q r) :
    Seeding c levels U E I Q { r with update := r.update.startLevel } where
  plain := h.plain.startLevel
  facts := h.facts
  asserted_iff := h.asserted_iff
  before_iff := h.before_iff
  has_iff := h.has_iff
  clean := h.clean
  seeds s := by
    have := h.seeds s
    cases s <;> exact this
  size s := by
    have := h.size s
    cases s <;> exact this
  ends s := by
    have := h.ends s
    cases s <;> exact this

theorem journal (h : Seeding c levels U E I Q r) (journal : Array Entry) :
    Seeding c levels U E I Q { r with journal } :=
  { h with plain := { h.plain with } }

end Seeding

section seeding

variable {Q : Side → Set Triple} (hc : c.Basic rules)
  (hlevels : ∀ t, c.mode.usesLevels = true → c.rules.componentLevel t < levels)

include hc hlevels

/-- A fact that is asserted is not any more, and is queued for deletion. -/
theorem retractOne_wp (h : Seeding c levels U E I Q r) (t : Triple) :
    WP (retractOne c t) r fun _ r' => Seeding c levels U {u | u ∈ E ∧ u ≠ t} I
      (fun s => {u | u ∈ Q s ∨ s = .deletion ∧ u ∈ E ∧ u = t}) r' := by
  rw [retractOne, WP.bind_iff]
  refine Routine.reads_wp ?_
  cases hi : r.table.index? t with
  | none =>
    have ht : t ∉ E := fun ht => by
      obtain ⟨row, hf⟩ := ((h.asserted_iff t).mpr ht).mem
      rw [Table.index?_eq_some_iff.mpr hf] at hi
      cases hi
    refine WP.pure_iff.mpr ((h.congr (fun u => ?_) fun _ _ => Iff.rfl).unqueued ht)
    exact and_iff_left_of_imp fun hu he => ht (he ▸ hu)
  | some row =>
    have hf := Table.index?_eq_some_iff.mp hi
    dsimp only
    rw [WP.bind_iff]
    refine Routine.updateStatus_wp hf fun T hset => ?_
    have hseed := h.unassert hf hset
    rw [Bits.update_bne]
    have hasserted : (r.table.status row).any Status.asserted = true ↔ t ∈ E :=
      (Run.asserted_iff hf).symm.trans (h.asserted_iff t)
    by_cases ht : t ∈ E
    · rw [if_pos (hasserted.mpr ht), WP.bind_iff, standIn, WP.bind_iff]
      refine Routine.reads_wp ?_
      rw [hc.steady_eq]
      refine WP.pure_iff.mpr ?_
      dsimp only
      rw [WP.bind_iff]
      refine (hseed.flag .deletion (by rwa [hset.fact?_eq]) (hlevels t)).mono fun _ r' h' =>
        WP.pure_iff.mpr (h'.congr (fun _ => Iff.rfl) fun s u => ?_)
      refine or_congr_right (and_congr_right fun _ => ⟨fun hu => hu.2, fun hu => ⟨hu ▸ ht, hu⟩⟩)
    · rw [if_neg (mt hasserted.mp ht)]
      exact WP.pure_iff.mpr (hseed.unqueued ht)

/-- The retracted facts are not asserted any more, and those that were are queued for deletion. -/
theorem retract_wp (h : Seeding c levels U E I Q r) (facts : List Triple) :
    WP (retract c facts) r fun _ r' => Seeding c levels U {u | u ∈ E ∧ u ∉ facts} I
      (fun s => {u | u ∈ Q s ∨ s = .deletion ∧ u ∈ E ∧ u ∈ facts}) r' := by
  suffices H : ∀ (facts : List Triple) (n : Retracted) E Q r, Seeding c levels U E I Q r →
      WP (facts.foldlM (fun (n : Retracted) t => do
        if ← retractOne c t then pure { n with seeded := n.seeded + 1 }
        else pure { n with ignored := n.ignored + 1 }) n) r fun _ r' =>
          Seeding c levels U {u | u ∈ E ∧ u ∉ facts} I
            (fun s => {u | u ∈ Q s ∨ s = .deletion ∧ u ∈ E ∧ u ∈ facts}) r' by
    rw [retract, WP.bind_iff]
    refine (H facts ⟨0, 0⟩ E Q r h).mono fun n r' h' => ?_
    rw [WP.bind_iff]
    exact Routine.note_wp fun journal => WP.pure_iff.mpr (h'.journal journal)
  intro facts
  induction facts with
  | nil => exact fun n E Q r h => WP.pure_iff.mpr (h.congr (by simp) (by simp))
  | cons t facts ih =>
    intro n E Q r h
    rw [List.foldlM_cons, WP.bind_iff, WP.bind_iff]
    refine (retractOne_wp hc hlevels h t).mono fun retracted r₁ h₁ => ?_
    have hrest : ∀ n, WP (facts.foldlM (fun (n : Retracted) t => do
        if ← retractOne c t then pure { n with seeded := n.seeded + 1 }
        else pure { n with ignored := n.ignored + 1 }) n) r₁ fun _ r' =>
          Seeding c levels U {u | u ∈ E ∧ u ∉ t :: facts} I
            (fun s => {u | u ∈ Q s ∨ s = .deletion ∧ u ∈ E ∧ u ∈ t :: facts}) r' := fun n =>
      (ih n _ _ r₁ h₁).mono fun _ r' h' => h'.congr (fun u => by simp [and_assoc]) fun s u => by
        simp only [Set.mem_ofPred_eq, List.mem_cons]
        tauto
    split
    · exact WP.pure_iff.mpr (hrest _)
    · exact WP.pure_iff.mpr (hrest _)

omit hc in
/-- A fact that is not asserted gets so, and is queued for addition. -/
theorem assertOne_wp (hU : Universe rules U N) (hroom : N < Marks.room)
    (h : Seeding c levels U E I Q r) (ht : t ∈ U) :
    WP (assertOne c t) r fun _ r' => Seeding c levels U {u | u ∈ E ∨ u = t} I
      (fun s => {u | u ∈ Q s ∨ s = .addition ∧ u ∉ E ∧ u = t}) r' := by
  -- a fact that was not asserted is queued
  have hqueue : ∀ (r₁ : Run) (row : Nat), t ∉ E → r₁.table.fact? row = some t →
      Seeding c levels U {u | u ∈ E ∨ u = t} I Q r₁ →
      WP (queueAdded c row t) r₁ fun _ r' => Seeding c levels U {u | u ∈ E ∨ u = t} I
        (fun s => {u | u ∈ Q s ∨ s = .addition ∧ u ∉ E ∧ u = t}) r' := fun r₁ row ht hf h₁ =>
    (h₁.flag .addition hf (hlevels t)).mono fun _ r' h' => h'.congr (fun _ => Iff.rfl) fun s u =>
      or_congr_right (and_congr_right fun _ => ⟨fun hu => hu.2, fun hu => ⟨hu ▸ ht, hu⟩⟩)
  rw [assertOne, WP.bind_iff]
  refine Routine.store_wp Bits.isBit_asserted fun row T hT => ?_
  have hTU : ∀ row u, T.fact? row = some u → u ∈ U := fun row u hu => by
    rcases hT.old row u hu with hu | rfl
    · exact h.facts row u hu
    · exact ht
  have h₁ := h.store hT hTU ((hU.size_le hTU).trans_lt hroom)
  dsimp only
  have hasserted : (r.table.status row).any Status.asserted = true ↔ t ∈ E := by
    rw [← h.asserted_iff]
    exact hT.any_iff
  cases hnew : (r.table.status row).any Status.asserted with
  | false =>
    have hnot : t ∉ E := fun ht => by
      rw [hasserted.mpr ht] at hnew
      cases hnew
    simp only [Bool.not_false, if_true]
    rw [WP.bind_iff]
    exact (hqueue _ row hnot hT.fact? h₁).mono fun _ r' h' => WP.pure_iff.mpr h'
  | true =>
    have htE := hasserted.mp hnew
    simp only [Bool.not_true, Bool.false_eq_true, if_false]
    exact WP.pure_iff.mpr (h₁.unqueued fun hu => hu htE)

omit hc in
/-- The asserted facts are asserted, and those that were not are queued for addition. -/
theorem assert_wp (hU : Universe rules U N) (hroom : N < Marks.room)
    (h : Seeding c levels U E I Q r) (facts : List Triple) (hfacts : ∀ t ∈ facts, t ∈ U) :
    WP (assert c facts) r fun _ r' => Seeding c levels U {u | u ∈ E ∨ u ∈ facts} I
      (fun s => {u | u ∈ Q s ∨ s = .addition ∧ u ∉ E ∧ u ∈ facts}) r' := by
  suffices H : ∀ (facts : List Triple), (∀ t ∈ facts, t ∈ U) → ∀ (n : Nat) E Q r,
      Seeding c levels U E I Q r →
      WP (facts.foldlM (fun n t => do if ← assertOne c t then pure (n + 1) else pure n) n) r
        fun _ r' => Seeding c levels U {u | u ∈ E ∨ u ∈ facts} I
          (fun s => {u | u ∈ Q s ∨ s = .addition ∧ u ∉ E ∧ u ∈ facts}) r' by
    rw [assert, WP.bind_iff]
    refine (H facts hfacts 0 E Q r h).mono fun n r' h' => ?_
    rw [WP.bind_iff]
    exact Routine.note_wp fun journal => WP.pure_iff.mpr (h'.journal journal)
  intro facts hfacts
  induction facts with
  | nil => exact fun n E Q r h => WP.pure_iff.mpr (h.congr (by simp) (by simp))
  | cons t facts ih =>
    intro n E Q r h
    rw [List.foldlM_cons, WP.bind_iff, WP.bind_iff]
    refine (assertOne_wp hlevels hU hroom h (hfacts t List.mem_cons_self)).mono
      fun isNew r₁ h₁ => ?_
    have hrest : ∀ n, WP (facts.foldlM (fun n t => do
        if ← assertOne c t then pure (n + 1) else pure n) n) r₁ fun _ r' =>
          Seeding c levels U {u | u ∈ E ∨ u ∈ t :: facts} I
            (fun s => {u | u ∈ Q s ∨ s = .addition ∧ u ∉ E ∧ u ∈ t :: facts}) r' := fun n =>
      (ih (fun u hu => hfacts u (List.mem_cons_of_mem _ hu)) n _ _ r₁ h₁).mono fun _ r' h' =>
        h'.congr (fun u => by simp [or_assoc]) fun s u => by
          simp only [Set.mem_ofPred_eq, List.mem_cons]
          tauto
    split
    · exact WP.pure_iff.mpr (hrest _)
    · exact WP.pure_iff.mpr (hrest _)

end seeding

end Entail.Changes
