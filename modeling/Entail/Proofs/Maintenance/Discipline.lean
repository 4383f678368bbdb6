import Entail.Proofs.Maintenance.Frame

/-!
# Levels of the work lists

While a level is worked off, the work lists hold no row twice and only facts up to that level, and those
of lower levels come before the ends set for these (`Side.Levels`). Rows get into a work list in two
ways. A fact is flagged, and its row is queued if the flag is new (`Disciplined.addFlags_wlp`); or a level
takes over the queue with the base facts that were changed (`Side.Levels.takeOver`). A row of either
kind was flagged only once, so it is in one queue at most.
-/

namespace Entail

open Changes (Side)

variable {c : Context} {x : RuleIndex} {s : Side} {level taken l : Nat} {r r' : Run} {t : Triple}
  {row : RowIndex} {p p' : Nat → Prop} {q : Queue}

/-! ## What holds of a work list -/

namespace Run

/-- A row has the flag of a side, and the level of its fact has a property. -/
def FlaggedAt (r : Run) (s : Side) (x : RuleIndex) (p : Nat → Prop) (row : RowIndex) : Prop :=
  (r.flags row).any s.flag = true ∧ ∃ t, r.table.fact? row = some t ∧ p (x.componentLevel t)

/-- From `r` to `r'` no row loses its fact or the flag of a side. -/
structure KeepsFlags (s : Side) (r r' : Run) : Prop where
  fact? (row : Nat) (t : Triple) (h : r.table.fact? row = some t) : r'.table.fact? row = some t
  flag (row : Nat) (h : (r.flags row).any s.flag = true) : (r'.flags row).any s.flag = true

theorem QuietOn.keepsFlags (h : QuietOn s r r') : KeepsFlags s r r' :=
  ⟨h.fact?, fun row hr => (h.flag row).trans hr⟩

theorem FlaggedAt.of_keepsFlags (h : r.FlaggedAt s x p row) (hk : KeepsFlags s r r') :
    r'.FlaggedAt s x p row := by
  obtain ⟨hflag, t, hf, ht⟩ := h
  exact ⟨hk.flag row hflag, t, hk.fact? row t hf, ht⟩

theorem FlaggedAt.mono (h : r.FlaggedAt s x p row) (hp : ∀ l, p l → p' l) : r.FlaggedAt s x p' row :=
  ⟨h.1, h.2.imp fun _ => And.imp_right (hp _)⟩

/-- In a work list, the rows of the facts up to a level come before a place. -/
structure SplitAt (r : Run) (w : WorkList) (x : RuleIndex) (level place : Nat) : Prop where
  le_length : place ≤ (r.listed w).length
  lt_iff (i row : Nat) (t : Triple) (h : (r.listed w)[i]? = some row) (hf : r.table.fact? row = some t) :
    i < place ↔ x.componentLevel t ≤ level

end Run

namespace Changes.Side

/-- The queue of a level, from which nothing was taken, has rows of facts of the level that are not in
the work list yet. -/
structure Waits (s : Side) (x : RuleIndex) (level : Nat) (r : Run) (q : Queue) : Prop where
  cursor : q.cursor = 0
  nodup : q.values.toList.Nodup
  flagged (row : RowIndex) (h : row ∈ q.values.toList) : r.FlaggedAt s x (· = level) row
  unlisted (row : RowIndex) (h : row ∈ q.values.toList) : row ∉ r.listed s.work

/-- What holds of the work list of a side while a level is worked off. The queues of the levels from
`taken` on have not been taken over yet. -/
structure Levels (s : Side) (x : RuleIndex) (level taken : Nat) (r : Run) : Prop where
  nodup : (r.listed s.work).Nodup
  flagged (row : RowIndex) (h : row ∈ r.listed s.work) : r.FlaggedAt s x (· ≤ level) row
  size : (s.ends r.update).size = r.update.levels
  ended (l : Nat) (h : l < level) :
    ∃ place, (s.ends r.update)[l]? = some place ∧ r.SplitAt s.work x l place
  unended (l place : Nat) (h : level ≤ l) (hp : (s.ends r.update)[l]? = some place) : place = 0
  waits (l : Nat) (q : Queue) (h : taken ≤ l) (hq : (s.byLevel r.update)[l]? = some q) :
    s.Waits x l r q

theorem Waits.of_keepsFlags (h : s.Waits x l r q) (hk : r.KeepsFlags s r')
    (hlisted : ∀ row ∈ q.values.toList, row ∉ r'.listed s.work) : s.Waits x l r' q :=
  ⟨h.cursor, h.nodup, fun row hr => (h.flagged row hr).of_keepsFlags hk, hlisted⟩

namespace Levels

/-- Rows of facts of the level are queued behind the others. -/
theorem extend {rows : List RowIndex} {taken' : Nat} (h : s.Levels x level taken r)
    (hk : r.KeepsFlags s r') (hlisted : r'.listed s.work = r.listed s.work ++ rows)
    (hends : s.ends r'.update = s.ends r.update) (hlevels : r'.update.levels = r.update.levels)
    (hnodup : rows.Nodup) (hnew : ∀ row ∈ rows, row ∉ r.listed s.work)
    (hflagged : ∀ row ∈ rows, r'.FlaggedAt s x (· = level) row)
    (hwaits : ∀ l q, taken' ≤ l → (s.byLevel r'.update)[l]? = some q → s.Waits x l r' q) :
    s.Levels x level taken' r' where
  nodup := by
    rw [hlisted]
    exact List.nodup_append.mpr ⟨h.nodup, hnodup, fun row hr row' hr' he => hnew row' hr' (he ▸ hr)⟩
  flagged row hr := by
    rw [hlisted] at hr
    rcases List.mem_append.mp hr with hr | hr
    · exact (h.flagged row hr).of_keepsFlags hk
    · exact (hflagged row hr).mono fun _ => Nat.le_of_eq
  size := by rw [hends, hlevels, h.size]
  ended l hl := by
    obtain ⟨place, hplace, hsplit⟩ := h.ended l hl
    refine ⟨place, by rwa [hends], ?_, fun i row t hi hf => ?_⟩
    · rw [hlisted, List.length_append]
      exact Nat.le_add_right_of_le hsplit.le_length
    · rw [hlisted] at hi
      by_cases hlt : i < (r.listed s.work).length
      · rw [List.getElem?_append_left hlt] at hi
        obtain ⟨-, u, hu, -⟩ := h.flagged row (List.mem_of_getElem? hi)
        obtain rfl : u = t := Option.some.inj ((hk.fact? row u hu).symm.trans hf)
        exact hsplit.lt_iff i row u hi hu
      · rw [List.getElem?_append_right (Nat.le_of_not_lt hlt)] at hi
        obtain ⟨-, u, hu, hlevel⟩ := hflagged row (List.mem_of_getElem? hi)
        obtain rfl : u = t := Option.some.inj (hu.symm.trans hf)
        have := hsplit.le_length
        omega
  unended l place hl hp := h.unended l place hl (by rwa [← hends])
  waits := hwaits

theorem quiet (h : s.Levels x level taken r) (hq : r.QuietOn s r') : s.Levels x level taken r' := by
  have hlisted : r'.listed s.work = r.listed s.work ++ [] := by rw [hq.listed, List.append_nil]
  refine h.extend hq.keepsFlags hlisted hq.ends hq.levels List.nodup_nil (by simp) (by simp)
    fun l q hl hl' => ?_
  have hw := h.waits l q hl (by rwa [← hq.byLevel])
  refine hw.of_keepsFlags hq.keepsFlags fun row hr => ?_
  rw [hq.listed]
  exact hw.unlisted row hr

/-- A row with a new flag is nowhere yet. -/
theorem not_listed (h : s.Levels x level taken r) (hnew : (r.flags row).any s.flag = false) :
    row ∉ r.listed s.work := fun hr => by
  have := (h.flagged row hr).1
  rw [hnew] at this
  cases this

theorem not_waiting (h : s.Levels x level taken r) (hnew : (r.flags row).any s.flag = false)
    (hl : taken ≤ l) (hq : (s.byLevel r.update)[l]? = some q) : row ∉ q.values.toList := fun hr => by
  have := ((h.waits l q hl hq).flagged row hr).1
  rw [hnew] at this
  cases this

end Levels

end Changes.Side

/-! ## Rows that are flagged -/

/-- Each side has its own flag. -/
theorem Changes.Side.flag_any_flag (s : Side) {s' : Side} (hs : s' ≠ s) : s.flag.any s'.flag = false := by
  cases s <;> cases s' <;> first | exact absurd rfl hs | rfl

/-- The run with other flags and queues of a side. -/
def Run.withParts (r : Run) (s : Side) (m : Marks) (q : Queue) (qs : Array Queue) : Run :=
  { r with update := s.withParts r.update m q qs }

namespace Run

variable {m : Marks} {qs : Array Queue}

@[simp] theorem flags_withParts : (r.withParts s m q qs).flags row = m.flags row := by
  rw [flags, withParts, Side.flags_withParts]

@[simp] theorem listed_withParts : (r.withParts s m q qs).listed s.work = q.values.toList := by
  rw [listed, withParts, Side.queue_withParts]

@[simp] theorem byLevel_withParts : s.byLevel (r.withParts s m q qs).update = qs :=
  s.byLevel_withParts r.update m q qs

theorem ends_withParts {s' : Side} : s'.ends (r.withParts s m q qs).update = s'.ends r.update := by
  cases s <;> cases s' <;> rfl

theorem levels_withParts (hsize : qs.size = (s.byLevel r.update).size) :
    (r.withParts s m q qs).update.levels = r.update.levels := by
  cases s
  · exact hsize
  · rfl

variable (ha : r.update.flags.Adds row s.flag m)

include ha

/-- Flagging a row takes no flag away. -/
theorem keepsFlags_withParts (q : Queue) (qs : Array Queue) :
    r.KeepsFlags s (r.withParts s m q qs) := by
  refine ⟨fun _ _ => id, fun other ho => ?_⟩
  rw [flags_withParts, ha.any]
  exact (Bool.or_eq_true _ _).mpr (.inl ho)

theorem flaggedAt_withParts (hf : r.table.fact? row = some t) (hp : p (x.componentLevel t)) :
    (r.withParts s m q qs).FlaggedAt s x p row := by
  refine ⟨?_, t, hf, hp⟩
  rw [flags_withParts, ha.any]
  simp [s.isBit_flag.any_self]

/-- What is queued on one side does not matter on the other. -/
theorem quietOn_withParts (hsize : qs.size = (s.byLevel r.update).size) {s' : Side} (hs : s' ≠ s) :
    r.QuietOn s' (r.withParts s m q qs) := by
  refine ⟨fun _ _ => id, fun other => ?_, ?_, ?_, ends_withParts, levels_withParts hsize⟩
  · rw [flags_withParts, ha.any, s.flag_any_flag hs, Bool.and_false, Bool.or_false]
    rfl
  all_goals cases s <;> cases s' <;> first | exact absurd rfl hs | rfl

/-- Nothing is queued if the flag is not new. -/
theorem quiet_of_flagged (hold : (r.flags row).any s.flag = true) :
    r.Quiet { r with update := { r.update with flags := m } } := by
  refine .of_update (fun s' other => ?_) (fun s' => by cases s' <;> rfl)
    (fun s' => by cases s' <;> rfl) fun s' => by cases s' <;> rfl
  rw [ha.any]
  by_cases hs : s' = s
  · subst hs
    by_cases ho : row = other
    · subst ho
      rw [← Run.flags, hold, Bool.true_or]
    · simp [ho, Run.flags]
  · rw [s.flag_any_flag hs, Bool.and_false, Bool.or_false]
    rfl

end Run

namespace Changes.Side.Levels

/-- A fact of the level gets the flag of the side for the first time and is queued. -/
theorem mark {m : Marks} (h : s.Levels x level taken r) (hf : r.table.fact? row = some t)
    (hl : x.componentLevel t = level) (hnew : (r.flags row).any s.flag = false)
    (ha : r.update.flags.Adds row s.flag m) :
    s.Levels x level taken
      (r.withParts s m ((r.update.queue s.work).push row) (s.byLevel r.update)) := by
  have hk := Run.keepsFlags_withParts ha ((r.update.queue s.work).push row) (s.byLevel r.update)
  have hlisted : (r.withParts s m ((r.update.queue s.work).push row) (s.byLevel r.update)).listed s.work =
      r.listed s.work ++ [row] := by
    rw [Run.listed_withParts]
    simp [Queue.push, Run.listed]
  refine h.extend hk hlisted Run.ends_withParts (Run.levels_withParts rfl) (List.nodup_singleton row)
    (fun other ho => ?_) (fun other ho => ?_) fun l q hl hq => ?_
  · rw [List.mem_singleton.mp ho]
    exact h.not_listed hnew
  · rw [List.mem_singleton.mp ho]
    exact Run.flaggedAt_withParts ha hf hl
  · rw [Run.byLevel_withParts] at hq
    have hw := h.waits l q hl hq
    refine hw.of_keepsFlags hk fun other ho => ?_
    rw [hlisted, List.mem_append, List.mem_singleton]
    rintro (hmem | rfl)
    · exact hw.unlisted other ho hmem
    · exact h.not_waiting hnew hl hq ho

/-- A fact gets the flag of the side for the first time and waits in the queue of its level. -/
theorem seed {m : Marks} (h : s.Levels x level taken r) (hf : r.table.fact? row = some t)
    (hq : (s.byLevel r.update)[x.componentLevel t]? = some q) (hnew : (r.flags row).any s.flag = false)
    (ha : r.update.flags.Adds row s.flag m) (htaken : taken ≤ x.componentLevel t) :
    s.Levels x level taken (r.withParts s m (r.update.queue s.work)
      ((s.byLevel r.update).setIfInBounds (x.componentLevel t) (q.push row))) := by
  have hk := Run.keepsFlags_withParts ha (r.update.queue s.work)
    ((s.byLevel r.update).setIfInBounds (x.componentLevel t) (q.push row))
  refine h.extend hk (by rw [Run.listed_withParts, List.append_nil]; rfl) Run.ends_withParts
    (Run.levels_withParts Array.size_setIfInBounds) List.nodup_nil (by simp) (by simp)
    fun l q' hl hq' => ?_
  rw [Run.byLevel_withParts, Array.getElem?_setIfInBounds] at hq'
  split at hq'
  · rename_i he
    subst he
    rw [if_pos (Array.getElem?_eq_some_iff.mp hq).1] at hq'
    cases hq'
    have hw := h.waits _ q htaken hq
    have hvalues : (q.push row).values.toList = q.values.toList ++ [row] := by simp [Queue.push]
    refine ⟨hw.cursor, ?_, fun other ho => ?_, fun other ho => ?_⟩ <;> rw [hvalues] at *
    · exact List.nodup_append.mpr ⟨hw.nodup, List.nodup_singleton row, fun other ho other' ho' he =>
        h.not_waiting hnew htaken hq (List.mem_singleton.mp ho' ▸ he ▸ ho)⟩
    · rcases List.mem_append.mp ho with ho | ho
      · exact (hw.flagged other ho).of_keepsFlags hk
      · rw [List.mem_singleton.mp ho]
        exact Run.flaggedAt_withParts ha hf rfl
    · rw [Run.listed_withParts]
      rcases List.mem_append.mp ho with ho | ho
      · exact hw.unlisted other ho
      · rw [List.mem_singleton.mp ho]
        exact h.not_listed hnew
  · have hw := h.waits l q' hl hq'
    refine hw.of_keepsFlags hk fun other ho => ?_
    rw [Run.listed_withParts]
    exact hw.unlisted other ho

/-- The queue of the level is taken over. -/
theorem takeOver {q' : Queue} (h : s.Levels x level level r)
    (hq : (s.byLevel r.update)[level]? = some q)
    (hvalues : q'.values.toList = r.listed s.work ++ q.values.toList) :
    s.Levels x level (level + 1) { r with update := r.update.withQueue s.work q' } := by
  have hw := h.waits level q le_rfl hq
  have hk : r.KeepsFlags s { r with update := r.update.withQueue s.work q' } :=
    ⟨fun _ _ => id, fun other ho => by cases s <;> exact ho⟩
  have hlisted : Run.listed { r with update := r.update.withQueue s.work q' } s.work =
      r.listed s.work ++ q.values.toList := by
    rw [Run.listed, Update.queue_withQueue, hvalues]
  refine h.extend hk hlisted (by cases s <;> rfl) (by cases s <;> rfl) hw.nodup hw.unlisted
    (fun other ho => (hw.flagged other ho).of_keepsFlags hk) fun l q₁ hl hq₁ => ?_
  have hq₁ : (s.byLevel r.update)[l]? = some q₁ := by
    rw [← hq₁]
    cases s <;> rfl
  have hw₁ := h.waits l q₁ (Nat.le_of_succ_le hl) hq₁
  refine hw₁.of_keepsFlags hk fun other ho => ?_
  rw [hlisted, List.mem_append]
  rintro (hmem | hmem)
  · exact hw₁.unlisted other ho hmem
  · -- a fact has one level
    obtain ⟨-, t, hf, rfl⟩ := hw.flagged other hmem
    obtain ⟨-, u, hu, rfl⟩ := hw₁.flagged other ho
    rw [hf] at hu
    cases hu
    exact absurd hl (Nat.not_succ_le_self _)

/-- The level is closed: what is queued by now is up to it. -/
theorem close (h : s.Levels x level (level + 1) r) (hlt : level < r.update.levels) :
    s.Levels x (level + 1) (level + 1) { r with update := r.update.closeLevel (some level) } := by
  have hends : s.ends (r.update.closeLevel (some level)) =
      (s.ends r.update).setIfInBounds level (r.listed s.work).length := by
    cases s <;> simp [Update.closeLevel, ends, Run.listed, Update.queue, work, Queue.size]
  have hlisted : Run.listed { r with update := r.update.closeLevel (some level) } s.work =
      r.listed s.work := by
    cases s <;> rfl
  have hby : s.byLevel (r.update.closeLevel (some level)) = s.byLevel r.update := by
    cases s <;> rfl
  have hk : r.KeepsFlags s { r with update := r.update.closeLevel (some level) } :=
    ⟨fun _ _ => id, fun _ => id⟩
  refine ⟨by rw [hlisted]; exact h.nodup, fun row hr => ?_, ?_, fun l hl => ?_, fun l place hl hp => ?_,
    fun l q hl hq => ?_⟩
  · rw [hlisted] at hr
    exact (h.flagged row hr).mono fun _ hle => Nat.le_succ_of_le hle
  · rw [hends, Array.size_setIfInBounds]
    exact h.size
  · rcases Nat.lt_or_eq_of_le (Nat.le_of_lt_succ hl) with hl | rfl
    · obtain ⟨place, hplace, hsplit⟩ := h.ended l hl
      refine ⟨place, ?_, hlisted ▸ hsplit.le_length, fun i row t hi => ?_⟩
      · rw [hends, Array.getElem?_setIfInBounds_ne (Nat.ne_of_gt hl)]
        exact hplace
      · rw [hlisted] at hi
        exact hsplit.lt_iff i row t hi
    · refine ⟨(r.listed s.work).length, ?_, hlisted ▸ le_rfl, fun i row t hi hf => ?_⟩
      · rw [hends, Array.getElem?_setIfInBounds_self_of_lt (h.size ▸ hlt)]
      · rw [hlisted] at hi
        obtain ⟨-, u, hu, hle⟩ := h.flagged row (List.mem_of_getElem? hi)
        obtain rfl : u = t := Option.some.inj (hu.symm.trans hf)
        exact iff_of_true (List.getElem?_eq_some_iff.mp hi).1 hle
  · rw [hends, Array.getElem?_setIfInBounds_ne (Nat.ne_of_lt hl)] at hp
    exact h.unended l place (Nat.le_of_succ_le hl) hp
  · rw [hby] at hq
    have hw := h.waits l q hl hq
    exact hw.of_keepsFlags hk fun row hr => hlisted ▸ hw.unlisted row hr

end Changes.Side.Levels

/-! ## The parts of the levels -/

/-- A place of the work list of a side belongs to a level, by the ends set for the levels. -/
def Changes.Side.InPart (s : Side) (u : Update) (level place : Nat) : Prop :=
  ∃ start stop, Update.endBefore (s.ends u) (some level) = .ok start ∧
    (s.ends u)[level]? = some stop ∧ start ≤ place ∧ place < stop

namespace Changes.Side.Levels

variable {place : Nat} (h : s.Levels x level taken r) (hrow : (r.listed s.work)[place]? = some row)
  (hf : r.table.fact? row = some t)

include h hrow hf

/-- The part of a level has facts of that level only. -/
theorem componentLevel_of_inPart (hp : s.InPart r.update l place) : x.componentLevel t = l := by
  obtain ⟨start, stop, hstart, hstop, hle, hlt⟩ := hp
  have hl : l < level := by
    by_contra hge
    have := h.unended l stop (Nat.le_of_not_lt hge) hstop
    omega
  obtain ⟨stop', hstop', hsplit⟩ := h.ended l hl
  rw [hstop] at hstop'
  cases hstop'
  have hupto := (hsplit.lt_iff place row t hrow hf).mp hlt
  cases l with
  | zero => exact Nat.le_zero.mp hupto
  | succ m =>
    obtain ⟨start', hstart', hsplit'⟩ := h.ended m (Nat.lt_of_succ_lt hl)
    rw [Update.endBefore, hstart'] at hstart
    cases hstart
    have habove := (not_congr (hsplit'.lt_iff place row t hrow hf)).mp (Nat.not_lt.mpr hle)
    omega

/-- A fact of a level that is closed is in the part of that level. -/
theorem inPart (hl : x.componentLevel t < level) : s.InPart r.update (x.componentLevel t) place := by
  obtain ⟨stop, hstop, hsplit⟩ := h.ended _ hl
  have hlt := (hsplit.lt_iff place row t hrow hf).mpr le_rfl
  cases hlevel : x.componentLevel t with
  | zero => exact ⟨0, stop, rfl, hlevel ▸ hstop, Nat.zero_le _, hlt⟩
  | succ m =>
    obtain ⟨start, hstart, hsplit'⟩ := h.ended m (by omega)
    refine ⟨start, stop, ?_, hlevel ▸ hstop, Nat.le_of_not_lt fun hbefore => ?_, hlt⟩
    · rw [Update.endBefore, hstart]
    · have := (hsplit'.lt_iff place row t hrow hf).mp hbefore
      omega

end Changes.Side.Levels

/-! ## Both work lists -/

/-- What holds of both work lists while a level is worked off. -/
def Disciplined (x : RuleIndex) (level : Nat) (taken : Side → Nat) (r : Run) : Prop :=
  ∀ s : Side, s.Levels x level (taken s) r

/-- From `r` to `r'` nothing is queued but on one side, and nothing is taken. -/
structure Run.QueuesOn (s : Side) (r r' : Run) : Prop where
  quietOn (s' : Side) (h : s' ≠ s) : r.QuietOn s' r'
  cursors : r.SameCursors r'

namespace Disciplined

variable {taken : Side → Nat}

theorem stable : Run.Stable (Disciplined x level taken) := fun _ _ h hq s => (h s).quiet (hq s)

/-- A fact of the level is flagged. If the flag is new, its row has to be queued next. -/
theorem addFlags_wlp (h : Disciplined x level taken r) (s : Side) (hf : r.table.fact? row = some t)
    (hl : x.componentLevel t = level) :
    WLP (Routine.addFlags row s.flag) r fun isNew r₁ =>
      (isNew = false ∧ Disciplined x level taken r₁ ∧ r.QueuesOn s r₁) ∨
      (isNew = true ∧ WLP (Routine.enqueue s.work row) r₁ fun _ r₂ =>
        Disciplined x level taken r₂ ∧ r.QueuesOn s r₂) := by
  refine Routine.addFlags_wlp fun m ha => ?_
  rw [s.isBit_flag.or_bne]
  cases hnew : (r.flags row).any s.flag with
  | true =>
    have hq := Run.quiet_of_flagged ha hnew
    exact .inl ⟨rfl, stable _ _ h hq, fun s' _ => hq s', fun w => by cases w <;> rfl⟩
  | false =>
    refine .inr ⟨rfl, Routine.enqueue_wlp ?_⟩
    have hrun : ∀ r₂ : Run, r₂ = r.withParts s m ((r.update.queue s.work).push row)
        (s.byLevel r.update) → Disciplined x level taken r₂ ∧ r.QueuesOn s r₂ := by
      rintro _ rfl
      refine ⟨fun s' => ?_, fun s' hs => Run.quietOn_withParts ha rfl hs, fun w => ?_⟩
      · by_cases hs : s' = s
        · subst hs
          exact (h s').mark hf hl hnew ha
        · exact (h s').quiet (Run.quietOn_withParts ha rfl hs)
      · cases s <;> cases w <;> rfl
    exact hrun _ (by cases s <;> rfl)

/-- The rule for flagging a fact of the level and queueing its row if the flag is new. -/
theorem mark_wlp (h : Disciplined x level taken r) (s : Side) (hf : r.table.fact? row = some t)
    (hl : x.componentLevel t = level) {k : Bool → Routine Unit}
    (hk : ∀ isNew, Preserves (Disciplined x level taken) (k isNew)) :
    WLP (do
      let isNew ← Routine.addFlags row s.flag
      if isNew then Routine.enqueue s.work row
      k isNew) r fun _ => Disciplined x level taken := by
  rw [WLP.bind_iff]
  refine (h.addFlags_wlp s hf hl).mono fun isNew r₁ hr₁ => ?_
  rcases hr₁ with ⟨rfl, h₁, -⟩ | ⟨rfl, hqueue⟩
  · exact hk false r₁ h₁
  · exact WLP.bind_iff.mpr (hqueue.mono fun _ r₂ h₂ => hk true r₂ h₂.1)

end Disciplined

end Entail
