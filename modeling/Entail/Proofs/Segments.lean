import Mathlib.Logic.Function.Basic
import Entail.Update.Segments

/-!
# Segmented queues are lists

A segmented queue represents a list with a cursor if the slots up to `head` hold the values of the
list, `tail` is at the cursor and every other slot is free (`Represents`). No call breaks that
(`answer_agree`): the slot at `head` is free whatever was taken, replayed or cleared before. So
segmented queues give the same answers as lists to all calls, one after another on any number of
queues (`run_represents`).
-/

namespace Entail

namespace Queue

variable {Q : Type}

/-- Calls on numbered queues, one after another: the answers and the queues afterwards. -/
def run (answer : (Nat → Q) → Call → EStateM Error Q Answer) :
    List (Nat × Call) → (Nat → Q) → List (Except Error Answer) × (Nat → Q)
  | [], queues => ([], queues)
  | (n, call) :: rest, queues =>
    match answer queues call (queues n) with
    | .ok a q => (run answer rest (Function.update queues n q)).map (.ok a :: ·) id
    | .error e q => (run answer rest (Function.update queues n q)).map (.error e :: ·) id

/-- A limit after all values does not matter. -/
theorem dequeueBefore_of_size_le {l : Queue} {limit : Nat} (h : l.size ≤ limit) :
    l.dequeueBefore limit = l.dequeue := by
  rw [dequeueBefore, dequeue]
  split
  · rw [Array.getElem?_eq_none (Nat.le_trans h ‹limit ≤ l.cursor›)]
  · rfl

theorem enqueueAll_eq_ok {rows : List RowIndex} (h : ∀ row ∈ rows, row ≠ 0) (l : Queue) :
    l.enqueueAll rows = .ok { l with values := l.values ++ rows } := by
  induction rows generalizing l with
  | nil => rfl
  | cons row rest ih =>
    rw [enqueueAll, enqueue, if_neg (h row List.mem_cons_self)]
    exact ih (fun v hv => h v (List.mem_cons_of_mem _ hv)) _

theorem between_cursor_size (l : Queue) : l.between l.cursor l.size = l.pending := by
  rw [between, size, ← Array.length_toList, List.take_length, pending]

/-- Queueing one by one what another list still has to take makes it the end of the list. -/
theorem append_eq_ok {l l' : Queue} (h : ∀ row ∈ l'.values, row ≠ 0) :
    l.append l' = .ok { l with values := l.values ++ l'.pending } := by
  rw [append, between_cursor_size]
  exact enqueueAll_eq_ok (fun row hrow => h row (Array.mem_toList_iff.mp (List.mem_of_mem_drop hrow))) l

end Queue

/-- The values at the places of a range, without the places after the end. -/
theorem filter_map_range' (rows : List RowIndex) (h : ∀ row ∈ rows, row ≠ 0) (start n : Nat) :
    ((List.range' start n).map fun place => rows[place]?.getD 0).filter (· != 0) =
      (rows.drop start).take n := by
  induction n generalizing start with
  | zero => rfl
  | succ n ih =>
    rw [List.range'_succ, List.map_cons, List.filter_cons, ih]
    by_cases hlt : start < rows.length
    · rw [List.getElem?_eq_getElem hlt, Option.getD_some,
        if_pos (bne_iff_ne.mpr (h _ (List.getElem_mem hlt))), List.drop_eq_getElem_cons hlt,
        List.take_succ_cons]
    · have hle := Nat.le_of_not_lt hlt
      rw [List.getElem?_eq_none hle, List.drop_eq_nil_of_le hle,
        List.drop_eq_nil_of_le (Nat.le_trans hle (Nat.le_succ _)), List.take_nil, List.take_nil]
      rfl

namespace SegmentedQueue

open Queue (Call Answer run)

variable {α : Type} {q r other : SegmentedQueue} {l l' : Queue} {memory : Nat → Bool}
  {row : RowIndex} {place : Nat}

/-! ## Slots -/

theorem load_store (hlt : place < q.capacity) (other : Nat) :
    (q.store place row).load other = if place = other then row else q.load other := by
  simp only [load, store, Array.getElem?_modify]
  by_cases hs : place / slots = other / slots
  · rw [if_pos hs, ← hs, Array.getElem?_eq_getElem (lt_capacity_iff.mp hlt)]
    simp only [Option.map_some, Vector.getElem_set]
    have hiff : place % slots = other % slots ↔ place = other :=
      ⟨fun hm => by rw [← Nat.div_add_mod place slots, hs, hm, Nat.div_add_mod], fun he => he ▸ rfl⟩
    simp only [hiff]
  · rw [if_neg hs, if_neg fun he : place = other => hs (he ▸ rfl)]

theorem load_clear : q.clear.load place = 0 := by
  simp only [load, clear, Array.getElem?_map]
  cases q.segments[place / slots]? with
  | none => rfl
  | some segment => exact Vector.getElem_map ..

theorem reserve_eq_ok (h : q.reserve memory place = .ok r) :
    r.head = q.head ∧ r.tail = q.tail ∧ place < r.capacity := by
  rw [lt_capacity_iff]
  simp only [reserve] at h
  split at h
  · cases h
    exact ⟨rfl, rfl, ‹_›⟩
  split at h
  · cases h
    refine ⟨rfl, rfl, ?_⟩
    rw [Array.size_append, Array.size_replicate]
    omega
  · cases h

theorem exists_reserve (hm : memory (place / slots + 1) = true) :
    ∃ r, q.reserve memory place = .ok r := by
  simp only [reserve, hm]
  split
  · exact ⟨q, rfl⟩
  · exact ⟨_, rfl⟩

theorem load_empty : empty.load place = 0 := rfl

/-! ## Representation -/

/-- The values of the list are in the slots up to `head`, and every other slot is free. -/
structure Represents (q : SegmentedQueue) (l : Queue) : Prop where
  head_eq : q.head = l.size
  tail_eq : q.tail = l.cursor
  load_eq : ∀ place, q.load place = l.valueAt place
  nonzero : ∀ row ∈ l.values, row ≠ 0

theorem represents_empty : empty.Represents .empty :=
  ⟨rfl, rfl, fun _ => load_empty, fun _ h => absurd h (Array.not_mem_empty _)⟩

theorem represents_clear : q.clear.Represents .empty :=
  ⟨rfl, rfl, fun _ => load_clear, represents_empty.nonzero⟩

namespace Represents

variable (h : q.Represents l)

include h

theorem load_head : q.load q.head = 0 := by
  rw [h.load_eq, h.head_eq, Queue.valueAt, Queue.size, Array.getElem?_eq_none (Nat.le_refl _)]
  rfl

theorem seek (place : Nat) : (q.seek place).Represents (l.seek place) :=
  { h with tail_eq := rfl }

/-- The slot at `head` is free, so the row goes there. -/
theorem put (hr : q.reserve memory q.head = .ok r) (hrow : row ≠ 0) :
    ∃ r, q.put memory row = .ok () r ∧ r.Represents { l with values := l.values.push row } := by
  obtain ⟨-, htail, hlt⟩ := reserve_eq_ok hr
  refine ⟨{ r.store q.head row with head := q.head + 1 }, ?_, ?_, ?_, fun other => ?_, ?_⟩
  · rw [SegmentedQueue.put]
    split
    · rename_i heq
      cases hr.symm.trans heq
    · rename_i heq
      cases hr.symm.trans heq
      exact if_pos ((load_reserve hr _).trans h.load_head)
  · rw [h.head_eq, Queue.size, Queue.size, Array.size_push]
  · exact htail.trans h.tail_eq
  · refine (load_store hlt other).trans ?_
    rw [load_reserve hr, h.load_eq, h.head_eq, Queue.valueAt, Queue.valueAt, Array.getElem?_push,
      Queue.size]
    simp only [eq_comm (a := other)]
    split <;> rfl
  · intro v hv
    rcases Array.mem_push.mp hv with hv | rfl
    · exact h.nonzero v hv
    · exact hrow

theorem enqueue (hm : ∀ n, memory n = true) (hrow : row ≠ 0) :
    ∃ r, enqueue memory row q = .ok () r ∧ r.Represents { l with values := l.values.push row } := by
  obtain ⟨r, hr⟩ := exists_reserve (q := q) (hm (q.head / slots + 1))
  obtain ⟨r, hput, hrep⟩ := h.put hr hrow
  refine ⟨r, ?_, hrep⟩
  rw [SegmentedQueue.enqueue, if_neg hrow, hput]

theorem between_eq (start stop : Nat) : q.between start stop = l.between start stop := by
  have hload : q.load = fun place => l.values.toList[place]?.getD 0 := by
    funext place
    rw [h.load_eq, Queue.valueAt, Array.getElem?_toList]
  rw [between, hload, filter_map_range' _ fun row hrow => h.nonzero row (Array.mem_toList_iff.mp hrow),
    Queue.between, List.drop_take]

theorem peek_eq : q.peek = l.peek := by
  rw [peek, h.load_eq, h.tail_eq, Queue.peek]

theorem pending_eq : q.between q.tail q.head = l.pending := by
  rw [h.between_eq, h.head_eq, h.tail_eq, Queue.between_cursor_size]

theorem ne_zero_of_mem_pending (hrow : row ∈ l.pending) : row ≠ 0 :=
  h.nonzero row (Array.mem_toList_iff.mp (List.mem_of_mem_drop hrow))

end Represents

/-- Values queued one by one. -/
theorem Represents.forM (hm : ∀ n, memory n = true) (rows : List RowIndex)
    (hrows : ∀ row ∈ rows, row ≠ 0) (h : q.Represents l) :
    ∃ r, rows.forM (SegmentedQueue.enqueue memory) q = .ok .unit r ∧
      r.Represents { l with values := l.values ++ rows } := by
  induction rows generalizing q l with
  | nil => exact ⟨q, rfl, h⟩
  | cons row rest ih =>
    obtain ⟨q', hq, h₁⟩ := h.enqueue hm (hrows row List.mem_cons_self)
    obtain ⟨r, hr, hrep⟩ := ih (fun v hv => hrows v (List.mem_cons_of_mem _ hv)) h₁
    refine ⟨r, ?_, hrep⟩
    simp only [List.forM, bind, EStateM.bind, hq, hr]

/-! ## Calls -/

/-- The same answer or error, and afterwards the queue represents the list. -/
inductive Agree : EStateM.Result Error SegmentedQueue α → EStateM.Result Error Queue α → Prop
  | ok {q : SegmentedQueue} {l : Queue} {a : α} (h : q.Represents l) : Agree (.ok a q) (.ok a l)
  | error {q : SegmentedQueue} {l : Queue} {e : Error} (h : q.Represents l) :
    Agree (.error e q) (.error e l)

theorem Represents.agree {a b : α} (h : q.Represents l) (hab : a = b) :
    Agree (.ok a q) (.ok b l) :=
  hab ▸ .ok h

namespace Represents

theorem dequeueBefore (h : q.Represents l) (limit : Nat) :
    (q.dequeueBefore limit).1 = (l.dequeueBefore limit).1 ∧
      (q.dequeueBefore limit).2.Represents (l.dequeueBefore limit).2 := by
  rw [SegmentedQueue.dequeueBefore, Queue.dequeueBefore, h.tail_eq]
  split
  · exact ⟨rfl, h⟩
  · dsimp only
    rw [h.load_eq, Queue.valueAt]
    cases hv : l.values[l.cursor]? with
    | none => exact ⟨rfl, h⟩
    | some row =>
      have hrow : row ≠ 0 := h.nonzero row (Array.mem_of_getElem? hv)
      rw [Option.getD_some, if_neg hrow]
      exact ⟨rfl, { h with tail_eq := rfl }⟩

theorem enqueue_agree (h : q.Represents l) (hm : ∀ n, memory n = true) (row : RowIndex) :
    Agree (SegmentedQueue.enqueue memory row q) (Queue.attempt (·.enqueue row) l) := by
  by_cases hrow : row = 0
  · rw [SegmentedQueue.enqueue, if_pos hrow, Queue.attempt, Queue.enqueue, if_pos hrow]
    exact .error h
  · obtain ⟨r, hq, hrep⟩ := h.enqueue hm hrow
    rw [hq, Queue.attempt, Queue.enqueue, if_neg hrow]
    exact .ok hrep

theorem append (h : q.Represents l) (hm : ∀ n, memory n = true) (hother : other.Represents l') :
    ∃ r, SegmentedQueue.append memory other q = .ok () r ∧
      r.Represents { l with values := l.values ++ l'.pending } := by
  rw [SegmentedQueue.append, hother.pending_eq]
  exact h.forM hm _ fun _ hrow => hother.ne_zero_of_mem_pending hrow

end Represents

theorem Agree.map {β : Type} {x : EStateM Error SegmentedQueue α} {y : EStateM Error Queue α}
    (h : Agree (x q) (y l)) (f : α → β) : Agree ((f <$> x) q) ((f <$> y) l) := by
  simp only [Functor.map, EStateM.map]
  generalize x q = a, y l = b at h ⊢
  cases h with
  | ok h => exact .ok h
  | error h => exact .error h

/-- No call tells a segmented queue from the list that it represents. -/
theorem answer_agree {queues : Nat → SegmentedQueue} {lists : Nat → Queue}
    (hm : ∀ n, memory n = true) (hall : ∀ n, (queues n).Represents (lists n))
    (h : q.Represents l) (call : Call) :
    Agree (answer memory queues call q) (Queue.answer lists call l) := by
  have htake (limit : Nat) :
      Agree ((Answer.number <$> modifyGet (·.dequeueBefore limit) : EStateM _ _ _) q)
        ((Answer.number <$> modifyGet (·.dequeueBefore limit) : EStateM _ _ _) l) :=
    (h.dequeueBefore limit).2.agree (congrArg _ (h.dequeueBefore limit).1)
  cases call with
  | enqueue row => exact (h.enqueue_agree hm row).map fun _ => Answer.done
  | dequeue => exact htake _
  | dequeueBefore limit => exact htake limit
  | peek => exact h.agree (congrArg _ h.peek_eq)
  | canDequeue => exact h.agree (congrArg (Answer.flag <| · != 0) h.peek_eq)
  | seek place => exact .ok (h.seek place)
  | append source =>
    obtain ⟨r, hr, hrep⟩ := h.append hm (hall source)
    simp only [answer, Queue.answer, bind, EStateM.bind, hr]
    exact .ok hrep
  | clear => exact .ok represents_clear
  | valueAt place => exact h.agree (congrArg _ (h.load_eq place))
  | between start stop => exact h.agree (congrArg _ (h.between_eq start stop))
  | unprocessed => exact h.agree (congrArg₂ (Answer.number <| · - ·) h.head_eq h.tail_eq)
  | nextTaken => exact h.agree (congrArg _ h.tail_eq)
  | firstFree => exact h.agree (congrArg _ h.head_eq)

/-- Segmented queues that represent lists answer a sequence of calls as the lists do, and represent
them afterwards. -/
theorem run_agree (hm : ∀ n, memory n = true) (calls : List (Nat × Call))
    {queues : Nat → SegmentedQueue} {lists : Nat → Queue}
    (hall : ∀ n, (queues n).Represents (lists n)) :
    (run (answer memory) calls queues).1 = (run Queue.answer calls lists).1 ∧
      ∀ n, ((run (answer memory) calls queues).2 n).Represents ((run Queue.answer calls lists).2 n) := by
  induction calls generalizing queues lists with
  | nil => exact ⟨rfl, hall⟩
  | cons c rest ih =>
    obtain ⟨n, call⟩ := c
    have hupdate {q : SegmentedQueue} {l : Queue} (h : q.Represents l) (m : Nat) :
        (Function.update queues n q m).Represents (Function.update lists n l m) := by
      by_cases hm : m = n
      · subst hm
        rwa [Function.update_self, Function.update_self]
      · rw [Function.update_of_ne hm, Function.update_of_ne hm]
        exact hall m
    have hagree := answer_agree hm hall (hall n) call
    rw [run, run]
    generalize answer memory queues call (queues n) = x, Queue.answer lists call (lists n) = y
      at hagree ⊢
    cases hagree with
    | ok h | error h =>
      obtain ⟨hanswers, hrep⟩ := ih (hupdate h)
      exact ⟨congrArg (List.cons _) hanswers, hrep⟩

/-- As long as there is room, new segmented queues answer every sequence of calls as lists with a
cursor do, and in the end they hold the values of these lists. -/
theorem run_represents (hm : ∀ n, memory n = true) (calls : List (Nat × Call)) :
    (run (answer memory) calls fun _ => .empty).1 = (run Queue.answer calls fun _ => .empty).1 ∧
      ∀ n, ((run (answer memory) calls fun _ => .empty).2 n).Represents
        ((run Queue.answer calls fun _ => .empty).2 n) :=
  run_agree hm calls fun _ => represents_empty

/-- Two queues: one is replayed, the other is cleared and used again. -/
def replayed : List (Nat × Call) :=
  [(0, .enqueue 5), (0, .enqueue 6), (0, .enqueue 0), (0, .dequeue), (1, .append 0), (0, .seek 7),
    (0, .peek), (0, .unprocessed), (0, .seek 0), (0, .dequeueBefore 1), (0, .dequeueBefore 1),
    (1, .clear), (1, .enqueue 9), (1, .append 0), (1, .between 0 5), (0, .firstFree)]

theorem run_represents_replayed : (∀ n : Nat, (fun _ => true : Nat → Bool) n = true) ∧
    (run (answer fun _ => true) replayed fun _ => .empty).1 =
      [.ok .done, .ok .done,
        .error (Error.invariantViolation "cannot enqueue the invalid tuple index"),
        .ok (.number 5), .ok .done, .ok .done, .ok (.number 0), .ok (.number 0), .ok .done,
        .ok (.number 5), .ok (.number 0), .ok .done, .ok .done, .ok .done, .ok (.rows [9, 6]),
        .ok (.number 2)] :=
  ⟨fun _ => rfl, (run_represents (fun _ => rfl) replayed).1.trans (by rfl)⟩

end SegmentedQueue

end Entail
