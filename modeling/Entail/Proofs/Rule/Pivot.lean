import Entail.Proofs.Rule.Enumeration

/-!
# Every use of a fact once

A fact is applied to a rule without negation through each literal that it matches: the literals before
that one are matched with other rows, those behind it with any rows (`SplitsAt`). So what is found from
a literal are the matches in which it is the first literal that is matched with the row of the fact
(`RuleIndex.exists_follows_around_iff`), and each match that uses the row is found from one literal
alone. Applying the rules of a scope to a fact is the same program as passing on the heads of each use
of its row in turn (`RuleIndex.applyToPositive_enumerates`).
-/

namespace Entail

/-! ## Lists -/

section lists

variable {α β γ : Type}

theorem insertIdx_append_length (l l' : List α) (a : α) :
    (l ++ l').insertIdx l.length a = l ++ a :: l' := by
  induction l with
  | nil => rfl
  | cons b l ih => simp [ih]

/-- Lists of which each has keys of its own have nothing in common. -/
theorem nodup_flatMap_of_key {l : List α} {f : α → List β} (label : α → γ) (key : β → γ)
    (hl : (l.map label).Nodup) (hf : ∀ a ∈ l, (f a).Nodup) (hkey : ∀ a ∈ l, ∀ b ∈ f a, key b = label a) :
    (l.flatMap f).Nodup := by
  refine List.nodup_flatMap.mpr ⟨hf, (List.pairwise_map.mp hl).imp_of_mem fun {a a'} ha ha' hne => ?_⟩
  refine List.disjoint_left.mpr fun b hb hb' => hne ?_
  rw [← hkey a ha b hb, hkey a' ha' b hb']

theorem forall₂_and_right {R : α → β → Prop} {p : β → Prop} {l : List α} {l' : List β} :
    List.Forall₂ (fun a b => R a b ∧ p b) l l' ↔ List.Forall₂ R l l' ∧ ∀ b ∈ l', p b := by
  induction l generalizing l' with
  | nil => cases l' <;> simp
  | cons a l ih =>
    cases l' with
    | nil => simp
    | cons b l' =>
      rw [List.forall₂_cons, List.forall₂_cons, List.forall_mem_cons, ih, and_and_and_comm]

/-- A list is related to one in which `c` has its first place at that of `a`, just if it falls into three
parts: before it, itself and behind it. -/
theorem forall₂_first_iff [DecidableEq β] {R : α → β → Prop} {front back : List α} {a : α} {c : β}
    {l : List β} {place : Nat} (hplace : front.length = place) :
    List.Forall₂ R (front ++ a :: back) l ∧ c ∈ l ∧ l.idxOf c = place ↔
      ∃ before behind, l = before ++ c :: behind ∧ c ∉ before ∧ List.Forall₂ R front before ∧
        R a c ∧ List.Forall₂ R back behind := by
  subst hplace
  constructor
  · rintro ⟨h, hmem, hfirst⟩
    obtain ⟨before, behind, rfl, hc⟩ := List.eq_append_cons_of_mem hmem
    have hlen : before.length = front.length := by
      rw [← hfirst, List.idxOf_append_of_notMem hc, List.idxOf_cons_self, Nat.add_zero]
    have hbefore := List.forall₂_take_append _ _ _ h
    have hbehind := List.forall₂_drop_append _ _ _ h
    rw [hlen, List.take_left] at hbefore
    rw [hlen, List.drop_left] at hbehind
    obtain ⟨ha, hback⟩ := List.forall₂_cons.mp hbehind
    exact ⟨before, behind, rfl, hc, hbefore, ha, hback⟩
  · rintro ⟨before, behind, rfl, hc, hbefore, ha, hbehind⟩
    refine ⟨List.rel_append hbefore (.cons ha hbehind), by simp, ?_⟩
    rw [List.idxOf_append_of_notMem hc, List.idxOf_cons_self, Nat.add_zero, hbefore.length_eq]

end lists

namespace Snapshot

variable {n : Snapshot} {occurrence : Nat → Occurrence} {B : Nat → Prop} {τ : Assignment}
  {steps steps' : List Step} {more : List Match}

theorem follows_append_iff : n.Follows occurrence B τ (steps ++ steps') more ↔
    ∃ first second, more = first ++ second ∧ n.Follows occurrence B τ steps first ∧
      n.Follows occurrence B τ steps' second := by
  constructor
  · intro h
    induction steps generalizing more with
    | nil => exact ⟨[], more, rfl, .nil, h⟩
    | cons step steps ih =>
      cases h with
      | find hrow hrest =>
        obtain ⟨first, second, rfl, h, h'⟩ := ih hrest
        exact ⟨_ :: first, second, rfl, .find hrow h, h'⟩
      | absent hno hrest =>
        obtain ⟨first, second, rfl, h, h'⟩ := ih hrest
        exact ⟨first, second, rfl, .absent hno h, h'⟩
  · rintro ⟨first, second, rfl, h, h'⟩
    induction h with
    | nil => exact h'
    | find hrow _ ih => exact .find hrow ih
    | absent hno _ ih => exact .absent hno ih

end Snapshot

/-- Before the pivot a filter accepts the rows of a set but for one of them, behind it all of the set. -/
structure SplitsAt {σ : Type} (view : View σ) (s : σ) (S : Set RowIndex) (row : RowIndex) : Prop where
  before (o : Occurrence) (r : RowIndex) (u : Triple) (hr : (view.table s).fact? r = some u) :
    view.accepts s .positiveBeforePivot o r ((view.table s).status r) = true ↔ r ∈ S ∧ r ≠ row
  behind (o : Occurrence) (r : RowIndex) (u : Triple) (hr : (view.table s).fact? r = some u) :
    view.accepts s .positiveAfterPivot o r ((view.table s).status r) = true ↔ r ∈ S

namespace SplitsAt

variable {σ : Type} {view : View σ} {s : σ} {S : Set RowIndex} {row : RowIndex}

theorem mem_before (h : SplitsAt view s S row) (o : Occurrence) (r : RowIndex) (u : Triple) :
    (r, u) ∈ (view.snapshot s).rows .positiveBeforePivot o ↔
      ((view.table s).fact? r = some u ∧ r ∈ S) ∧ r ≠ row := by
  rw [View.snapshot, List.mem_filter, Table.mem_toList, and_assoc]
  exact and_congr_right fun hr => h.before o r u hr

theorem mem_behind (h : SplitsAt view s S row) (o : Occurrence) (r : RowIndex) (u : Triple) :
    (r, u) ∈ (view.snapshot s).rows .positiveAfterPivot o ↔ (view.table s).fact? r = some u ∧ r ∈ S := by
  rw [View.snapshot, List.mem_filter, Table.mem_toList]
  exact and_congr_right fun hr => h.behind o r u hr

end SplitsAt

namespace RuleIndex

variable {σ : Type} {view : View σ} {x : RuleIndex} {i : IndexedRule} {rule : Nat} {scope : Scope}
  {consume : Nat → Triple → Eval σ Unit} {s : σ} {S : Set RowIndex} {row : RowIndex} {t : Triple}
  {τ : Assignment} {rows : List RowIndex}

/-! ## Uses of a row -/

/-- An atom of a body becomes the fact of a row in `S`. -/
def Found (table : Table) (classes : Option Classes) (S : Set RowIndex) (τ : Assignment) (p : Atom × Nat)
    (r : RowIndex) : Prop :=
  table.fact? r = some (p.1.groundIn classes τ) ∧ r ∈ S

/-- The positive literals of a rule become the facts of rows in `S`, and one of these is `row`. -/
structure Uses (table : Table) (classes : Option Classes) (S : Set RowIndex) (row : RowIndex)
    (i : IndexedRule) (τ : Assignment) (rows : List RowIndex) : Prop where
  found : List.Forall₂ (Found table classes S τ) (positives i.rule.body) rows
  mem : row ∈ rows

theorem uses_iff {table : Table} {classes : Option Classes} : Uses table classes S row i τ rows ↔
    List.Forall₂ (Found table classes S τ) (positives i.rule.body) rows ∧ row ∈ rows :=
  ⟨fun h => ⟨h.found, h.mem⟩, fun h => ⟨h.1, h.2⟩⟩

/-- A match of a rule: one row for each positive literal, and the values of the variables. -/
structure Firing where
  indexed : IndexedRule
  rule : Nat
  rows : List RowIndex
  assignment : Assignment

/-- Hands the heads of a match to a consumer. -/
def Firing.emit (classes : Option Classes) (consume : Nat → Triple → Eval σ Unit) (f : Firing) :
    Eval σ Unit :=
  f.indexed.rule.head.forM fun a => consume f.rule (a.groundIn classes f.assignment)

/-- The list has every match of the rules of a scope that uses a row, and has it once. -/
structure EnumeratesUses (x : RuleIndex) (scope : Scope) (table : Table) (classes : Option Classes)
    (S : Set RowIndex) (row : RowIndex) (firings : List Firing) : Prop where
  nodup : (firings.map fun f => (f.rule, f.rows)).Nodup
  uses : ∀ f ∈ firings, (f.indexed, f.rule) ∈ x.inScope scope ∧
    Uses table classes S row f.indexed f.assignment f.rows
  /-- A match is there, and every assignment under which it is one gives the rule's bound variables the
  same values. -/
  complete : ∀ i rule τ rows, (i, rule) ∈ x.inScope scope → Uses table classes S row i τ rows →
    ∃ τ', ⟨i, rule, rows, τ'⟩ ∈ firings ∧ ∀ v ∈ Rule.boundVariables i.rule.body, τ' v = τ v

/-! ## One literal -/

/-- The steps around a literal are those for the literals before it and those for the literals behind. -/
theorem stepsAround_append (front : List Literal) (l : Literal) (back : List Literal) :
    stepsAround (front ++ l :: back) front.length =
      (front.zipIdx.map fun p => stepOf (fun _ => .positiveBeforePivot)
        (fun _ => .negativeAtOrAfterPivot) p.1 p.2) ++
      (back.zipIdx (front.length + 1)).map fun p => stepOf (fun _ => .positiveAfterPivot)
        (fun _ => .negativeAtOrAfterPivot) p.1 p.2 := by
  have hfront : ∀ p ∈ front.zipIdx, p.2 < front.length := fun p hp => by
    have := (List.mem_zipIdx hp).2.1
    omega
  have hback : ∀ p ∈ back.zipIdx (front.length + 1), front.length < p.2 := fun p hp =>
    (List.mem_zipIdx hp).1
  rw [stepsAround, List.zipIdx_append, List.zipIdx_cons, List.filter_append,
    List.filter_cons_of_neg (by simp), Nat.zero_add,
    List.filter_eq_self.mpr fun p hp => bne_iff_ne.mpr (hfront p hp).ne,
    List.filter_eq_self.mpr fun p hp => bne_iff_ne.mpr (hback p hp).ne', List.map_append]
  congr 1
  · refine List.map_congr_left fun p hp => ?_
    obtain ⟨l, k⟩ := p
    cases l with
    | positive a => simp only [stepOf, if_pos (hfront _ hp)]
    | negative atoms => rfl
  · refine List.map_congr_left fun p hp => ?_
    obtain ⟨l, k⟩ := p
    cases l with
    | positive a => simp only [stepOf, if_neg (hback _ hp).asymm]
    | negative atoms => rfl

/-- Where all literals are positive, what is found for them is one row for each. -/
theorem exists_follows_positive_iff {n : Snapshot} {occurrence : Nat → Occurrence} {B : Nat → Prop}
    {positive negative : Role} {P : RowIndex → Triple → Prop} {k : Nat} {body : List Literal}
    (hpos : ∀ l ∈ body, l.isPositive = true)
    (hrows : ∀ o r u, (r, u) ∈ n.rows positive o ↔ P r u) :
    (∃ more, n.Follows occurrence B τ ((body.zipIdx k).map fun p =>
        stepOf (fun _ => positive) (fun _ => negative) p.1 p.2) more ∧ more.map (·.row) = rows) ↔
      List.Forall₂ (fun p r => P r (p.1.groundIn n.classes τ)) ((body.zipIdx k).filterMap positive?) rows := by
  simp only [exists_follows_map_iff, hrows]
  refine and_iff_left fun j atoms h => ?_
  cases hpos _ (List.fst_mem_of_mem_zipIdx h)

theorem length_filterMap_positive? {body : List Literal} (hpos : ∀ l ∈ body, l.isPositive = true) (k : Nat) :
    ((body.zipIdx k).filterMap positive?).length = body.length := by
  induction body generalizing k with
  | nil => rfl
  | cons l body ih =>
    obtain ⟨hl, hbody⟩ := List.forall_mem_cons.mp hpos
    cases l with
    | positive a => simp [positive?, ih hbody]
    | negative atoms => cases hl

theorem positives_append (front : List Literal) (a : Atom) (back : List Literal) :
    positives (front ++ .positive a :: back) = front.zipIdx.filterMap positive? ++
      (a, front.length) :: (back.zipIdx (front.length + 1)).filterMap positive? := by
  rw [positives, List.zipIdx_append, List.zipIdx_cons, Nat.zero_add, List.filterMap_append]
  rfl

section around

variable {front back : List Literal} {a : Atom}

/-- A use in which a literal is the first that is matched with the row falls into the rows before it, the
row and the rows behind it. -/
theorem uses_first_iff {table : Table} {classes : Option Classes}
    (hbody : i.rule.body = front ++ .positive a :: back) (hpos : ∀ l ∈ front, l.isPositive = true) :
    Uses table classes S row i τ rows ∧ rows.idxOf row = front.length ↔
      ∃ before behind, rows = before ++ row :: behind ∧ row ∉ before ∧
        List.Forall₂ (Found table classes S τ) (front.zipIdx.filterMap positive?) before ∧
        Found table classes S τ (a, front.length) row ∧
        List.Forall₂ (Found table classes S τ) ((back.zipIdx (front.length + 1)).filterMap positive?)
          behind := by
  rw [uses_iff, and_assoc, hbody, positives_append]
  exact forall₂_first_iff (length_filterMap_positive? hpos 0)

/-- What is found around a literal, together with a row for it, falls likewise. -/
theorem exists_follows_split_iff (hf : SplitsAt view s S row) {B : Nat → Prop}
    (hfront : ∀ l ∈ front, l.isPositive = true) (hback : ∀ l ∈ back, l.isPositive = true) :
    (∃ more, (view.snapshot s).Follows (occurrence i rule) B τ
        (stepsAround (front ++ .positive a :: back) front.length) more ∧
        (more.map (·.row)).insertIdx front.length row = rows) ↔
      ∃ before behind, rows = before ++ row :: behind ∧ row ∉ before ∧
        List.Forall₂ (Found (view.table s) (view.classes s) S τ) (front.zipIdx.filterMap positive?) before ∧
        List.Forall₂ (Found (view.table s) (view.classes s) S τ)
          ((back.zipIdx (front.length + 1)).filterMap positive?) behind := by
  rw [stepsAround_append]
  constructor
  · rintro ⟨more, hmore, rfl⟩
    obtain ⟨first, second, rfl, h₁, h₂⟩ := Snapshot.follows_append_iff.mp hmore
    have h₁ := (exists_follows_positive_iff hfront hf.mem_before).mp ⟨_, h₁, rfl⟩
    have h₂ := (exists_follows_positive_iff hback hf.mem_behind).mp ⟨_, h₂, rfl⟩
    obtain ⟨h₁, hne⟩ := forall₂_and_right.mp h₁
    refine ⟨_, _, ?_, fun h => hne _ h rfl, h₁, h₂⟩
    rw [← length_filterMap_positive? hfront 0, h₁.length_eq, List.map_append, insertIdx_append_length]
  · rintro ⟨before, behind, rfl, hnot, h₁, h₂⟩
    obtain ⟨first, hfirst, rfl⟩ := (exists_follows_positive_iff hfront hf.mem_before).mpr
      (forall₂_and_right.mpr ⟨h₁, fun r hr he => hnot (he ▸ hr)⟩)
    obtain ⟨second, hsecond, rfl⟩ := (exists_follows_positive_iff hback hf.mem_behind).mpr h₂
    refine ⟨_, Snapshot.follows_append_iff.mpr ⟨_, _, rfl, hfirst, hsecond⟩, ?_⟩
    rw [← length_filterMap_positive? hfront 0, h₁.length_eq, List.map_append, insertIdx_append_length]

end around

/-- What is found around a literal that is the fact of a row, together with that row, are the uses of the
row in which this literal is the first that is matched with it. -/
theorem exists_follows_around_iff (rule : Nat) (hd : i.rule.Definite) (hf : SplitsAt view s S row) (hS : row ∈ S)
    (ht : (view.table s).fact? row = some t) {B : Nat → Prop} {pivot : Nat} {a : Atom}
    (ha : i.rule.body[pivot]? = some (.positive a)) :
    (a.groundIn (view.classes s) τ = t ∧ ∃ more, (view.snapshot s).Follows (occurrence i rule) B τ
        (stepsAround i.rule.body pivot) more ∧ (more.map (·.row)).insertIdx pivot row = rows) ↔
      Uses (view.table s) (view.classes s) S row i τ rows ∧ rows.idxOf row = pivot := by
  obtain ⟨front, back, hbody, rfl⟩ : ∃ front back, i.rule.body = front ++ .positive a :: back ∧
      front.length = pivot := by
    obtain ⟨hlt, hget⟩ := List.getElem?_eq_some_iff.mp ha
    refine ⟨i.rule.body.take pivot, i.rule.body.drop (pivot + 1), ?_, List.length_take_of_le hlt.le⟩
    rw [← hget, List.cons_getElem_drop_succ, List.take_append_drop]
  have hpos : ∀ l ∈ front ++ .positive a :: back, l.isPositive = true := fun l hl => by
    obtain ⟨b, rfl⟩ := hd.eq_positive (hbody ▸ hl)
    rfl
  obtain ⟨hfront, hback⟩ := List.forall_mem_append.mp hpos
  have hrow : Found (view.table s) (view.classes s) S τ (a, front.length) row ↔
      a.groundIn (view.classes s) τ = t := by
    rw [Found, ht, and_iff_left hS, Option.some.injEq, eq_comm]
  rw [uses_first_iff hbody hfront, hbody, exists_follows_split_iff hf hfront (List.forall_mem_cons.mp hback).2]
  constructor
  · rintro ⟨hat, before, behind, hrows, hnot, h₁, h₂⟩
    exact ⟨before, behind, hrows, hnot, h₁, hrow.mpr hat, h₂⟩
  · rintro ⟨before, behind, hrows, hnot, h₁, hat, h₂⟩
    exact ⟨hrow.mp hat, before, behind, hrows, hnot, h₁, h₂⟩

/-- The matches that are found from a row for one literal. -/
def usesAt (n : Snapshot) (row : RowIndex) (t : Triple) (i : IndexedRule) (rule : Nat)
    (l : Literal) (pivot : Nat) : List Firing :=
  match l with
  | .negative _ => []
  | .positive a =>
    match (Bindings.free i.rule.names.length).bound? n.classes a t with
    | none => []
    | some b =>
      (n.solutions (occurrence i rule) (stepsAround i.rule.body pivot) b [⟨pivot, row, t⟩]).map fun p =>
        ⟨i, rule, (p.2.tail.map (·.row)).insertIdx pivot row, p.1.toAssignment⟩

section pivot

variable {n : Snapshot} {pivot : Nat} {a : Atom} (hd : i.rule.Safe)
  (ha : i.rule.body[pivot]? = some (.positive a))

include hd ha

theorem scopes_pivot : (Bindings.free i.rule.names.length).Scopes a := fun v hv => by
  rw [Bindings.size_free]
  exact hd.named a (List.mem_append_right _ (List.mem_flatMap.mpr
    ⟨_, List.mem_of_getElem? ha, List.mem_singleton.mpr rfl⟩)) v hv

variable {b : Bindings} (hb : (Bindings.free i.rule.names.length).bound? n.classes a t = some b)

include hb

theorem scopes_stepsAround : ∀ step ∈ stepsAround i.rule.body pivot, ∀ c ∈ step.atoms, b.Scopes c := by
  have hfits := Bindings.fits_of_bound? (scopes_pivot hd ha) hb
  rw [stepsAround_eq]
  exact fun step hstep c => scopes_stepsOf hd (hfits.size.trans (Bindings.size_free _)) hstep

theorem grounded_stepsAround :
    Grounded (stepsAround i.rule.body pivot) b (· ∈ Rule.boundVariables i.rule.body) := by
  have hfits := Bindings.fits_of_bound? (scopes_pivot hd ha) hb
  rw [stepsAround_eq]
  refine grounded_stepsOf hd (fun v hv => ?_) fun k c hk hkp v hv => hfits.binds_iff.mpr ?_
  · exact Rule.mem_boundVariables.mpr ⟨a, List.mem_of_getElem? ha, hfits.binds_iff.mp hv⟩
  · obtain rfl : k = pivot := by simpa using hkp
    rw [ha] at hk
    cases hk
    exact hv

end pivot

section literal

variable (hd : i.rule.Definite) {l : Literal} {pivot : Nat} (hl : i.rule.body[pivot]? = some l)

include hd hl

theorem nodup_usesAt (n : Snapshot) (hn : ∀ role o, ((n.rows role o).map (·.1)).Nodup) :
    ((usesAt n row t i rule l pivot).map (·.rows)).Nodup := by
  obtain ⟨a, rfl⟩ := hd.eq_positive (List.mem_of_getElem? hl)
  rw [usesAt]
  split
  · exact List.nodup_nil
  · rename_i b hb
    rw [List.map_map]
    have hsols : ((n.solutions (occurrence i rule) (stepsAround i.rule.body pivot) b
        [⟨pivot, row, t⟩]).map fun p => p.2.map (·.row)).Nodup := Snapshot.nodup_solutions hn
    refine List.Nodup.map_on (fun p hp p' hp' he => List.inj_on_of_nodup_map hsols hp hp' ?_) hsols.of_map
    -- the row in front is the same in all of them
    obtain ⟨more, hmore⟩ := Snapshot.prefix_of_mem_solutions hp
    obtain ⟨more', hmore'⟩ := Snapshot.prefix_of_mem_solutions hp'
    have htail := List.insertIdx_injective pivot row he
    rw [← hmore, ← hmore'] at htail ⊢
    exact congrArg (row :: ·) htail

/-- Every match that is found is a use of the row that has its first place there. -/
theorem uses_of_mem_usesAt (hf : SplitsAt view s S row) (hS : row ∈ S)
    (ht : (view.table s).fact? row = some t) {f : Firing}
    (hmem : f ∈ usesAt (view.snapshot s) row t i rule l pivot) :
    (f.indexed = i ∧ f.rule = rule) ∧
      Uses (view.table s) (view.classes s) S row i f.assignment f.rows ∧ f.rows.idxOf row = pivot := by
  obtain ⟨a, rfl⟩ := hd.eq_positive (List.mem_of_getElem? hl)
  rw [usesAt] at hmem
  split at hmem
  · cases hmem
  · rename_i b hb
    obtain ⟨p, hp, rfl⟩ := List.mem_map.mp hmem
    obtain ⟨more, hmore, hall⟩ := (Snapshot.Solves.of_mem (scopes_stepsAround hd.safe hl hb)
      (grounded_stepsAround hd.safe hl hb) hp).finds
    obtain ⟨hbτ, hfollows⟩ := hall _ p.1.agrees_toAssignment
    refine ⟨⟨rfl, rfl⟩, (exists_follows_around_iff rule hd hf hS ht hl).mp
      ⟨(Bindings.fits_of_bound? (scopes_pivot hd.safe hl) hb).agrees_iff.mp hbτ, more, hfollows, ?_⟩⟩
    rw [hmore]
    rfl

/-- Every use of the row that has its first place there is found. -/
theorem exists_mem_usesAt (rule : Nat) (hf : SplitsAt view s S row) (hS : row ∈ S)
    (ht : (view.table s).fact? row = some t) (hu : Uses (view.table s) (view.classes s) S row i τ rows)
    (hp : rows.idxOf row = pivot) :
    ∃ τ', ⟨i, rule, rows, τ'⟩ ∈ usesAt (view.snapshot s) row t i rule l pivot ∧
      ∀ v ∈ Rule.boundVariables i.rule.body, τ' v = τ v := by
  obtain ⟨a, rfl⟩ := hd.eq_positive (List.mem_of_getElem? hl)
  obtain ⟨hat, more, hmore, rfl⟩ := (exists_follows_around_iff (B := (· ∈ Rule.boundVariables i.rule.body))
    rule hd hf hS ht hl).mpr ⟨hu, hp⟩
  rw [usesAt]
  cases hb : (Bindings.free i.rule.names.length).bound? (view.snapshot s).classes a t with
  | none => exact absurd hat (Bindings.groundIn_ne_of_bound? (scopes_pivot hd.safe hl) hb τ)
  | some b =>
    have ha := scopes_stepsAround hd.safe hl hb
    have hg := grounded_stepsAround hd.safe hl hb
    obtain ⟨b', hmem, hb'⟩ := Snapshot.exists_solution ha hg
      ((Bindings.fits_of_bound? (scopes_pivot hd.safe hl) hb).agrees_iff.mpr hat) hmore [⟨pivot, row, t⟩]
    refine ⟨_, List.mem_map.mpr ⟨_, hmem, rfl⟩, fun v hv => ?_⟩
    exact b'.agrees_toAssignment.eq_of_binds hb' ((Snapshot.Solves.of_mem ha hg hmem).binds v hv)

theorem applyAtPositive_eq {n : Snapshot} (ho : view.observe = none)
    (hc : ∀ head, Preserves (view.snapshot · = n) (consume rule head)) {s : σ} (hs : view.snapshot s = n) :
    applyAtPositive view row t consume i rule l pivot s =
      ((usesAt n row t i rule l pivot).forM (Firing.emit n.classes consume)) s := by
  obtain ⟨a, rfl⟩ := hd.eq_positive (List.mem_of_getElem? hl)
  rw [applyAtPositive, usesAt]
  simp only [Bind.bind, EStateM.bind, View.bind_eq hs (scopes_pivot hd.safe hl)]
  cases hb : (Bindings.free i.rule.names.length).bound? n.classes a t with
  | none => rfl
  | some b =>
    simp only [derive_emits ho hd.safe hc (scopes_stepsAround hd.safe hl hb)
      (grounded_stepsAround hd.safe hl hb) _ hs, List.forM_eq_forM, List.forM_map]
    rfl

end literal

/-! ## A scope -/

/-- The matches that are found from a row for the literals of a body. -/
def usesIn (n : Snapshot) (row : RowIndex) (t : Triple) (i : IndexedRule) (rule : Nat) :
    List Firing :=
  i.rule.body.zipIdx.flatMap fun p => usesAt n row t i rule p.1 p.2

theorem mem_usesIn (hd : i.rule.Definite) (hf : SplitsAt view s S row) (hS : row ∈ S)
    (ht : (view.table s).fact? row = some t) {f : Firing} (hmem : f ∈ usesIn (view.snapshot s) row t i rule) :
    (f.indexed = i ∧ f.rule = rule) ∧ Uses (view.table s) (view.classes s) S row i f.assignment f.rows := by
  obtain ⟨p, hp, hmem⟩ := List.mem_flatMap.mp hmem
  obtain ⟨hrule, huses, -⟩ := uses_of_mem_usesAt hd (List.mem_zipIdx_iff_getElem?.mp hp) hf hS ht hmem
  exact ⟨hrule, huses⟩

theorem nodup_usesIn (hd : i.rule.Definite) (hf : SplitsAt view s S row) (hS : row ∈ S)
    (ht : (view.table s).fact? row = some t) :
    ((usesIn (view.snapshot s) row t i rule).map (·.rows)).Nodup := by
  rw [usesIn, List.map_flatMap]
  refine nodup_flatMap_of_key Prod.snd (·.idxOf row) ?_ (fun p hp => ?_) fun p hp rows hrows => ?_
  · rw [List.zipIdx_map_snd]
    exact List.nodup_range'
  · exact nodup_usesAt hd (List.mem_zipIdx_iff_getElem?.mp hp) _ (view.nodup_rows s)
  · obtain ⟨f, hmem, rfl⟩ := List.mem_map.mp hrows
    exact (uses_of_mem_usesAt hd (List.mem_zipIdx_iff_getElem?.mp hp) hf hS ht hmem).2.2

theorem exists_mem_usesIn (rule : Nat) (hd : i.rule.Definite) (hf : SplitsAt view s S row) (hS : row ∈ S)
    (ht : (view.table s).fact? row = some t) (hu : Uses (view.table s) (view.classes s) S row i τ rows) :
    ∃ τ', ⟨i, rule, rows, τ'⟩ ∈ usesIn (view.snapshot s) row t i rule ∧
      ∀ v ∈ Rule.boundVariables i.rule.body, τ' v = τ v := by
  have hlen : rows.length = i.rule.body.length := by
    rw [← hu.found.length_eq, positives, length_filterMap_positive? fun l hl => ?_]
    obtain ⟨a, rfl⟩ := hd.eq_positive hl
    rfl
  have hlt : rows.idxOf row < i.rule.body.length := hlen ▸ List.idxOf_lt_length_of_mem hu.mem
  have hl := List.getElem?_eq_getElem hlt
  obtain ⟨τ', hmem, hτ'⟩ := exists_mem_usesAt hd hl rule hf hS ht hu rfl
  exact ⟨τ', List.mem_flatMap.mpr ⟨(_, _), List.mem_zipIdx_iff_getElem?.mpr hl, hmem⟩, hτ'⟩

/-- What is found from a row for the rules of a scope are the uses of the row, each of them once. -/
theorem enumerates_uses (hx : x.Definite) (hf : SplitsAt view s S row) (hS : row ∈ S)
    (ht : (view.table s).fact? row = some t) :
    EnumeratesUses x scope (view.table s) (view.classes s) S row
      ((x.inScope scope).flatMap fun q => usesIn (view.snapshot s) row t q.1 q.2) := by
  have hdef : ∀ q ∈ x.inScope scope, q.1.rule.Definite := fun q hq => hx _ _ (mem_inScope.mp hq).1
  refine ⟨?_, fun f hmem => ?_, fun i rule τ rows hi hu => ?_⟩
  · rw [List.map_flatMap]
    refine nodup_flatMap_of_key Prod.snd Prod.fst ?_ (fun q hq => ?_) fun q hq p hp => ?_
    · refine List.Nodup.sublist (List.filter_sublist.map _) ?_
      rw [List.zipIdx_map_snd]
      exact List.nodup_range'
    · refine List.Nodup.of_map Prod.snd ?_
      rw [List.map_map]
      exact nodup_usesIn (hdef q hq) hf hS ht
    · obtain ⟨f, hmem, rfl⟩ := List.mem_map.mp hp
      exact (mem_usesIn (hdef q hq) hf hS ht hmem).1.2
  · obtain ⟨⟨i, rule⟩, hi, hmem⟩ := List.mem_flatMap.mp hmem
    obtain ⟨⟨rfl, rfl⟩, huses⟩ := mem_usesIn (hdef _ hi) hf hS ht hmem
    exact ⟨hi, huses⟩
  · obtain ⟨τ', hmem, hτ'⟩ := exists_mem_usesIn rule (hdef _ hi) hf hS ht hu
    exact ⟨τ', List.mem_flatMap.mpr ⟨(i, rule), hi, hmem⟩, hτ'⟩

/-- Rules without negation are applied to the fact of a row in a set, where the filter lets in the set but
for that row before the pivot and the whole set behind it. Then a consumer is handed, for every match with
rows of the set that uses the row and once for each, all heads in their order, and nothing else. What the
consumer does must leave the rows and the classes that are read as they are; it may fail, which ends the
application. -/
theorem applyToPositive_enumerates (ho : view.observe = none)
    (hx : ∀ (rule : Nat) i, x.rules[rule]? = some i → i.rule.Parsed ∧ i.rule.hasNegation = false)
    (ht : (view.table s).fact? row = some t) (hS : row ∈ S) (hf : SplitsAt view s S row) (scope : Scope)
    (hc : ∀ rule head, Preserves (view.snapshot · = view.snapshot s) (consume rule head)) :
    ∃ firings, EnumeratesUses x scope (view.table s) (view.classes s) S row firings ∧
      x.applyToPositive view row t scope consume s =
        (firings.forM (Firing.emit (view.classes s) consume)) s := by
  have hx : x.Definite := fun rule i hi => ⟨(hx rule i hi).1.safe, (hx rule i hi).2⟩
  refine ⟨_, enumerates_uses hx hf hS ht, ?_⟩
  have hkeep : ∀ l : List Firing, Preserves (view.snapshot · = view.snapshot s)
      (l.forM (Firing.emit (view.classes s) consume)) := fun l => .forM fun f _ => .forM fun a _ => hc _ _
  rw [forM_flatMap, applyToPositive]
  refine Preserves.forM_congr (P := (view.snapshot · = view.snapshot s)) (fun q hq s₁ hs₁ => ?_)
    (fun q _ => hkeep _) rfl
  rw [usesIn, forM_flatMap]
  refine Preserves.forM_congr (fun p hp s₂ hs₂ => ?_) (fun p _ => hkeep _) hs₁
  exact applyAtPositive_eq (hx _ _ (mem_inScope.mp hq).1) (List.mem_zipIdx_iff_getElem?.mp hp) ho (hc _) hs₂

/-- A parent of a parent is an ancestor. -/
def grandparents : Rule where
  head := [⟨.var 0, .const 5, .var 1⟩]
  body := [.positive ⟨.var 0, .const 4, .var 2⟩, .positive ⟨.var 2, .const 4, .var 1⟩]
  level := 0
  names := ["x", "z", "y"]

theorem parsed_grandparents : grandparents.Parsed := by
  obtain ⟨d, hd⟩ := Dictionary.exists_ids (l := [.rdfType, .owlSameAs, .owlNothing, .iri "parent",
    .iri "ancestor"]) (by decide)
  have hparent := hd 3 (.iri "parent") rfl
  have hancestor := hd 4 (.iri "ancestor") rfl
  refine ⟨"?x ancestor ?z :- ?x parent ?y , ?y parent ?z", d, d, ?_⟩
  cbv
  grind

/-- An index of the rule `grandparents`. -/
def grandparentsIndex : RuleIndex := (RuleIndex.build [grandparents] false).toOption.getD .empty

/-- Reads some rows of a table, and keeps the facts that were handed out. One row is left out before the
pivot. -/
def splitting (rows : List RowIndex) (row : RowIndex) : View (Table × List Triple) where
  table s := s.1
  classes _ := none
  accepts _ role _ r _ := rows.contains r && (role != .positiveBeforePivot || r != row)

theorem splitsAt_splitting (rows : List RowIndex) (row : RowIndex) (s : Table × List Triple) :
    SplitsAt (splitting rows row) s {r | r ∈ rows} row :=
  ⟨fun _ _ _ _ => by simp [splitting], fun _ _ _ _ => by simp [splitting]⟩

/-- Somebody is its own parent and the parent of another. -/
theorem applyToPositive_enumerates_grandparents :
    let view := splitting [1, 2] 1
    let s : Table × List Triple := ([⟨7, 4, 7⟩, ⟨7, 4, 8⟩, ⟨6, 4, 7⟩].foldl
      (fun t fact => (t.add fact 0).2) .empty, [])
    ∃ firings, EnumeratesUses grandparentsIndex .all (view.table s) (view.classes s) {r | r ∈ [1, 2]} 1
        firings ∧
      grandparentsIndex.applyToPositive view 1 ⟨7, 4, 7⟩ .all collect s =
        (firings.forM (Firing.emit (view.classes s) collect)) s := by
  have hfacts := Table.facts_addAll (t := .empty) [⟨7, 4, 7⟩, ⟨7, 4, 8⟩, ⟨6, 4, 7⟩] 0 (by decide)
  refine applyToPositive_enumerates rfl (fun rule i hi => ?_) ?_ List.mem_cons_self
    (splitsAt_splitting _ _ _) _ fun _ head s hs r s' h => by cases h; exact hs
  · have hb : Builds [grandparents] false grandparentsIndex := rfl
    rw [List.mem_singleton.mp (hb.rule_mem hi).1]
    exact ⟨parsed_grandparents, rfl⟩
  · rw [Table.fact?_of_pos Nat.one_pos, ← Array.getElem?_toList]
    exact congrArg (·[0]?) hfacts

end RuleIndex

end Entail
