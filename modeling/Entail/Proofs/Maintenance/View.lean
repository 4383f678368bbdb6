import Entail.Maintenance.Deletion
import Entail.Proofs.Maintenance.Run
import Entail.Proofs.Rule.Instance

/-!
# What rules read of a run

In a `Context.Discrete` there is no equality, and no negation unless levels are in use; in a
`Context.Basic` negation is simple, and an update is never stopped. There a literal finds the facts
whose rows the filter of the evaluation accepts (`View.present_iff`), and an evaluation is not
disturbed by what leaves these rows as they are (`View.snapshot_congr`).
-/

namespace Entail

/-- A context without equality, whose rules have no negation without levels. -/
structure Context.Discrete (c : Context) (rules : List Rule) : Prop where
  equality : c.mode.equality.enabled = false
  builds : RuleIndex.Builds rules c.mode.usesLevels c.rules
  safe : c.rules.Safe
  definite (h : c.mode.usesLevels = false) : c.rules.Definite

/-- The context of an update that is never stopped, without equality and with rules that have simple
negation at most, and none without levels. -/
structure Context.Basic (c : Context) (rules : List Rule) : Prop extends c.Discrete rules where
  stop : c.stop = .never
  simple : c.rules.Simple

namespace Context.Discrete

variable {c : Context} {rules : List Rule}

theorem steady_eq (h : c.Discrete rules) (r : Run) : c.steady? r = none := by
  rw [steady?, h.equality]
  rfl

theorem proving_eq (h : c.Discrete rules) (r : Run) : c.proving? r = none := by
  rw [proving?, h.equality]
  rfl

end Context.Discrete

namespace Context.Basic

variable {c : Context} {rules : List Rule} {level : Option Nat} {k : Nat} {u : Triple}

theorem below_of_blocker (h : c.Basic rules) (hl : level.isSome = c.mode.usesLevels)
    (a : c.rules.Instance level) (hk : a.Blocker k u) : c.rules.Below level u :=
  a.below_of_blocker h.builds hl h.definite hk

end Context.Basic

/-- Where changes at lower levels do not matter, no fact is of a lower level. -/
theorem Context.not_below_of_readsLower {c : Context} {level : Option Nat}
    (h : c.readsLower level = false) (a : c.rules.Instance level) {u : Triple} :
    ¬ c.rules.Below level u := by
  rintro ⟨l, rfl, hlt⟩
  have hrules : c.rules.hasRules (.level l) = true := by
    obtain ⟨hmem, hs⟩ := a.mem_rules
    rw [RuleIndex.hasRules, ← Array.any_toList, List.any_eq_true]
    exact ⟨a.indexed, hmem, hs⟩
  rw [readsLower, hrules, Bool.and_true, decide_eq_false_iff_not] at h
  omega

namespace View

variable {σ : Type} {view : View σ} {s s' : σ}

theorem present_iff {role : Role} {o : Occurrence} {t : Triple} :
    (view.snapshot s).Present role o t ↔
      (view.table s).Holds (fun row => view.accepts s role o row ((view.table s).status row)) t := by
  simp only [Snapshot.Present, snapshot, List.mem_filter, Table.mem_toList, Table.Holds]

/-- An evaluation reads the same of a state with more rows, if its filter accepts the same of the
old rows and none of the new ones. -/
theorem snapshot_congr (view : View σ) (hc : view.classes s' = view.classes s)
    (ht : (view.table s).Extends (view.table s'))
    (hold : ∀ role o row, row ≤ (view.table s).size →
      view.accepts s' role o row ((view.table s').status row) =
        view.accepts s role o row ((view.table s).status row))
    (hnew : ∀ role o row t, (view.table s').fact? row = some t → (view.table s).size < row →
      view.accepts s' role o row ((view.table s').status row) = false) :
    view.snapshot s' = view.snapshot s := by
  simp only [snapshot, hc, Snapshot.mk.injEq, true_and]
  funext role o
  obtain ⟨rest, hrest, hlt⟩ := ht.toList
  have hnone : rest.filter (fun p =>
      view.accepts s' role o p.1 ((view.table s').status p.1)) = [] := by
    rw [List.filter_eq_nil_iff]
    rintro ⟨row, t⟩ hp
    rw [Bool.not_eq_true]
    refine hnew role o row t (Table.mem_toList.mp ?_) (hlt _ hp)
    rw [hrest]
    exact List.mem_append_right _ hp
  rw [hrest, List.filter_append, hnone, List.append_nil]
  refine List.filter_congr fun p hp => hold role o p.1 ?_
  exact (Table.fact?_bounds (Table.mem_toList.mp hp)).2

end View

namespace Standing

variable {s s' : Standing}

open Flag.Update

theorem kept_congr (hs : s'.status = s.status) (hd : s'.flags.any deleted = s.flags.any deleted)
    (ha : s'.flags.any added = s.flags.any added) : s'.kept = s.kept := by
  rw [kept_iff, kept_iff, hs, hd, ha]

theorem withAdded_congr (hs : s'.status = s.status) (ha : s'.flags.any added = s.flags.any added)
    (hm : s'.flags.any addedMerged = s.flags.any addedMerged) : s'.withAdded = s.withAdded := by
  rw [withAdded_iff, withAdded_iff, hs, ha, hm]

theorem after_congr (hs : s'.status = s.status) (hd : s'.flags.any deleted = s.flags.any deleted)
    (ha : s'.flags.any added = s.flags.any added)
    (hm : s'.flags.any addedMerged = s.flags.any addedMerged) : s'.after = s.after := by
  rw [after_iff, after_iff, hs, hd, ha, hm]

end Standing

end Entail
