import Entail.Maintenance.Insertion
import Entail.Maintenance.Search
import Entail.Proofs.Invariant

/-!
# The bound on the number of steps

Loops and nested derivations have a bound on their steps, and fail if they would go beyond it. With a
greater bound a task does what it does with a smaller one that is great enough (`Routine.Extends`).
-/

namespace Entail

variable {c : Context} {α β : Type} {r : Run}

/-- `y` does what `x` does, unless `x` runs out of steps. -/
def Routine.Extends (x y : Routine α) : Prop := ∀ r, (∃ r', x r = .error .exhausted r') ∨ y r = x r

namespace Routine.Extends

variable {x y : Routine α}

protected theorem refl (x : Routine α) : x.Extends x := fun _ => .inr rfl

theorem throw (y : Routine α) : Extends (throw .exhausted) y := fun r => .inl ⟨r, rfl⟩

/-- What does not run out of steps is the same. -/
theorem eq {Q : α → Run → Prop} {E : Failure → Run → Prop} (h : x.Extends y)
    (hx : Ends x r Q fun f r' => f ≠ .exhausted ∧ E f r') : y r = x r :=
  (h r).resolve_left fun ⟨_, hr⟩ => (hx.failure hr).1 rfl

theorem bind {f g : α → Routine β} (h : x.Extends y) (hf : ∀ a, (f a).Extends (g a)) :
    (x >>= f).Extends (y >>= g) := fun r => by
  simp only [Bind.bind, EStateM.bind]
  obtain ⟨r', hr⟩ | hr := h r
  · exact .inl ⟨r', by rw [hr]⟩
  · rw [hr]
    cases hx : x r with
    | ok a r' => exact hf a r'
    | error f r' => exact .inr rfl

theorem ite {p : Prop} [Decidable p] {x' y' : Routine α} (h : x.Extends y) (h' : x'.Extends y') :
    Extends (if p then x else x') (if p then y else y') := by
  split
  · exact h
  · exact h'

theorem forM {l : List α} {f g : α → Routine PUnit} (h : ∀ a, (f a).Extends (g a)) :
    (l.forM f).Extends (l.forM g) := by
  induction l with
  | nil => exact .refl _
  | cons a l ih => exact .bind (h a) fun _ => ih

theorem discard (h : x.Extends y) : (discard x).Extends (discard y) := by
  have heq : ∀ z : Routine α, Functor.discard z = z >>= fun _ => pure .unit := map_eq_pure_bind _
  rw [heq, heq]
  exact h.bind fun _ => .refl _

theorem drain {next : Routine RowIndex} {handle handle' : RowIndex → β → Routine β}
    {n m : Nat} (hle : n ≤ m)
    (h : ∀ row b, (handle row b).Extends (handle' row b)) (b : β) :
    (Routine.drain next handle n b).Extends (Routine.drain next handle' m b) := by
  induction n generalizing m b with
  | zero => exact .throw _
  | succ n ih =>
    obtain ⟨m, rfl⟩ : ∃ k, m = k + 1 := ⟨m - 1, by omega⟩
    refine .bind (.refl _) fun row => .ite (.refl _) (.bind (h row b) fun b' => ih ?_ b')
    omega

/-! ## Rules -/

theorem foldUntil {f g : α → β → Routine (ForInStep β)} (h : ∀ a b, (f a b).Extends (g a b))
    (l : List α) (b : β) :
    Extends (Eval.foldUntil f l b) (Eval.foldUntil g l b) := by
  induction l generalizing b with
  | nil => exact .refl _
  | cons a l ih =>
    refine .bind (h a b) fun step => ?_
    cases step with
    | done b => exact .refl _
    | yield b => exact ih b

variable {view : View Run} {f g : Bindings → List Match → β → Routine (ForInStep β)}

theorem run (h : ∀ b matched acc, (f b matched acc).Extends (g b matched acc))
    (occurrence : Nat → Occurrence)
    (steps : List Step) (b : Bindings) (matched : List Match) (acc : β) :
    Extends (view.run occurrence f steps b matched acc) (view.run occurrence g steps b matched acc) := by
  induction steps generalizing b matched acc with
  | nil => exact h b matched acc
  | cons step rest ih =>
    cases step with
    | find a literal role =>
      refine .bind (.refl _) fun found => .foldUntil (fun p acc => .bind (.refl _) fun bound => ?_)
        found acc
      cases bound with
      | none => exact .refl _
      | some b => exact ih b _ acc
    | absent atoms literal role => exact .bind (.refl _) fun _ => .ite (.refl _) (ih b matched acc)

section

variable {consume consume' : Nat → Triple → Routine Unit}
  (h : ∀ rule t, (consume rule t).Extends (consume' rule t))

include h

theorem derive (i : IndexedRule) (rule : Nat) (steps : List Step) (b : Bindings) (matched : List Match) :
    Extends (RuleIndex.derive view i rule consume steps b matched)
      (RuleIndex.derive view i rule consume' steps b matched) :=
  .discard (.run
    (fun _ _ _ => .bind (.forM fun _ => .bind (.refl _) fun t => h rule t) fun _ => .refl _)
    _ steps b
    matched ())

theorem applyToPositive (x : RuleIndex) (row : RowIndex) (t : Triple) (scope : Scope) :
    Extends (x.applyToPositive view row t scope consume)
      (x.applyToPositive view row t scope consume') := by
  refine .forM fun (i, rule) => .forM fun (l, pivot) => ?_
  cases l with
  | negative atoms => exact .refl _
  | positive a =>
    refine .bind (.refl _) fun bound => ?_
    cases bound with
    | none => exact .refl _
    | some b => exact derive h i rule _ b _

theorem applyToNegation (x : RuleIndex) (t : Triple) (scope : Scope) :
    Extends (x.applyToNegation view t scope consume) (x.applyToNegation view t scope consume') := by
  refine .forM fun (i, rule) => .forM fun (l, pivot) => ?_
  cases l with
  | positive a => exact .refl _
  | negative atoms =>
    refine .forM fun (a, place) => .bind (.refl _) fun bound => ?_
    cases bound with
    | none => exact .refl _
    | some b => exact derive h i rule _ b _

theorem evaluateRule (x : RuleIndex) (rule : Nat) :
    Extends (x.evaluateRule view rule consume) (x.evaluateRule view rule consume') := by
  unfold RuleIndex.evaluateRule
  cases x.rules[rule]? with
  | none => exact .refl _
  | some i => exact derive h i rule _ _ _

end

end Routine.Extends

/-! ## Insertion -/

namespace InsertionTask

open Routine.Extends (refl)

variable {task : InsertionTask} {n : Nat}

section unite

variable {derive' derive'' : Triple → Routine Unit} (h : ∀ t, (derive' t).Extends (derive'' t))

include h

theorem unite_extends (first second : Nat) :
    (unite c task derive' first second).Extends
      (unite c { task with budget := n } derive'' first second) := by
  have hrenormalize : ∀ row,
      (renormalize c derive' row).Extends (renormalize c derive'' row) := fun row =>
    .bind (refl _) fun _ => .ite (.bind (refl _) fun _ => .bind (refl _) fun normal => .ite
      (.bind (refl _) fun _ => .ite (h normal) (refl _)) (refl _)) (refl _)
  have habsorb : ∀ source, (absorb c task derive' source).Extends
      (absorb c { task with budget := n } derive'' source) := fun source =>
    .bind (.forM fun _ => .bind (refl _) fun _ => .forM hrenormalize) fun _ => .bind (refl _) fun _ =>
      .forM fun _ => .evaluateRule (fun _ => h) _ _
  refine .bind (refl _) fun merged => .ite (.bind (refl _) fun _ => .bind (habsorb _) fun _ => ?_) ?_
  all_goals exact .ite (.bind (refl _) fun _ => .bind (refl _) fun _ => h _) (refl _)

end unite

theorem derive_extends {depth depth' : Nat} (h : depth ≤ depth') (t : Triple) :
    (derive c task depth t).Extends (derive c { task with budget := n } depth' t) := by
  induction depth generalizing depth' t with
  | zero => exact .throw _
  | succ depth ih =>
    obtain ⟨k, rfl⟩ : ∃ k, depth' = k + 1 := ⟨depth' - 1, by omega⟩
    refine .bind (refl _) fun _ =>
      .ite (.bind (refl _) fun row => .bind (refl _) fun isNew => ?_) (refl _)
    have hunite : (unite c task (derive c task depth) t.subject t.object).Extends
        (unite c { task with budget := n } (derive c { task with budget := n } k) t.subject t.object) :=
      unite_extends (fun t => ih (by omega) t) _ _
    refine .ite (.bind (refl _) fun _ => .bind (refl _) fun _ => ?_) (.bind (refl _) fun _ => ?_)
    all_goals exact .ite hunite (refl _)

section bound

variable (h : task.budget ≤ n)

include h

theorem deriveFact_extends (t : Triple) :
    (task.deriveFact c t).Extends (deriveFact c { task with budget := n } t) :=
  derive_extends h t

theorem replay_extends : (task.replay c).Extends (replay c { task with budget := n }) := by
  refine .bind (.drain h (fun row _ => ?_) ()) fun _ => .ite (.drain h (fun row _ => ?_) ()) (refl _)
  all_goals refine .bind (refl _) fun _ => .ite (.bind (refl _) fun t => ?_) (refl _)
  · exact .applyToPositive (fun _ => deriveFact_extends h) _ _ _ _
  · exact .applyToNegation (fun _ => deriveFact_extends h) _ _ _

theorem propagate_extends (row : RowIndex) (t : Triple) :
    (task.propagate c row t).Extends (propagate c { task with budget := n } row t) := by
  refine .ite (.bind (.forM fun id => .bind (refl _) fun _ => .ite (deriveFact_extends h _) (refl _))
    fun _ => ?_) ?_
  all_goals exact .ite (.applyToPositive (fun _ => deriveFact_extends h) _ _ _ _) (refl _)

theorem consider_extends (row : RowIndex) (count : Nat) :
    (task.consider c row count).Extends (consider c { task with budget := n } row count) := by
  refine .bind (refl _) fun known => ?_
  cases known with
  | none => exact refl _
  | some p =>
    refine .bind (refl _) fun _ => .ite (refl _) (.bind (refl _) fun normal => .ite ?_ ?_)
    · exact .bind (refl _) fun _ => .bind (deriveFact_extends h _) fun _ => refl _
    · refine .bind (refl _) fun isNew => .ite (.bind (refl _) fun _ => ?_) ?_
      all_goals
        refine .ite (.bind (unite_extends (deriveFact_extends h) _ _) fun _ => refl _) ?_
        exact .bind (propagate_extends h _ _) fun _ => refl _

theorem addAll_extends : (task.addAll c).Extends (addAll c { task with budget := n }) := by
  refine .bind (refl _) fun _ => .ite (.bind (replay_extends h) fun _ => ?_) ?_
  all_goals
    exact .bind (refl _) fun _ => .bind (.drain h (fun row => consider_extends h row) 0) fun _ =>
      .bind (refl _) fun _ => refl _

end bound

end InsertionTask

/-! ## Searching for proofs -/

namespace Search

open Routine.Extends (refl)

variable {task : DeletionTask} {n : Nat} {row : RowIndex} {t : Triple}

theorem begin_extends (h : task.budget ≤ n) :
    (begin c task row t).Extends (begin c { task with budget := n } row t) := by
  refine .bind (refl _) fun _ => .bind (refl _) fun _ =>
    .bind (.bind (refl _) fun _ => .bind (refl _) fun _ => ?_)
    fun _ => refl _
  exact .ite (refl _) (.bind (.drain h (fun _ _ => refl _) ()) fun _ => refl _)

theorem explore_budget (n : Nat) (e : Examination) :
    explore c { task with budget := n } e = explore c task e := by
  fun_induction explore c task e with
  | case1 row t proved lead leads heads sources ih => rw [explore]; simp only [ih]
  | case2 row t proved head heads sources ih => rw [explore]; simp only [ih]
  | case3 row t proved source sources ih => rw [explore]; simp only [← ih]; rfl
  | case4 row t proved => rw [explore]

theorem conclude_extends (h : task.budget ≤ n) {fuel fuel' : Nat} (hle : fuel ≤ fuel') (proved : Bool) :
    (conclude c task fuel proved).Extends (conclude c { task with budget := n } fuel' proved) := by
  induction fuel generalizing fuel' proved with
  | zero => exact .throw _
  | succ fuel ih =>
    obtain ⟨k, rfl⟩ : ∃ k, fuel' = k + 1 := ⟨fuel' - 1, by omega⟩
    refine .bind (refl _) fun examinations => ?_
    cases examinations with
    | nil => exact refl _
    | cons e outer =>
      have hexplore : (explore c task e).Extends (explore c { task with budget := n } e) := by
        rw [explore_budget n]
        exact refl _
      refine .ite (.bind (refl _) fun turn => ?_) (.bind hexplore fun turn => ?_)
      all_goals
        cases turn with
        | descend row t => exact .bind (begin_extends h) fun _ => ih (by omega) proved
        | close proved =>
          exact .bind (refl _) fun _ =>
            .bind (refl _) fun _ => .bind (refl _) fun _ => ih (by omega) proved

theorem check_extends (h : task.budget ≤ n) :
    (check c task row t).Extends (check c { task with budget := n } row t) := by
  have hconclude : ∀ known, Routine.Extends (do
        let waiting ← Routine.reads fun r => r.examinations.length
        let proved ← conclude c task (2 * task.budget + waiting + 1) known
        markDisproved c
        pure proved) (do
        let waiting ← Routine.reads fun r => r.examinations.length
        let proved ← conclude c { task with budget := n } (2 * n + waiting + 1) known
        markDisproved c
        pure proved) := fun known =>
    .bind (refl _) fun waiting => .bind (conclude_extends h (by omega) known) fun _ => refl _
  refine .bind (refl _) fun _ => .bind (refl _) fun taken => .ite ?_ (.bind (refl _) fun _ => ?_)
  · exact .bind (begin_extends h) fun _ => .bind (refl _) hconclude
  · exact .bind (refl _) fun interrupted => .ite (.bind (refl _) hconclude) (.bind (refl _) hconclude)

end Search

end Entail
