import Entail.Proofs.Program

/-!
# What holds when a program ends

`WLP x s Q`: if the computation `x` ends without a failure from the state `s`, its result and its state
satisfy `Q`. Unlike `WP` this does not say that it does end so, and it asks for nothing that would
make it end. `Ends x s Q E` says in addition that `E` holds of the failure and the state if `x` fails.
`Preserves P x`: a property of states that holds before `x` holds after it; `Within P E x`: the same, and
`x` fails only as `E` has it. The rules below follow the shape of a computation.
-/

namespace Entail

variable {ε σ α β : Type}

/-- If `x` ends without a failure from `s`, its result and its state satisfy `Q`. -/
def WLP (x : EStateM ε σ α) (s : σ) (Q : α → σ → Prop) : Prop :=
  ∀ a s', x s = .ok a s' → Q a s'

namespace WLP

variable {x : EStateM ε σ α} {s : σ} {Q R : α → σ → Prop}

theorem mono (h : WLP x s Q) (hQ : ∀ a s', Q a s' → R a s') : WLP x s R :=
  fun a s' hx => hQ a s' (h a s' hx)

theorem and (h : WLP x s Q) (h' : WLP x s R) : WLP x s fun a s' => Q a s' ∧ R a s' :=
  fun a s' hx => ⟨h a s' hx, h' a s' hx⟩

@[simp] theorem pure_iff {a : α} : WLP (pure a : EStateM ε σ α) s Q ↔ Q a s :=
  ⟨fun h => h a s rfl, fun h _ _ hx => by cases hx; exact h⟩

theorem throw (e : ε) : WLP (throw e : EStateM ε σ α) s Q := fun _ _ hx => by cases hx

@[simp] theorem bind_iff {f : α → EStateM ε σ β} {Q : β → σ → Prop} :
    WLP (x >>= f) s Q ↔ WLP x s fun a s' => WLP (f a) s' Q := by
  constructor
  · exact fun h a s' hx b t hf => h b t (bind_eq_ok.mpr ⟨a, s', hx, hf⟩)
  · intro h b t hb
    obtain ⟨a, s', hx, hf⟩ := bind_eq_ok.mp hb
    exact h a s' hx b t hf

@[simp] theorem discard_iff {Q : PUnit → σ → Prop} :
    WLP (discard x) s Q ↔ WLP x s fun _ s' => Q .unit s' := by
  rw [show discard x = x >>= fun _ => pure .unit from map_eq_pure_bind _ x, bind_iff]
  simp only [pure_iff]

@[simp] theorem get_iff {Q : σ → σ → Prop} : WLP (get : EStateM ε σ σ) s Q ↔ Q s s :=
  ⟨fun h => h s s rfl, fun h _ _ hx => by cases hx; exact h⟩

@[simp] theorem modify_iff {f : σ → σ} {Q : PUnit → σ → Prop} :
    WLP (modify f : EStateM ε σ PUnit) s Q ↔ Q .unit (f s) :=
  ⟨fun h => h _ _ rfl, fun h _ _ hx => by cases hx; exact h⟩

@[simp] theorem modifyGet_iff {f : σ → α × σ} :
    WLP (modifyGet f : EStateM ε σ α) s Q ↔ Q (f s).1 (f s).2 :=
  ⟨fun h => h _ _ rfl, fun h _ _ hx => by cases hx; exact h⟩

/-- Nothing is to be shown of a branch that is not taken. -/
theorem ite {p : Prop} [Decidable p] {y : EStateM ε σ α} (hx : p → WLP x s Q) (hy : ¬ p → WLP y s Q) :
    WLP (if p then x else y) s Q := by
  split
  · exact hx ‹_›
  · exact hy ‹_›

/-- A loop over a list that carries a value: `Inv` knows what was gone through. -/
theorem foldlM {l : List α} {f : β → α → EStateM ε σ β} (Inv : List α → β → σ → Prop)
    (h : ∀ front a b s, Inv front b s → WLP (f b a) s (Inv (front ++ [a]))) {b : β} {s : σ} (hs : Inv [] b s) :
    WLP (l.foldlM f b) s (Inv l) := by
  suffices hall : ∀ front, Inv front b s → WLP (l.foldlM f b) s (Inv (front ++ l)) from hall [] hs
  clear hs
  induction l generalizing b s with
  | nil =>
    intro front hs
    rw [List.append_nil]
    exact pure_iff.mpr hs
  | cons a l ih =>
    intro front hs
    rw [List.foldlM_cons, bind_iff, List.append_cons]
    exact (h front a b s hs).mono fun b' s' hs' => ih _ hs'

end WLP

theorem WP.wlp {x : EStateM ε σ α} {s : σ} {Q : α → σ → Prop} (h : WP x s Q) : WLP x s Q :=
  fun _ _ hx => h.result hx

theorem WP.and_wlp {x : EStateM ε σ α} {s : σ} {Q R : α → σ → Prop} (h : WP x s Q) (h' : WLP x s R) :
    WP x s fun a s' => Q a s' ∧ R a s' := by
  obtain ⟨a, s', hx, hq⟩ := h
  exact ⟨a, s', hx, hq, h' a s' hx⟩

/-! ## Failures -/

/-- A failure that leaves the store unusable, unlike an error by which a request is refused. -/
def Failure.Fatal : Failure → Prop
  | .error e => e.code.fatal = true
  | .misuse => True
  | .exhausted => True

/-- A failure that leaves the store unusable and is not for want of steps. -/
def Failure.Broken : Failure → Prop
  | .error e => e.code.fatal = true
  | .misuse => True
  | .exhausted => False

theorem Failure.Broken.fatal {f : Failure} (h : f.Broken) : f.Fatal := by
  cases f with
  | error e => exact h
  | misuse => trivial
  | exhausted => trivial

/-- However `x` ends from `s`: its result and its state satisfy `Q`, or its failure and its state `E`. -/
def Ends (x : EStateM ε σ α) (s : σ) (Q : α → σ → Prop) (E : ε → σ → Prop) : Prop :=
  match x s with
  | .ok a s' => Q a s'
  | .error e s' => E e s'

namespace Ends

variable {x : EStateM ε σ α} {s s' : σ} {Q R : α → σ → Prop} {E F : ε → σ → Prop}

theorem result {a : α} (h : Ends x s Q E) (hx : x s = .ok a s') : Q a s' := by
  rwa [Ends, hx] at h

theorem failure {e : ε} (h : Ends x s Q E) (hx : x s = .error e s') : E e s' := by
  rwa [Ends, hx] at h

theorem wlp (h : Ends x s Q E) : WLP x s Q := fun _ _ => h.result

theorem mono (h : Ends x s Q E) (hQ : ∀ a s', Q a s' → R a s') (hE : ∀ e s', E e s' → F e s') :
    Ends x s R F := by
  rw [Ends] at h ⊢
  split at h
  · exact hQ _ _ h
  · exact hE _ _ h

@[simp] theorem pure_iff {a : α} : Ends (pure a : EStateM ε σ α) s Q E ↔ Q a s := Iff.rfl

@[simp] theorem throw_iff {e : ε} : Ends (throw e : EStateM ε σ α) s Q E ↔ E e s := Iff.rfl

@[simp] theorem bind_iff {f : α → EStateM ε σ β} {Q : β → σ → Prop} :
    Ends (x >>= f) s Q E ↔ Ends x s (fun a s' => Ends (f a) s' Q E) E := by
  simp only [Ends, bind, EStateM.bind]
  cases x s <;> rfl

theorem ite {p : Prop} [Decidable p] {y : EStateM ε σ α} (hx : p → Ends x s Q E) (hy : ¬ p → Ends y s Q E) :
    Ends (if p then x else y) s Q E := by
  split
  · exact hx ‹_›
  · exact hy ‹_›

@[simp] theorem discard_iff {Q : PUnit → σ → Prop} :
    Ends (discard x) s Q E ↔ Ends x s (fun _ s' => Q .unit s') E := by
  rw [show discard x = x >>= fun _ => pure .unit from map_eq_pure_bind _ x, bind_iff]
  simp only [pure_iff]

/-- A computation whose result is not used fails as it does. -/
theorem failure_of_discard {e : ε} (h : Ends x s Q E) (hx : discard x s = .error e s') : E e s' :=
  have hd : Ends (discard x) s (fun _ _ => True) E :=
    discard_iff.mpr (h.mono (fun _ _ _ => trivial) fun _ _ => id)
  hd.failure hx

/-- What is said for each of several reasons holds together. -/
theorem forall_of {ι : Type} {Q : ι → α → σ → Prop} {E : ι → ε → σ → Prop}
    (h : ∀ i, Ends x s (Q i) (E i)) : Ends x s (fun a s' => ∀ i, Q i a s') fun e s' => ∀ i, E i e s' := by
  simp only [Ends] at h ⊢
  split
  · exact fun i => by simpa only [*] using h i
  · exact fun i => by simpa only [*] using h i

@[simp] theorem get_iff {Q : σ → σ → Prop} : Ends (get : EStateM ε σ σ) s Q E ↔ Q s s := Iff.rfl

@[simp] theorem modify_iff {f : σ → σ} {Q : PUnit → σ → Prop} :
    Ends (modify f : EStateM ε σ PUnit) s Q E ↔ Q .unit (f s) := Iff.rfl

@[simp] theorem modifyGet_iff {f : σ → α × σ} :
    Ends (modifyGet f : EStateM ε σ α) s Q E ↔ Q (f s).1 (f s).2 := Iff.rfl

end Ends

/-- From a state with `P`, `x` ends in a state with `P`, or fails as `E` has it. -/
def Within (P : σ → Prop) (E : ε → σ → Prop) (x : EStateM ε σ α) : Prop :=
  ∀ s, P s → Ends x s (fun _ => P) E

namespace Within

variable {P : σ → Prop} {E : ε → σ → Prop} {x : EStateM ε σ α}

theorem pure (a : α) : Within P E (pure a : EStateM ε σ α) := fun _ h => h

theorem throw {e : ε} (h : ∀ s, P s → E e s) : Within P E (throw e : EStateM ε σ α) := h

theorem modify {f : σ → σ} (h : ∀ s, P s → P (f s)) :
    Within P E (modify f : EStateM ε σ PUnit) := h

theorem bind {f : α → EStateM ε σ β} (hx : Within P E x) (hf : ∀ a, Within P E (f a)) :
    Within P E (x >>= f) :=
  fun s h => Ends.bind_iff.mpr ((hx s h).mono (fun a s' h' => hf a s' h') fun _ _ => id)

/-- What is known of the result of `x` may be used of what follows. -/
theorem bind_of {A : α → Prop} {f : α → EStateM ε σ β} (hx : ∀ s, P s → Ends x s (fun a s' => P s' ∧ A a) E)
    (hf : ∀ a, A a → Within P E (f a)) : Within P E (x >>= f) :=
  fun s h => Ends.bind_iff.mpr ((hx s h).mono (fun a s' h' => hf a h'.2 s' h'.1) fun _ _ => id)

theorem discard (hx : Within P E x) : Within P E (discard x) :=
  fun s h => Ends.discard_iff.mpr (hx s h)

theorem ite {p : Prop} [Decidable p] {y : EStateM ε σ α} (hx : p → Within P E x)
    (hy : ¬ p → Within P E y) : Within P E (if p then x else y) := by
  split
  · exact hx ‹_›
  · exact hy ‹_›

theorem foldlM {l : List α} {f : β → α → EStateM ε σ β} (h : ∀ a ∈ l, ∀ b, Within P E (f b a))
    (b : β) : Within P E (l.foldlM f b) := by
  induction l generalizing b with
  | nil => exact pure b
  | cons a l ih =>
    rw [List.foldlM_cons]
    exact bind (h a List.mem_cons_self b) fun b' => ih (fun c hc => h c (List.mem_cons_of_mem _ hc)) b'

theorem forM {l : List α} {f : α → EStateM ε σ PUnit} (h : ∀ a ∈ l, Within P E (f a)) :
    Within P E (l.forM f) := by
  rw [WP.forM_eq_foldlM]
  exact foldlM (fun a ha _ => h a ha) _

theorem mapM {l : List α} {f : α → EStateM ε σ β} (h : ∀ a ∈ l, Within P E (f a)) :
    Within P E (l.mapM f) := by
  induction l with
  | nil => exact pure []
  | cons a l ih =>
    rw [List.mapM_cons]
    exact bind (h a List.mem_cons_self) fun _ =>
      bind (ih fun b hb => h b (List.mem_cons_of_mem _ hb)) fun _ => pure _

theorem anyM {l : List α} {f : α → EStateM ε σ Bool} (h : ∀ a ∈ l, Within P E (f a)) :
    Within P E (l.anyM f) := by
  induction l with
  | nil => exact pure false
  | cons a l ih =>
    refine bind (h a List.mem_cons_self) fun found => ?_
    cases found with
    | true => exact pure true
    | false => exact ih fun b hb => h b (List.mem_cons_of_mem _ hb)

/-- What only reads the state stays within every property. -/
theorem evalReads {E : Failure → σ → Prop} {f : σ → Except Failure α}
    (h : ∀ s e, P s → f s = .error e → E e s) : Within P E (Eval.reads f) := by
  intro s hs
  simp only [Ends, Eval.reads]
  split <;> rename_i heq <;> split at heq <;> cases heq
  · exact hs
  · exact h s _ hs ‹_›

end Within

/-- A search through a list: `P` holds of every state, and `A` of what is found. -/
theorem Ends.foldUntil {P : σ → Prop} {A : β → Prop} {E : Failure → σ → Prop} {l : List α}
    {f : α → β → Eval σ (ForInStep β)}
    (h : ∀ a ∈ l, ∀ b s, P s → A b → Ends (f a b) s (fun step s' => P s' ∧ A step.value) E) {b : β} {s : σ}
    (hs : P s) (hb : A b) : Ends (Eval.foldUntil f l b) s (fun step s' => P s' ∧ A step.value) E := by
  induction l generalizing b s with
  | nil => exact ⟨hs, hb⟩
  | cons a l ih =>
    refine Ends.bind_iff.mpr ((h a List.mem_cons_self b s hs hb).mono (fun step s' hstep => ?_) fun _ _ => id)
    cases step with
    | done b => exact hstep
    | yield b => exact ih (fun c hc => h c (List.mem_cons_of_mem _ hc)) hstep.1 hstep.2

theorem Within.foldUntil {P : σ → Prop} {E : Failure → σ → Prop} {l : List α}
    {f : α → β → Eval σ (ForInStep β)} (h : ∀ a ∈ l, ∀ b, Within P E (f a b)) (b : β) :
    Within P E (Eval.foldUntil f l b) := fun _ hs =>
  (Ends.foldUntil (A := fun _ => True) (fun a ha b s hs _ => (h a ha b s hs).mono
    (fun _ _ hs' => ⟨hs', trivial⟩) fun _ _ => id) hs trivial).mono (fun _ _ h => h.1) fun _ _ => id

/-! ## Invariants -/

/-- A property of states that holds before `x` holds after it. -/
def Preserves (P : σ → Prop) (x : EStateM ε σ α) : Prop := ∀ s, P s → WLP x s fun _ => P

theorem Within.preserves {P : σ → Prop} {E : ε → σ → Prop} {x : EStateM ε σ α} (h : Within P E x) :
    Preserves P x := fun s hs => (h s hs).wlp

/-- Nothing is said of failures. -/
theorem Preserves.within {P : σ → Prop} {x : EStateM ε σ α} (h : Preserves P x) :
    Within P (fun _ _ => True) x := by
  intro s hs
  rw [Ends]
  split
  · exact h s hs _ _ ‹_›
  · trivial

namespace Preserves

variable {P : σ → Prop} {x : EStateM ε σ α}

theorem pure (a : α) : Preserves P (pure a : EStateM ε σ α) :=
  (Within.pure a (E := fun _ _ => True)).preserves

theorem bind {f : α → EStateM ε σ β} (hx : Preserves P x) (hf : ∀ a, Preserves P (f a)) :
    Preserves P (x >>= f) :=
  (hx.within.bind fun a => (hf a).within).preserves

theorem discard (hx : Preserves P x) : Preserves P (discard x) := hx.within.discard.preserves

theorem ite {p : Prop} [Decidable p] {y : EStateM ε σ α} (hx : p → Preserves P x)
    (hy : ¬ p → Preserves P y) : Preserves P (if p then x else y) :=
  (Within.ite (fun hp => (hx hp).within) fun hp => (hy hp).within).preserves

theorem foldlM {l : List α} {f : β → α → EStateM ε σ β} (h : ∀ a ∈ l, ∀ b, Preserves P (f b a))
    (b : β) : Preserves P (l.foldlM f b) :=
  (Within.foldlM (fun a ha b => (h a ha b).within) b).preserves

theorem forM {l : List α} {f : α → EStateM ε σ PUnit} (h : ∀ a ∈ l, Preserves P (f a)) :
    Preserves P (l.forM f) :=
  (Within.forM fun a ha => (h a ha).within).preserves

/-- Two loops whose steps do the same where `P` holds do the same, if the steps preserve `P`. -/
theorem forM_congr {l : List α} {f g : α → EStateM ε σ PUnit} (h : ∀ a ∈ l, ∀ s, P s → f a s = g a s)
    (hg : ∀ a ∈ l, Preserves P (g a)) {s : σ} (hs : P s) : l.forM f s = l.forM g s := by
  induction l generalizing s with
  | nil => rfl
  | cons a l ih =>
    change (f a >>= fun _ => l.forM f) s = (g a >>= fun _ => l.forM g) s
    simp only [Bind.bind, EStateM.bind, h a List.mem_cons_self s hs]
    cases hx : g a s with
    | error e s' => rfl
    | ok r s' =>
      exact ih (fun b hb => h b (List.mem_cons_of_mem _ hb))
        (fun b hb => hg b (List.mem_cons_of_mem _ hb)) (hg a List.mem_cons_self s hs r s' hx)

end Preserves

end Entail
