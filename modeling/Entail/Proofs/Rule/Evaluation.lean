import Entail.Proofs.Program
import Entail.Proofs.Rule.Bindings

/-!
# The matches of a body

What an evaluation reads of a state is a `Snapshot`: the classes, and for each literal the rows that
count as present. While what is done with the matches keeps the snapshot, an evaluation goes through
a list that depends on the snapshot alone (`View.run_eq`). If negated literals come last (`Grounded`),
the list has a match for every assignment that turns the positive literals into rows and leaves the
negated ones without a match, whatever their own variables stand for (`Snapshot.exists_solution`), and
none else (`Snapshot.Solves.of_mem`).
-/

namespace Entail

namespace Eval

variable {σ α β γ : Type}

theorem foldUntil_append (f : α → β → Eval σ (ForInStep β)) (l l' : List α) (b : β) :
    foldUntil f (l ++ l') b = (do
      match ← foldUntil f l b with
      | .done b => pure (.done b)
      | .yield b => foldUntil f l' b) := by
  induction l generalizing b with
  | nil => rw [List.nil_append, foldUntil, pure_bind]
  | cons a l ih =>
    rw [List.cons_append, foldUntil, foldUntil, bind_assoc]
    refine bind_congr fun r => ?_
    cases r with
    | done b => rw [pure_bind]
    | yield b => exact ih b

theorem foldUntil_map (f : γ → β → Eval σ (ForInStep β)) (g : α → γ) (l : List α) (b : β) :
    foldUntil f (l.map g) b = foldUntil (fun a => f (g a)) l b := by
  induction l generalizing b with
  | nil => rfl
  | cons a l ih =>
    rw [List.map_cons, foldUntil, foldUntil]
    refine bind_congr fun r => ?_
    cases r with
    | done b => rfl
    | yield b => exact ih b

/-- A loop whose steps are loops is one loop over all their elements, as long as `Inv` is kept. -/
theorem foldUntil_flatMap {Inv : σ → Prop} {F : α → β → Eval σ (ForInStep β)} {g : α → List γ}
    {f : γ → β → Eval σ (ForInStep β)} {l : List α}
    (hf : ∀ c ∈ l.flatMap g, ∀ b s r s', Inv s → f c b s = .ok r s' → Inv s')
    (hF : ∀ a ∈ l, ∀ b s, Inv s → F a b s = foldUntil f (g a) b s) (b : β) {s : σ} (hs : Inv s) :
    foldUntil F l b s = foldUntil f (l.flatMap g) b s := by
  have hkeep : ∀ (l : List γ), (∀ c ∈ l, ∀ b s r s', Inv s → f c b s = .ok r s' → Inv s') →
      ∀ (b : β) s r s', Inv s → foldUntil f l b s = .ok r s' → Inv s' := by
    intro l
    induction l with
    | nil =>
      intro _ b s r s' hs h
      cases h
      exact hs
    | cons c l ih =>
      intro hf b s r s' hs h
      obtain ⟨r₁, s₁, h₁, h⟩ := bind_eq_ok.mp h
      have hs₁ := hf c List.mem_cons_self b s r₁ s₁ hs h₁
      cases r₁ with
      | done b =>
        cases h
        exact hs₁
      | yield b => exact ih (fun c hc => hf c (List.mem_cons_of_mem _ hc)) b s₁ r s' hs₁ h
  induction l generalizing b s with
  | nil => rfl
  | cons a l ih =>
    rw [List.flatMap_cons] at hf
    rw [List.flatMap_cons, foldUntil_append, foldUntil]
    simp only [bind, EStateM.bind]
    rw [hF a List.mem_cons_self b s hs]
    cases h : foldUntil f (g a) b s with
    | error e s' => rfl
    | ok r s' =>
      cases r with
      | done b => rfl
      | yield b =>
        exact ih (fun c hc => hf c (List.mem_append_right _ hc))
          (fun a ha => hF a (List.mem_cons_of_mem _ ha)) b
          (hkeep _ (fun c hc => hf c (List.mem_append_left _ hc)) _ _ _ _ hs h)

/-- A loop that never stops early is a loop over the whole list. -/
theorem foldUntil_yield (f : α → Eval σ Unit) (l : List α) :
    foldUntil (fun a (_ : Unit) => do f a; pure (.yield ())) l () =
      (do l.forM f; pure (.yield ())) := by
  induction l with
  | nil => rfl
  | cons a l ih =>
    rw [foldUntil, bind_assoc]
    simp only [pure_bind, ih]
    exact (bind_assoc (f a) _ _).symm

/-- A loop that only computes a value. -/
theorem foldUntil_ok {f : α → β → Eval σ (ForInStep β)} {g : α → β → β} {s : σ} {l : List α}
    (h : ∀ a ∈ l, ∀ b, f a b s = .ok (.yield (g a b)) s) (b : β) :
    foldUntil f l b s = .ok (.yield (l.foldl (fun b a => g a b) b)) s := by
  induction l generalizing b with
  | nil => rfl
  | cons a l ih =>
    exact bind_eq_ok.mpr ⟨_, _, h a List.mem_cons_self b,
      ih (fun c hc => h c (List.mem_cons_of_mem _ hc)) (g a b)⟩

end Eval

/-- What an evaluation reads of a state: the classes, and the rows that count as present. -/
structure Snapshot where
  classes : Option Classes
  rows : Role → Occurrence → List (RowIndex × Triple)

namespace Snapshot

variable (n : Snapshot)

/-- Whether atoms have a joint match. -/
def joint (role : Role) (o : Occurrence) : List Atom → Bindings → Bool
  | [], _ => true
  | a :: rest, b =>
    (n.rows role o).any fun (_, t) =>
      match b.bound? n.classes a t with
      | some b => joint role o rest b
      | none => false

/-- The matches of `steps`, in order: bindings and the facts of the positive literals. -/
def solutions (occurrence : Nat → Occurrence) :
    List Step → Bindings → List Match → List (Bindings × List Match)
  | [], b, matched => [(b, matched)]
  | .find a literal role :: rest, b, matched =>
    (n.rows role (occurrence literal)).flatMap fun (row, t) =>
      match b.bound? n.classes a t with
      | some b => solutions occurrence rest b (matched ++ [⟨literal, row, t⟩])
      | none => []
  | .absent atoms literal role :: rest, b, matched =>
    if n.joint role (occurrence literal) atoms b then []
    else solutions occurrence rest b matched

end Snapshot

/-- The atoms of a step. -/
def Step.atoms : Step → List Atom
  | .find a _ _ => [a]
  | .absent atoms _ _ => atoms

namespace Bindings

variable {b b' : Bindings}

theorem Scopes.of_size {a : Atom} (h : b.Scopes a) (hs : b'.size = b.size) : b'.Scopes a :=
  fun v hv => hs ▸ h v hv

/-- What binds an atom to a fact is found among the facts that the pattern of the atom accepts. -/
theorem accepts_of_bound? {classes : Option Classes} {a : Atom} {t : Triple} (ha : b.Scopes a)
    (h : b.bound? classes a t = some b') : (b.patternOf classes a).accepts t = true := by
  obtain ⟨σ, hσ⟩ := b'.exists_agrees
  have hσ := ((fits_of_bound? ha h).agrees σ).mp hσ
  exact accepts_patternOf hσ.1 hσ.2

end Bindings

namespace View

variable {σ β : Type} {view : View σ} {n : Snapshot} {s : σ} {b : Bindings}

theorem flatMap_filter_of_nil {α γ : Type} {p : α → Bool} {g : α → List γ}
    (h : ∀ a, p a ≠ true → g a = []) (l : List α) : (l.filter p).flatMap g = l.flatMap g := by
  induction l with
  | nil => rfl
  | cons a l ih =>
    rw [List.filter_cons, List.flatMap_cons]
    split
    · rw [List.flatMap_cons, ih]
    · rename_i ha
      rw [h a ha, ih, List.nil_append]

/-- What evaluations read of a state. -/
def snapshot (view : View σ) (s : σ) : Snapshot where
  classes := view.classes s
  rows role o := (view.table s).toList.filter fun (row, _) =>
    view.accepts s role o row ((view.table s).status row)

theorem bind_eq (hs : view.snapshot s = n) {a : Atom} (ha : b.Scopes a) (t : Triple) :
    view.bind b a t s = .ok (b.bound? n.classes a t) s := by
  have h := (Bindings.bind_spec n.classes ha t).1
  rw [← hs] at h ⊢
  simp only [snapshot] at h ⊢
  simp only [bind, Eval.reads, h]

theorem candidates_eq (ho : view.observe = none) (hs : view.snapshot s = n) {a : Atom}
    (ha : b.Scopes a) (role : Role) (o : Occurrence) :
    view.candidates a role o b s =
      .ok ((n.rows role o).filter fun (_, t) => (b.patternOf n.classes a).accepts t) s := by
  subst hs
  simp only [candidates, snapshot, Bindings.pattern_eq ha, ho, Table.matching_eq]
  congr 1
  rw [List.filter_map, List.map_map, List.filter_filter, List.filter_filter]
  simp only [Function.comp_def, Bool.and_comm]
  exact List.map_id'' (fun _ => rfl) _

theorem joint_eq (ho : view.observe = none) (hs : view.snapshot s = n) (role : Role)
    (o : Occurrence) (atoms : List Atom) (b : Bindings) (ha : ∀ a ∈ atoms, b.Scopes a) :
    view.joint role o atoms b s = .ok (n.joint role o atoms b) s := by
  induction atoms generalizing b with
  | nil => rfl
  | cons a rest ih =>
    have haa := ha a List.mem_cons_self
    simp only [joint, Snapshot.joint, Bind.bind, EStateM.bind, candidates_eq ho hs haa]
    generalize n.rows role o = rows
    induction rows with
    | nil => rfl
    | cons p rows ih' =>
      obtain ⟨row, t⟩ := p
      rw [List.filter_cons, List.any_cons]
      split
      · simp only [List.anyM, Bind.bind, EStateM.bind, bind_eq hs haa]
        cases hb : b.bound? n.classes a t with
        | none => simpa [pure, EStateM.pure] using ih'
        | some b' =>
          have hf := Bindings.fits_of_bound? haa hb
          have hr := ih b' fun c hc => (ha c (List.mem_cons_of_mem _ hc)).of_size hf.size
          simp only [hr]
          cases n.joint role o rest b' with
          | true => rfl
          | false => simpa using ih'
      · rename_i hp
        cases hb : b.bound? n.classes a t with
        | none => simpa using ih'
        | some b' => exact absurd (Bindings.accepts_of_bound? haa hb) hp

/-- An evaluation goes through the matches that the snapshot has, if what is done with them keeps
the snapshot. -/
theorem run_eq (Inv : σ → Prop) (ho : view.observe = none)
    (hInv : ∀ s, Inv s → view.snapshot s = n) (occurrence : Nat → Occurrence)
    {f : Bindings → List Match → β → Eval σ (ForInStep β)} (steps : List Step) (b : Bindings)
    (matched : List Match) (acc : β)
    (hf : ∀ p ∈ n.solutions occurrence steps b matched, ∀ acc s r s', Inv s →
      f p.1 p.2 acc s = .ok r s' → Inv s')
    (ha : ∀ step ∈ steps, ∀ a ∈ step.atoms, b.Scopes a) (hs : Inv s) :
    view.run occurrence f steps b matched acc s =
      Eval.foldUntil (fun p acc => f p.1 p.2 acc) (n.solutions occurrence steps b matched) acc s := by
  induction steps generalizing b matched acc s with
  | nil =>
    simp only [run, Snapshot.solutions, Eval.foldUntil, Bind.bind, EStateM.bind]
    cases f b matched acc s with
    | error e s' => rfl
    | ok r s' => cases r <;> rfl
  | cons step rest ih =>
    have hrest : ∀ b' : Bindings, b'.size = b.size →
        ∀ step ∈ rest, ∀ a ∈ step.atoms, b'.Scopes a := fun b' hb step hstep a h =>
      (ha step (List.mem_cons_of_mem _ hstep) a h).of_size hb
    cases step with
    | find a literal role =>
      have haa := ha _ List.mem_cons_self a (List.mem_singleton.mpr rfl)
      -- the pattern only leaves out rows without matches
      have hfilter : ((n.rows role (occurrence literal)).filter fun (_, t) =>
          (b.patternOf n.classes a).accepts t).flatMap (fun (row, t) =>
            match b.bound? n.classes a t with
            | some b => n.solutions occurrence rest b (matched ++ [⟨literal, row, t⟩])
            | none => []) =
          n.solutions occurrence (.find a literal role :: rest) b matched := by
        refine flatMap_filter_of_nil (fun ⟨row, t⟩ hp => ?_) _
        dsimp only
        cases hb : b.bound? n.classes a t with
        | none => rfl
        | some b' => exact absurd (Bindings.accepts_of_bound? haa hb) hp
      rw [← hfilter] at hf ⊢
      simp only [run, Bind.bind, EStateM.bind, candidates_eq ho (hInv s hs) haa]
      refine Eval.foldUntil_flatMap (fun c hc acc s r s' => hf c hc acc s r s') ?_ acc hs
      intro p hp acc s hs
      simp only [EStateM.bind, bind_eq (hInv s hs) haa]
      cases hb : b.bound? n.classes a p.2 with
      | none => rfl
      | some b' =>
        refine ih b' _ acc (fun q hq => hf q (List.mem_flatMap.mpr ⟨p, hp, ?_⟩))
          (hrest b' (Bindings.fits_of_bound? haa hb).size) hs
        simpa only [hb] using hq
    | absent atoms literal role =>
      have hj := joint_eq ho (hInv s hs) role (occurrence literal) atoms b
        (ha _ List.mem_cons_self)
      simp only [run, Snapshot.solutions, Bind.bind, EStateM.bind, hj] at hf ⊢
      cases hn : n.joint role (occurrence literal) atoms b with
      | true => rfl
      | false =>
        rw [hn] at hf
        exact ih b matched acc hf (hrest b rfl) hs

end View

/-! ## Matches and assignments -/

/-- Whether a step looks for a row. -/
def Step.isFind : Step → Bool
  | .find .. => true
  | .absent .. => false

/-- A variable gets a value when the rows of some steps are found. -/
def BoundBy (steps : List Step) (v : Nat) : Prop :=
  ∃ a literal role, .find a literal role ∈ steps ∧ v ∈ a.vars

/-- What must be absent comes last, and `B` are the variables that have a value by then. -/
structure Grounded (steps : List Step) (b : Bindings) (B : Nat → Prop) : Prop where
  ordered : steps.Pairwise fun s s' => s.isFind = false → s'.isFind = false
  bound_iff (v : Nat) : B v ↔ b.Binds v ∨ BoundBy steps v

namespace Grounded

variable {steps : List Step} {b b' : Bindings} {B : Nat → Prop} {literal : Nat} {role : Role}

theorem of_find {a : Atom} (h : Grounded (.find a literal role :: steps) b B)
    (hb : ∀ v, b'.Binds v ↔ b.Binds v ∨ v ∈ a.vars) : Grounded steps b' B := by
  refine ⟨(List.pairwise_cons.mp h.ordered).2, fun v => ?_⟩
  rw [h.bound_iff, hb, or_assoc]
  refine or_congr_right ⟨?_, ?_⟩
  · rintro ⟨c, l, r, hmem, hv⟩
    rcases List.mem_cons.mp hmem with hmem | hmem
    · cases hmem
      exact .inl hv
    · exact .inr ⟨c, l, r, hmem, hv⟩
  · rintro (hv | ⟨c, l, r, hmem, hv⟩)
    · exact ⟨a, literal, role, List.mem_cons_self, hv⟩
    · exact ⟨c, l, r, List.mem_cons_of_mem _ hmem, hv⟩

theorem of_absent {atoms : List Atom} (h : Grounded (.absent atoms literal role :: steps) b B) :
    (∀ v, B v ↔ b.Binds v) ∧ Grounded steps b B := by
  obtain ⟨hlast, hrest⟩ := List.pairwise_cons.mp h.ordered
  -- nothing is looked for any more
  have hnone : ∀ v, ¬ BoundBy steps v := fun v ⟨a, l, r, hmem, _⟩ => by cases hlast _ hmem rfl
  have hB : ∀ v, B v ↔ b.Binds v := fun v => by
    rw [h.bound_iff]
    refine or_iff_left ?_
    rintro ⟨a, l, r, hmem, hv⟩
    rcases List.mem_cons.mp hmem with hmem | hmem
    · cases hmem
    · exact hnone v ⟨a, l, r, hmem, hv⟩
  exact ⟨hB, hrest, fun v => by rw [hB, or_iff_left (hnone v)]⟩

end Grounded

namespace Snapshot

variable {n : Snapshot} {occurrence : Nat → Occurrence} {σ : Assignment} {steps : List Step}
  {b : Bindings} {B : Nat → Prop} {matched more : List Match} {role : Role} {o : Occurrence}

/-- A fact counts as present for a literal. -/
def Present (n : Snapshot) (role : Role) (o : Occurrence) (t : Triple) : Prop :=
  ∃ row, (row, t) ∈ n.rows role o

/-- Atoms have no joint match under which the variables in `B` keep their values. -/
def Absent (n : Snapshot) (role : Role) (o : Occurrence) (B : Nat → Prop) (σ : Assignment)
    (atoms : List Atom) : Prop :=
  ∀ τ : Assignment, (∀ v, B v → τ v = σ v) → ∃ a ∈ atoms, ¬ n.Present role o (a.groundIn n.classes τ)

/-- Under an assignment the atom of a step counts as present; what must be absent has no match that
leaves the variables in `B` as they are. -/
def Admits (n : Snapshot) (occurrence : Nat → Occurrence) (B : Nat → Prop) (σ : Assignment) :
    Step → Prop
  | .find a literal role => n.Present role (occurrence literal) (a.groundIn n.classes σ)
  | .absent atoms literal role => n.Absent role (occurrence literal) B σ atoms

/-- What an assignment makes of the steps that look for rows is found in them, one after the other, and
what must be absent is. -/
inductive Follows (n : Snapshot) (occurrence : Nat → Occurrence) (B : Nat → Prop) (σ : Assignment) :
    List Step → List Match → Prop
  | nil : Follows n occurrence B σ [] []
  | find {a : Atom} {literal : Nat} {role : Role} {row : RowIndex} {rest : List Step}
      {more : List Match} (h : (row, a.groundIn n.classes σ) ∈ n.rows role (occurrence literal))
      (hrest : Follows n occurrence B σ rest more) :
      Follows n occurrence B σ (.find a literal role :: rest)
        (⟨literal, row, a.groundIn n.classes σ⟩ :: more)
  | absent {atoms : List Atom} {literal : Nat} {role : Role} {rest : List Step} {more : List Match}
      (h : n.Absent role (occurrence literal) B σ atoms)
      (hrest : Follows n occurrence B σ rest more) :
      Follows n occurrence B σ (.absent atoms literal role :: rest) more

theorem exists_follows_iff :
    (∃ more, n.Follows occurrence B σ steps more) ↔ ∀ step ∈ steps, n.Admits occurrence B σ step := by
  induction steps with
  | nil => exact ⟨fun _ _ h => (List.not_mem_nil h).elim, fun _ => ⟨[], .nil⟩⟩
  | cons step rest ih =>
    rw [List.forall_mem_cons, ← ih]
    constructor
    · rintro ⟨_, h⟩
      cases h with
      | find h hrest => exact ⟨⟨_, h⟩, _, hrest⟩
      | absent h hrest => exact ⟨h, _, hrest⟩
    · rintro ⟨h, more, hrest⟩
      cases step with
      | find a literal role =>
        obtain ⟨row, h⟩ := h
        exact ⟨_, .find h hrest⟩
      | absent atoms literal role => exact ⟨_, .absent h hrest⟩

/-- The step at which a row is found. -/
theorem Follows.exists_step (h : n.Follows occurrence B σ steps more) {m : Match} (hm : m ∈ more) :
    ∃ a role, .find a m.literal role ∈ steps ∧ (m.row, m.fact) ∈ n.rows role (occurrence m.literal) ∧
      m.fact = a.groundIn n.classes σ := by
  induction h with
  | nil => cases hm
  | find hrow _ ih =>
    rcases List.mem_cons.mp hm with rfl | hm
    · exact ⟨_, _, List.mem_cons_self, hrow, rfl⟩
    · obtain ⟨a, role, hmem, h⟩ := ih hm
      exact ⟨a, role, List.mem_cons_of_mem _ hmem, h⟩
  | absent _ _ ih =>
    obtain ⟨a, role, hmem, h⟩ := ih hm
    exact ⟨a, role, List.mem_cons_of_mem _ hmem, h⟩

/-- The row that is found at a step. -/
theorem Follows.exists_match (h : n.Follows occurrence B σ steps more) {a : Atom} {literal : Nat}
    (hs : .find a literal role ∈ steps) :
    ∃ m ∈ more, m.literal = literal ∧ m.fact = a.groundIn n.classes σ := by
  induction h with
  | nil => cases hs
  | find _ _ ih =>
    rcases List.mem_cons.mp hs with hs | hs
    · cases hs
      exact ⟨_, List.mem_cons_self, rfl, rfl⟩
    · obtain ⟨m, hm, h⟩ := ih hs
      exact ⟨m, List.mem_cons_of_mem _ hm, h⟩
  | absent _ _ ih =>
    rcases List.mem_cons.mp hs with hs | hs
    · cases hs
    · exact ih hs

/-- Atoms have a joint match if they count as present under an assignment that agrees with the
bindings. -/
theorem joint_iff {atoms : List Atom} (ha : ∀ a ∈ atoms, b.Scopes a) :
    n.joint role o atoms b = true ↔
      ∃ τ, b.Agrees τ ∧ ∀ a ∈ atoms, n.Present role o (a.groundIn n.classes τ) := by
  induction atoms generalizing b with
  | nil =>
    obtain ⟨τ, hτ⟩ := b.exists_agrees
    exact iff_of_true rfl ⟨τ, hτ, fun _ h => (List.not_mem_nil h).elim⟩
  | cons a rest ih =>
    have haa := ha a List.mem_cons_self
    have hrest : ∀ {b' : Bindings} {t}, Bindings.Fits n.classes a t b b' →
        (n.joint role o rest b' = true ↔
          ∃ τ, b'.Agrees τ ∧ ∀ c ∈ rest, n.Present role o (c.groundIn n.classes τ)) := fun hf =>
      ih fun c hc => (ha c (List.mem_cons_of_mem _ hc)).of_size hf.size
    rw [joint, List.any_eq_true]
    simp only [List.forall_mem_cons]
    constructor
    · rintro ⟨⟨row, t⟩, hrow, h⟩
      dsimp only at h
      cases hb' : b.bound? n.classes a t with
      | none => simp [hb'] at h
      | some b' =>
        rw [hb'] at h
        have hf := Bindings.fits_of_bound? haa hb'
        obtain ⟨τ, hτ, hall⟩ := (hrest hf).mp h
        obtain ⟨hbτ, rfl⟩ := (hf.agrees τ).mp hτ
        exact ⟨τ, hbτ, ⟨row, hrow⟩, hall⟩
    · rintro ⟨τ, hτ, ⟨row, hrow⟩, hall⟩
      refine ⟨_, hrow, ?_⟩
      have hspec := (Bindings.bind_spec n.classes haa (a.groundIn n.classes τ)).2
      dsimp only
      cases hb' : b.bound? n.classes a (a.groundIn n.classes τ) with
      | none =>
        rw [hb'] at hspec
        exact absurd rfl (hspec τ hτ)
      | some b' =>
        rw [hb'] at hspec
        exact (hrest hspec).mpr ⟨τ, (hspec.agrees τ).mpr ⟨hτ, rfl⟩, hall⟩

/-- Atoms have no joint match if they are absent under an assignment that agrees with the bindings,
of which just the variables in `B` have a value. -/
theorem absent_iff {atoms : List Atom} (ha : ∀ a ∈ atoms, b.Scopes a) (hB : ∀ v, B v ↔ b.Binds v)
    (hσ : b.Agrees σ) : n.Absent role o B σ atoms ↔ ¬ n.joint role o atoms b = true := by
  rw [joint_iff ha]
  constructor
  · rintro h ⟨τ, hτ, hall⟩
    obtain ⟨a, hmem, hn⟩ := h τ fun v hv => hτ.eq_of_binds hσ ((hB v).mp hv)
    exact hn (hall a hmem)
  · intro h τ hτ
    by_contra hno
    refine h ⟨τ, hσ.congr fun v hv => hτ v ((hB v).mpr hv), fun a hmem => ?_⟩
    by_contra hn
    exact hno ⟨a, hmem, hn⟩

/-- A match `p` of `steps` that goes on from `b` and `matched`. -/
structure Solves (n : Snapshot) (occurrence : Nat → Occurrence) (steps : List Step) (b : Bindings)
    (B : Nat → Prop) (matched : List Match) (p : Bindings × List Match) : Prop where
  finds : ∃ more, p.2 = matched ++ more ∧
    ∀ σ, p.1.Agrees σ → b.Agrees σ ∧ n.Follows occurrence B σ steps more
  binds (v : Nat) (h : B v) : p.1.Binds v

/-- Every match found is one. -/
theorem Solves.of_mem (ha : ∀ step ∈ steps, ∀ a ∈ step.atoms, b.Scopes a) (hg : Grounded steps b B)
    {p : Bindings × List Match} (h : p ∈ n.solutions occurrence steps b matched) :
    n.Solves occurrence steps b B matched p := by
  induction steps generalizing b matched with
  | nil =>
    obtain rfl := List.mem_singleton.mp h
    refine ⟨⟨[], by simp, fun σ hσ => ⟨hσ, .nil⟩⟩, fun v hv => ?_⟩
    rcases (hg.bound_iff v).mp hv with hv | ⟨_, _, _, hmem, _⟩
    · exact hv
    · cases hmem
  | cons step rest ih =>
    cases step with
    | find a literal role =>
      obtain ⟨⟨row, t⟩, hrow, h⟩ := List.mem_flatMap.mp h
      dsimp only at h
      cases hb : b.bound? n.classes a t with
      | none => simp [hb] at h
      | some b' =>
        rw [hb] at h
        have hf := Bindings.fits_of_bound?
          (ha _ List.mem_cons_self a (List.mem_singleton.mpr rfl)) hb
        obtain ⟨⟨more, hm, hall⟩, hbinds⟩ := ih
          (fun s hs c hc => (ha s (List.mem_cons_of_mem _ hs) c hc).of_size hf.size)
          (hg.of_find hf.binds) h
        refine ⟨⟨⟨literal, row, t⟩ :: more, by simp [hm], fun σ hσ => ?_⟩, hbinds⟩
        obtain ⟨hb', hmore⟩ := hall σ hσ
        obtain ⟨hbσ, rfl⟩ := (hf.agrees σ).mp hb'
        exact ⟨hbσ, .find hrow hmore⟩
    | absent atoms literal role =>
      obtain ⟨hB, hg'⟩ := hg.of_absent
      rw [solutions] at h
      split at h
      · cases h
      · rename_i hj
        obtain ⟨⟨more, hm, hall⟩, hbinds⟩ :=
          ih (fun s hs => ha s (List.mem_cons_of_mem _ hs)) hg' h
        refine ⟨⟨more, hm, fun σ hσ => ?_⟩, hbinds⟩
        obtain ⟨hbσ, hmore⟩ := hall σ hσ
        exact ⟨hbσ, .absent ((absent_iff (ha _ List.mem_cons_self) hB hbσ).mpr hj) hmore⟩

/-- Whatever follows the steps under an assignment is found. -/
theorem exists_solution (ha : ∀ step ∈ steps, ∀ a ∈ step.atoms, b.Scopes a)
    (hg : Grounded steps b B) (hσ : b.Agrees σ) (h : n.Follows occurrence B σ steps more)
    (matched : List Match) :
    ∃ b', (b', matched ++ more) ∈ n.solutions occurrence steps b matched ∧ b'.Agrees σ := by
  induction h generalizing b matched with
  | nil => exact ⟨b, by simp [solutions], hσ⟩
  | @find a literal role row rest more hrow _ ih =>
    have haa := ha _ List.mem_cons_self a (List.mem_singleton.mpr rfl)
    have hs := (Bindings.bind_spec n.classes haa (a.groundIn n.classes σ)).2
    cases hb : b.bound? n.classes a (a.groundIn n.classes σ) with
    | none =>
      rw [hb] at hs
      exact absurd rfl (hs σ hσ)
    | some b₁ =>
      rw [hb] at hs
      obtain ⟨b', hmem, hb'⟩ := ih
        (fun s hs' c hc => (ha s (List.mem_cons_of_mem _ hs') c hc).of_size hs.size)
        (hg.of_find hs.binds) ((hs.agrees σ).mpr ⟨hσ, rfl⟩)
        (matched ++ [⟨literal, row, a.groundIn n.classes σ⟩])
      refine ⟨b', List.mem_flatMap.mpr ⟨_, hrow, ?_⟩, hb'⟩
      simpa only [hb, List.append_assoc, List.singleton_append] using hmem
  | @absent atoms literal role rest more h _ ih =>
    obtain ⟨hB, hg'⟩ := hg.of_absent
    obtain ⟨b', hmem, hb'⟩ := ih (fun s hs => ha s (List.mem_cons_of_mem _ hs)) hg' hσ matched
    have hatoms : ∀ a ∈ atoms, b.Scopes a := ha _ List.mem_cons_self
    exact ⟨b', by rwa [solutions, if_neg ((absent_iff hatoms hB hσ).mp h)], hb'⟩

end Snapshot

end Entail
