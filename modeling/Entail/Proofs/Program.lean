import Entail.Rule.Evaluation

/-!
# Programs that end

`WP x s Q`: from the state `s` the computation `x` ends without a failure, in a result and a state
that satisfy `Q`. The rules below follow the shape of a computation; a loop over a list keeps an
invariant and leaves something done for every element (`WP.forM`), and so does a loop that carries a
value (`WP.foldlM`).
-/

namespace Entail

variable {ε σ α β : Type}

/-- From `s`, `x` ends without a failure, in a result and a state that satisfy `Q`. -/
def WP (x : EStateM ε σ α) (s : σ) (Q : α → σ → Prop) : Prop :=
  ∃ a s', x s = .ok a s' ∧ Q a s'

theorem bind_eq_ok {x : EStateM ε σ α} {f : α → EStateM ε σ β} {s t : σ} {b : β} :
    (x >>= f) s = .ok b t ↔ ∃ a s', x s = .ok a s' ∧ f a s' = .ok b t := by
  constructor
  · intro h
    simp only [bind, EStateM.bind] at h
    split at h
    · rename_i a s' hx
      exact ⟨a, s', hx, h⟩
    · cases h
  · rintro ⟨a, s', hx, hf⟩
    simp only [bind, EStateM.bind, hx, hf]

namespace WP

variable {x : EStateM ε σ α} {s : σ} {Q R : α → σ → Prop}

theorem of_eq {a : α} {s' : σ} (h : x s = .ok a s') (hQ : Q a s') : WP x s Q := ⟨a, s', h, hQ⟩

theorem mono (h : WP x s Q) (hQ : ∀ a s', Q a s' → R a s') : WP x s R := by
  obtain ⟨a, s', hx, hq⟩ := h
  exact ⟨a, s', hx, hQ a s' hq⟩

theorem result {a : α} {s' : σ} (h : WP x s Q) (hx : x s = .ok a s') : Q a s' := by
  obtain ⟨b, t, hx', hq⟩ := h
  rw [hx] at hx'
  cases hx'
  exact hq

@[simp] theorem pure_iff {a : α} {Q : α → σ → Prop} :
    WP (pure a : EStateM ε σ α) s Q ↔ Q a s :=
  ⟨fun ⟨_, _, h, hq⟩ => by cases h; exact hq, fun h => ⟨a, s, rfl, h⟩⟩

@[simp] theorem bind_iff {f : α → EStateM ε σ β} {Q : β → σ → Prop} :
    WP (x >>= f) s Q ↔ WP x s fun a s' => WP (f a) s' Q := by
  constructor
  · rintro ⟨b, t, h, hq⟩
    obtain ⟨a, s', hx, hf⟩ := bind_eq_ok.mp h
    exact ⟨a, s', hx, b, t, hf, hq⟩
  · rintro ⟨a, s', hx, b, t, hf, hq⟩
    exact ⟨b, t, bind_eq_ok.mpr ⟨a, s', hx, hf⟩, hq⟩

@[simp] theorem map_iff {f : α → β} {Q : β → σ → Prop} :
    WP (f <$> x) s Q ↔ WP x s fun a s' => Q (f a) s' := by
  rw [map_eq_pure_bind, bind_iff]
  simp only [pure_iff]

@[simp] theorem discard_iff {Q : PUnit → σ → Prop} :
    WP (discard x) s Q ↔ WP x s fun _ s' => Q .unit s' :=
  map_iff

@[simp] theorem get_iff {Q : σ → σ → Prop} : WP (get : EStateM ε σ σ) s Q ↔ Q s s :=
  ⟨fun ⟨_, _, h, hq⟩ => by cases h; exact hq, fun h => ⟨s, s, rfl, h⟩⟩

@[simp] theorem modify_iff {f : σ → σ} {Q : PUnit → σ → Prop} :
    WP (modify f : EStateM ε σ PUnit) s Q ↔ Q .unit (f s) :=
  ⟨fun ⟨_, _, h, hq⟩ => by cases h; exact hq, fun h => ⟨_, _, rfl, h⟩⟩

@[simp] theorem modifyGet_iff {f : σ → α × σ} :
    WP (modifyGet f : EStateM ε σ α) s Q ↔ Q (f s).1 (f s).2 :=
  ⟨fun ⟨_, _, h, hq⟩ => by cases h; exact hq, fun h => ⟨_, _, rfl, h⟩⟩

@[simp] theorem reads_iff {f : σ → Except Failure α} {Q : α → σ → Prop} :
    WP (Eval.reads f) s Q ↔ ∃ a, f s = .ok a ∧ Q a s := by
  constructor
  · rintro ⟨a, t, h, hq⟩
    simp only [Eval.reads] at h
    split at h
    · rename_i b hb
      cases h
      exact ⟨_, hb, hq⟩
    · cases h
  · rintro ⟨a, h, hq⟩
    exact ⟨a, s, by simp only [Eval.reads, h], hq⟩

/-- A loop over a list that carries a value keeps `Inv`, and leaves `Done a` for every element
`a`. -/
theorem foldlM {l : List α} {f : β → α → EStateM ε σ β} (Inv : β → σ → Prop) (Done : α → σ → Prop)
    (hstep : ∀ a ∈ l, ∀ b s, Inv b s →
      WP (f b a) s fun b' s' => Inv b' s' ∧ Done a s' ∧ ∀ a' ∈ l, Done a' s → Done a' s')
    {b : β} (h : Inv b s) :
    WP (l.foldlM f b) s fun b' s' => Inv b' s' ∧ ∀ a ∈ l, Done a s' := by
  -- what is done for the elements behind stays done
  suffices H : ∀ (done rest : List α) (b : β) (s : σ), done ++ rest = l → Inv b s →
      (∀ a ∈ done, Done a s) →
      WP (rest.foldlM f b) s fun b' s' => Inv b' s' ∧ ∀ a ∈ l, Done a s' from
    H [] l b s rfl h (by simp)
  intro done rest
  induction rest generalizing done with
  | nil =>
    intro b s hl hs hd
    rw [List.append_nil] at hl
    exact ⟨b, s, rfl, hs, hl ▸ hd⟩
  | cons a rest ih =>
    intro b s hl hs hd
    have ha : a ∈ l := by rw [← hl]; simp
    rw [List.foldlM_cons, bind_iff]
    refine (hstep a ha b s hs).mono ?_
    rintro b' s' ⟨hs', hda, hkeep⟩
    refine ih (done ++ [a]) b' s' (by rw [← hl]; simp) hs' fun c hc => ?_
    rcases List.mem_append.mp hc with hc | hc
    · exact hkeep c (by rw [← hl]; exact List.mem_append_left _ hc) (hd c hc)
    · rwa [List.mem_singleton.mp hc]

theorem forM_nil {f : α → EStateM ε σ PUnit} {Q : PUnit → σ → Prop} :
    WP (([] : List α).forM f) s Q ↔ Q .unit s :=
  pure_iff

theorem forM_cons {a : α} {l : List α} {f : α → EStateM ε σ PUnit} {Q : PUnit → σ → Prop} :
    WP ((a :: l).forM f) s Q ↔ WP (f a) s fun _ s' => WP (l.forM f) s' Q :=
  bind_iff

theorem forM_eq_foldlM (l : List α) (f : α → EStateM ε σ PUnit) :
    l.forM f = l.foldlM (fun _ a => f a) .unit := by
  induction l with
  | nil => rfl
  | cons a l ih =>
    rw [List.foldlM_cons]
    exact bind_congr fun _ => ih

/-- A loop over a list keeps `Inv` and leaves `Done a` for every element `a`. -/
theorem forM {l : List α} {f : α → EStateM ε σ PUnit} (Inv : σ → Prop) (Done : α → σ → Prop)
    (hstep : ∀ a ∈ l, ∀ s, Inv s →
      WP (f a) s fun _ s' => Inv s' ∧ Done a s' ∧ ∀ b ∈ l, Done b s → Done b s')
    (h : Inv s) : WP (l.forM f) s fun _ s' => Inv s' ∧ ∀ a ∈ l, Done a s' := by
  rw [forM_eq_foldlM]
  exact foldlM (fun _ => Inv) Done (fun a ha _ s hs => hstep a ha s hs) h

end WP

end Entail
